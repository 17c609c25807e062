import Mathlib.Data.List.Nodup

namespace OpusFleet.Library

variable {κ ν : Type*} [DecidableEq κ]

namespace Assoc

/-- Association lists read left to right; an update keeps a key's place and
a new key goes to the end, so that the order is the order of insertion. -/
def get : List (κ × ν) → κ → Option ν
  | [], _ => none
  | (k', v) :: es, k => if k' = k then some v else get es k

def set : List (κ × ν) → κ → ν → List (κ × ν)
  | [], k, v => [(k, v)]
  | (k', v') :: es, k, v => if k' = k then (k, v) :: es else (k', v') :: set es k v

def erase (es : List (κ × ν)) (k : κ) : List (κ × ν) := es.filter (·.1 ≠ k)

@[simp] theorem get_nil (k : κ) : get ([] : List (κ × ν)) k = none := rfl

theorem set_cons (e : κ × ν) (es : List (κ × ν)) (k : κ) (v : ν) :
    set (e :: es) k v = if e.1 = k then (k, v) :: es else e :: set es k v := rfl

theorem erase_cons (e : κ × ν) (es : List (κ × ν)) (k : κ) :
    erase (e :: es) k = if e.1 = k then erase es k else e :: erase es k := by
  by_cases h : e.1 = k <;> simp [erase, h]

@[simp] theorem get_set_self (es : List (κ × ν)) (k : κ) (v : ν) : get (set es k v) k = some v := by
  induction es with
  | nil => simp [set, get]
  | cons e es ih => by_cases h : e.1 = k <;> simp [set, get, h, ih]

@[simp] theorem get_set_ne (es : List (κ × ν)) {k k' : κ} (v : ν) (hk : k' ≠ k) :
    get (set es k v) k' = get es k' := by
  induction es with
  | nil => simp [set, get, hk.symm]
  | cons e es ih =>
    by_cases h : e.1 = k
    · simp [set, get, h, hk.symm]
    · simp only [set, h, if_false, get, ih]

theorem get_set (es : List (κ × ν)) (k k' : κ) (v : ν) :
    get (set es k v) k' = if k' = k then some v else get es k' := by
  by_cases h : k' = k
  · subst h; simp
  · simp [h]

@[simp] theorem get_erase_self (es : List (κ × ν)) (k : κ) : get (erase es k) k = none := by
  induction es with
  | nil => rfl
  | cons e es ih => by_cases h : e.1 = k <;> simp [erase_cons, get, h, ih]

@[simp] theorem get_erase_ne (es : List (κ × ν)) {k k' : κ} (hk : k' ≠ k) :
    get (erase es k) k' = get es k' := by
  induction es with
  | nil => rfl
  | cons e es ih =>
    by_cases h : e.1 = k
    · simp [erase_cons, get, h, hk.symm, ih]
    · by_cases h' : e.1 = k' <;> simp [erase_cons, get, h, h', hk, ih]

theorem erase_set_self (es : List (κ × ν)) (k : κ) (v : ν) : erase (set es k v) k = erase es k := by
  induction es with
  | nil => simp [set, erase]
  | cons e es ih => by_cases h : e.1 = k <;> simp [set_cons, erase_cons, h, ih]

theorem erase_set_ne (es : List (κ × ν)) {k k' : κ} (v : ν) (hk : k ≠ k') :
    erase (set es k v) k' = set (erase es k') k v := by
  induction es with
  | nil => simp [set, erase, hk]
  | cons e es ih =>
    by_cases h : e.1 = k
    · simp [set_cons, erase_cons, h, hk]
    · by_cases h' : e.1 = k' <;> simp [set_cons, erase_cons, h, h', hk.symm, ih]

theorem keys_set (es : List (κ × ν)) (k : κ) (v : ν) :
    (set es k v).map Prod.fst =
      if k ∈ es.map Prod.fst then es.map Prod.fst else es.map Prod.fst ++ [k] := by
  induction es with
  | nil => simp [set]
  | cons e es ih =>
    by_cases h : e.1 = k
    · simp [set, h]
    · simp only [set, h, if_false, List.map_cons, ih, List.mem_cons, Ne.symm h, false_or]
      split <;> rfl

theorem set_fresh {es : List (κ × ν)} {k : κ} (h : k ∉ es.map Prod.fst) (v : ν) :
    set es k v = es ++ [(k, v)] := by
  induction es with
  | nil => rfl
  | cons e es ih =>
    rw [List.map_cons, List.mem_cons, not_or] at h
    rw [set_cons, if_neg (Ne.symm h.1), ih h.2, List.cons_append]

theorem filter_set (p : κ → Bool) (es : List (κ × ν)) (k : κ) (v : ν) :
    (set es k v).filter (fun e ↦ p e.1) =
      if p k then set (es.filter fun e ↦ p e.1) k v else es.filter fun e ↦ p e.1 := by
  induction es with
  | nil => cases hp : p k <;> simp [set, hp]
  | cons e es ih =>
    rw [set_cons, List.filter_cons]
    by_cases he : e.1 = k
    · subst he
      rw [if_pos rfl, List.filter_cons]
      cases p e.1 <;> simp [set_cons]
    · rw [if_neg he, List.filter_cons, ih]
      cases p e.1 <;> cases p k <;> simp [set_cons, he]

theorem get_eq_none (es : List (κ × ν)) (k : κ) : get es k = none ↔ k ∉ es.map Prod.fst := by
  induction es with
  | nil => simp
  | cons e es ih => by_cases h : e.1 = k <;> simp_all [get, eq_comm]

theorem get_iff_mem {es : List (κ × ν)} (hes : (es.map Prod.fst).Nodup) (k : κ) (v : ν) :
    get es k = some v ↔ (k, v) ∈ es := by
  induction es with
  | nil => simp
  | cons e es ih =>
    obtain ⟨hfresh, hes⟩ := List.nodup_cons.mp hes
    rw [List.mem_cons, ← ih hes]
    by_cases h : e.1 = k
    · have hnone : get es k = none := (get_eq_none es k).mpr (h ▸ hfresh)
      simp [get, h, hnone, Prod.ext_iff, eq_comm]
    · simp [get, h, Prod.ext_iff, Ne.symm h]

theorem get_append (es es' : List (κ × ν)) (k : κ) :
    get (es ++ es') k = (get es k).or (get es' k) := by
  induction es with
  | nil => simp
  | cons e es ih =>
    simp only [List.cons_append, get, ih]
    split <;> simp

end Assoc

/-- A dictionary: every key once, in the order of first insertion. -/
structure Dict (κ ν : Type*) [DecidableEq κ] where
  entries : List (κ × ν)
  nodup : (entries.map Prod.fst).Nodup

namespace Dict

def empty : Dict κ ν := ⟨[], List.nodup_nil⟩

def get (d : Dict κ ν) (k : κ) : Option ν := Assoc.get d.entries k

def keys (d : Dict κ ν) : List κ := d.entries.map Prod.fst

theorem nodup_set (d : Dict κ ν) (k : κ) (v : ν) :
    ((Assoc.set d.entries k v).map Prod.fst).Nodup := by
  rw [Assoc.keys_set]
  split
  · exact d.nodup
  · next h =>
      simpa [List.nodup_append, d.nodup] using fun a b hb hk ↦ h (by simpa using ⟨b, hk ▸ hb⟩)

def set (d : Dict κ ν) (k : κ) (v : ν) : Dict κ ν := ⟨Assoc.set d.entries k v, nodup_set d k v⟩

def pop (d : Dict κ ν) (k : κ) : Dict κ ν :=
  ⟨Assoc.erase d.entries k, d.nodup.sublist (List.filter_sublist.map _)⟩

@[simp] theorem get_empty (k : κ) : (empty : Dict κ ν).get k = none := rfl

@[simp] theorem get_set_self (d : Dict κ ν) (k : κ) (v : ν) : (d.set k v).get k = some v :=
  Assoc.get_set_self _ _ _

@[simp] theorem get_set_ne (d : Dict κ ν) {k k' : κ} (v : ν) (hk : k' ≠ k) :
    (d.set k v).get k' = d.get k' := Assoc.get_set_ne _ _ hk

theorem get_set (d : Dict κ ν) (k k' : κ) (v : ν) :
    (d.set k v).get k' = if k' = k then some v else d.get k' := Assoc.get_set _ _ _ _

@[simp] theorem get_pop_self (d : Dict κ ν) (k : κ) : (d.pop k).get k = none :=
  Assoc.get_erase_self _ _

@[simp] theorem get_pop_ne (d : Dict κ ν) {k k' : κ} (hk : k' ≠ k) : (d.pop k).get k' = d.get k' :=
  Assoc.get_erase_ne _ hk

theorem pop_eq_self (d : Dict κ ν) (k : κ) : d.pop k = d ↔ d.get k = none := by
  constructor
  · intro h
    rw [← h]
    exact get_pop_self d k
  · intro h
    rcases d with ⟨es, hnodup⟩
    rw [get, Assoc.get_eq_none] at h
    simp only [pop, Assoc.erase, mk.injEq, List.filter_eq_self, decide_eq_true_eq]
    intro e he hk
    exact h (List.mem_map.mpr ⟨e, he, hk⟩)

theorem keys_set (d : Dict κ ν) (k : κ) (v : ν) :
    (d.set k v).keys = if k ∈ d.keys then d.keys else d.keys ++ [k] := Assoc.keys_set _ _ _

theorem keys_pop (d : Dict κ ν) (k : κ) : (d.pop k).keys = d.keys.filter (· ≠ k) := by
  simp only [keys, pop, Assoc.erase, List.filter_map]
  rfl

theorem mem_keys (d : Dict κ ν) (k : κ) : k ∈ d.keys ↔ (d.get k).isSome := by
  rw [← Option.ne_none_iff_isSome, ne_eq, get, Assoc.get_eq_none, not_not, keys]

end Dict

end OpusFleet.Library
