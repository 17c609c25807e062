import Mathlib.Algebra.BigOperators.Group.Finset.Piecewise
import Mathlib.Data.List.Nodup
import OpusFleet.Library.Runs

namespace OpusFleet.Library

section Shuffle

variable {κ α : Type*} [DecidableEq κ]

/-- A merge of logs: every entry carries the name of its log, and each
log is read in its own order. -/
def Shuffle (logs : κ → List α) (xs : List (κ × α)) : Prop :=
  ∀ k, (xs.filter fun x ↦ x.1 = k).map Prod.snd = logs k

variable {logs : κ → List α} {xs ys : List (κ × α)}

theorem Shuffle.mem (h : Shuffle logs xs) {k : κ} {a : α} : (k, a) ∈ xs ↔ a ∈ logs k := by
  rw [← h k, List.mem_map]
  constructor
  · intro hx
    exact ⟨(k, a), List.mem_filter.mpr ⟨hx, by simp⟩, rfl⟩
  · intro h
    obtain ⟨⟨k', a'⟩, hx, rfl⟩ := h
    obtain ⟨hmem, hk⟩ := List.mem_filter.mp hx
    obtain rfl : k' = k := by simpa using hk
    exact hmem

theorem Shuffle.mem_map (h : Shuffle logs xs) {a : α} : a ∈ xs.map Prod.snd ↔ ∃ k, a ∈ logs k := by
  rw [List.mem_map]
  constructor
  · intro ha
    obtain ⟨⟨k, a⟩, hx, rfl⟩ := ha
    exact ⟨k, h.mem.mp hx⟩
  · intro ha
    obtain ⟨k, hk⟩ := ha
    exact ⟨(k, a), h.mem.mpr hk, rfl⟩

theorem Shuffle.filter_of_log (h : Shuffle logs xs) (p : α → Bool) (k : κ)
    (hp : ∀ k' a, a ∈ logs k' → p a = true → k' = k) :
    (xs.map Prod.snd).filter p = (logs k).filter p := by
  have hsame : xs.filter (p ∘ Prod.snd) = (xs.filter fun x ↦ x.1 = k).filter (p ∘ Prod.snd) := by
    rw [List.filter_filter]
    apply List.filter_congr
    intro x hx
    cases hpa : p x.2 with
    | false => simp [hpa]
    | true => simp [hpa, hp x.1 x.2 (h.mem.mp hx) hpa]
  rw [List.filter_map, hsame, ← List.filter_map, h k]

/-- Two merges of the same logs agree on all that is spread over no two logs. -/
theorem Shuffle.filter_eq (hx : Shuffle logs xs) (hy : Shuffle logs ys) (p : α → Bool)
    (hp : ∀ k k' a a', a ∈ logs k → a' ∈ logs k' → p a = true → p a' = true → k = k') :
    (xs.map Prod.snd).filter p = (ys.map Prod.snd).filter p := by
  by_cases hsome : ∃ k, ∃ a ∈ logs k, p a = true
  · obtain ⟨k, a, ha, hpa⟩ := hsome
    have honly : ∀ k' a', a' ∈ logs k' → p a' = true → k' = k :=
      fun k' a' ha' hpa' ↦ hp k' k a' a ha' ha hpa' hpa
    rw [hx.filter_of_log p k honly, hy.filter_of_log p k honly]
  · have hnone {zs : List (κ × α)} (hz : Shuffle logs zs) : (zs.map Prod.snd).filter p = [] := by
      rw [List.filter_eq_nil_iff]
      intro a ha hpa
      obtain ⟨k, hk⟩ := hz.mem_map.mp ha
      exact hsome ⟨k, a, hk, hpa⟩
    rw [hnone hx, hnone hy]

theorem Shuffle.sum_map {M : Type*} [AddCommMonoid M] (h : Shuffle logs xs)
    (w : α → M) {ks : List κ} (hnodup : ks.Nodup) (hks : ∀ x ∈ xs, x.1 ∈ ks) :
    ((xs.map Prod.snd).map w).sum = (ks.map fun k ↦ ((logs k).map w).sum).sum := by
  obtain rfl : (fun k ↦ (xs.filter fun x ↦ x.1 = k).map Prod.snd) = logs := funext h
  clear h
  rw [← List.sum_toFinset _ hnodup]
  induction xs with
  | nil => simp
  | cons x xs ih =>
    obtain ⟨hx, hxs⟩ := List.forall_mem_cons.mp hks
    have hfirst (k : κ) : ((((x :: xs).filter fun y ↦ y.1 = k).map Prod.snd).map w).sum =
        (if x.1 = k then w x.2 else 0) +
        (((xs.filter fun y ↦ y.1 = k).map Prod.snd).map w).sum := by
      by_cases hk : x.1 = k <;> simp [hk]
    rw [Finset.sum_congr rfl fun k _ ↦ hfirst k, Finset.sum_add_distrib, Finset.sum_ite_eq,
      if_pos (List.mem_toFinset.mpr hx), ← ih hxs]
    rfl

theorem Shuffle.filterMap {β : Type*} (h : Shuffle logs xs) (f : α → Option β) :
    Shuffle (fun k ↦ (logs k).filterMap f) (xs.filterMap fun x ↦ (f x.2).map (x.1, ·)) := by
  intro k
  dsimp only
  rw [← h k]
  clear h
  induction xs with
  | nil => rfl
  | cons x xs ih =>
    rw [List.filterMap_cons, List.filter_cons]
    by_cases hk : x.1 = k
    · rw [if_pos (by simpa using hk), List.map_cons, List.filterMap_cons]
      cases f x.2 with
      | none => exact ih
      | some b => simp [hk, ih]
    · rw [if_neg (by simpa using hk)]
      cases f x.2 with
      | none => exact ih
      | some b => simp [hk, ih]

theorem Shuffle.uncons {k : κ} {a : α} (h : Shuffle logs ((k, a) :: xs)) :
    ∃ rest, logs k = a :: rest ∧ Shuffle (Function.update logs k rest) xs := by
  refine ⟨(xs.filter fun x ↦ x.1 = k).map Prod.snd, ?_, fun k' ↦ ?_⟩
  · rw [← h k]
    simp
  · by_cases hk : k' = k
    · rw [hk, Function.update_self]
    · rw [Function.update_of_ne hk, ← h k']
      simp [Ne.symm hk]

theorem Shuffle.lift {β : Type*} (f : α → β) {ys : List (κ × β)}
    (h : Shuffle (fun k ↦ (logs k).map f) ys) :
    ∃ xs, Shuffle logs xs ∧ xs.map (fun x ↦ (x.1, f x.2)) = ys := by
  induction ys generalizing logs with
  | nil =>
    refine ⟨[], fun k ↦ ?_, rfl⟩
    exact (List.map_eq_nil_iff.mp (h k).symm).symm
  | cons y ys ih =>
    obtain ⟨k, b⟩ := y
    obtain ⟨rest, hk, hrest⟩ := h.uncons
    obtain ⟨a, as, hlog, rfl, rfl⟩ := List.map_eq_cons_iff.mp hk
    have hlogs : Function.update (fun k ↦ (logs k).map f) k (as.map f) =
        fun k' ↦ (Function.update logs k as k').map f := by
      funext k'
      by_cases hk' : k' = k
      · rw [hk', Function.update_self, Function.update_self]
      · rw [Function.update_of_ne hk', Function.update_of_ne hk']
    rw [hlogs] at hrest
    obtain ⟨xs, hxs, rfl⟩ := ih hrest
    refine ⟨(k, a) :: xs, fun k' ↦ ?_, rfl⟩
    have hfilter := hxs k'
    by_cases hk' : k' = k
    · rw [hk', Function.update_self] at hfilter
      rw [hk', hlog, ← hfilter]
      simp
    · rw [Function.update_of_ne hk'] at hfilter
      rw [← hfilter]
      simp [Ne.symm hk']

theorem Shuffle.nodup (h : Shuffle logs xs) (hlogs : ∀ k, (logs k).Nodup)
    (honly : ∀ k k' a, a ∈ logs k → a ∈ logs k' → k = k') : (xs.map Prod.snd).Nodup := by
  induction xs generalizing logs with
  | nil => exact List.nodup_nil
  | cons x xs ih =>
    obtain ⟨k, a⟩ := x
    obtain ⟨rest, hlog, hrest⟩ := h.uncons
    obtain ⟨hnew, hnodup⟩ := List.nodup_cons.mp (hlog ▸ hlogs k)
    have hsub (k' : κ) (b : α) (hb : b ∈ Function.update logs k rest k') : b ∈ logs k' := by
      by_cases hk' : k' = k
      · rw [hk', Function.update_self] at hb
        rw [hk', hlog]
        exact List.mem_cons_of_mem a hb
      · rwa [Function.update_of_ne hk'] at hb
    rw [List.map_cons, List.nodup_cons]
    constructor
    · intro hmem
      obtain ⟨k', hk'⟩ := hrest.mem_map.mp hmem
      obtain rfl : k = k' := honly k k' a (by rw [hlog]; exact List.mem_cons_self) (hsub k' a hk')
      rw [Function.update_self] at hk'
      exact hnew hk'
    · refine ih hrest (fun k' ↦ ?_) fun k' k'' b hb hb' ↦
        honly k' k'' b (hsub k' b hb) (hsub k'' b hb')
      by_cases hk' : k' = k
      · rwa [hk', Function.update_self]
      · rw [Function.update_of_ne hk']
        exact hlogs k'

end Shuffle

section Separable

variable {σ β α κ τ : Type*} [DecidableEq κ]

/-- The state shows through separate windows, and a step moves at most one of them: the one that its
content names, by what its content says. -/
structure Separable (step : σ → β → Option σ) (content : β → α) (window : α → Option κ)
    (obs : κ → σ → τ) (act : κ → α → τ → τ) : Prop where
  frame : ∀ s b s' k, step s b = some s' → window (content b) ≠ some k → obs k s' = obs k s
  own : ∀ s b s' k, step s b = some s' → window (content b) = some k →
    obs k s' = act k (content b) (obs k s)

variable {step : σ → β → Option σ} {content : β → α} {window : α → Option κ} {obs : κ → σ → τ}
  {act : κ → α → τ → τ} {s s' r' : σ} {xs ys : List β}

theorem Separable.obs_run (h : Separable step content window obs act)
    (hrun : Runs.run step s xs = some s') (k : κ) :
    obs k s' =
      ((xs.map content).filter fun a ↦ window a = some k).foldl (fun o a ↦ act k a o)
        (obs k s) := by
  induction xs generalizing s with
  | nil =>
    obtain rfl : s = s' := by simpa using hrun
    rfl
  | cons b xs ih =>
    obtain ⟨m, hm, hrest⟩ := Option.bind_eq_some_iff.mp hrun
    rw [ih hrest, List.map_cons, List.filter_cons]
    by_cases hk : window (content b) = some k
    · rw [if_pos (by simpa using hk), List.foldl_cons, h.own s b m k hm hk]
    · rw [if_neg (by simpa using hk), h.frame s b m k hm hk]

/-- Two runs whose steps come in the same order at each window show the same. -/
theorem Separable.confluent (h : Separable step content window obs act)
    (hx : Runs.run step s xs = some s') (hy : Runs.run step s ys = some r')
    (hsame : ∀ k, (xs.map content).filter (fun a ↦ window a = some k) =
      (ys.map content).filter fun a ↦ window a = some k) (k : κ) : obs k s' = obs k r' := by
  rw [h.obs_run hx, h.obs_run hy, hsame]

end Separable

end OpusFleet.Library
