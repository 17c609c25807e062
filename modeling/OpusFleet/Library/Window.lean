import Mathlib.Data.List.Basic
import Mathlib.Order.Defs.PartialOrder

namespace OpusFleet.Library.Window

variable {α : Type*}

theorem dropWhile_dropWhile {p q : α → Bool} (h : ∀ a, p a = true → q a = true) (xs : List α) :
    (xs.dropWhile p).dropWhile q = xs.dropWhile q := by
  induction xs with
  | nil => rfl
  | cons a xs ih =>
    cases hp : p a with
    | true => rw [List.dropWhile_cons_of_pos hp, List.dropWhile_cons_of_pos (h a hp), ih]
    | false => rw [List.dropWhile_cons_of_neg (by simp [hp])]

theorem dropWhile_eq_filter {p : α → Bool} {xs : List α}
    (h : xs.Pairwise fun a b ↦ p b = true → p a = true) : xs.dropWhile p = xs.filter (! p ·) := by
  induction xs with
  | nil => rfl
  | cons a xs ih =>
    obtain ⟨hfirst, hrest⟩ := List.pairwise_cons.mp h
    cases hp : p a with
    | true =>
      rw [List.dropWhile_cons_of_pos hp, ih hrest, List.filter_cons_of_neg (by simp [hp])]
    | false =>
      have hall : ∀ b ∈ a :: xs, (! p b) = true := by
        intro b hb
        rcases List.mem_cons.mp hb with rfl | hb
        · simp [hp]
        · cases hpb : p b with
          | true => exact absurd (hfirst b hb hpb) (by simp [hp])
          | false => rfl
      rw [List.dropWhile_cons_of_neg (by simp [hp]), List.filter_eq_self.mpr hall]

section Log

variable [Preorder α] (expired : α → α → Bool)

/-- A log that has lost old entries of `all`, but none that is still alive at `since` or later. -/
def Keeps (kept all : List α) (since : α) : Prop :=
  ∀ now, since ≤ now → kept.dropWhile (expired now) = all.dropWhile (expired now)

variable {expired} {kept all : List α} {since now : α}

theorem Keeps.mono (h : Keeps expired kept all since) (hnow : since ≤ now) :
    Keeps expired kept all now :=
  fun later hlater ↦ h later (le_trans hnow hlater)

theorem Keeps.trim (hexpired : ∀ now later t, now ≤ later → expired now t = true →
    expired later t = true)
    (h : Keeps expired kept all since) (hnow : since ≤ now) :
    Keeps expired (kept.dropWhile (expired now)) all now := by
  intro later hlater
  rw [dropWhile_dropWhile fun t ↦ hexpired now later t hlater]
  exact h later (le_trans hnow hlater)

theorem Keeps.push (h : Keeps expired kept all since) (t : α) :
    Keeps expired (kept ++ [t]) (all ++ [t]) since := by
  intro later hlater
  rw [List.dropWhile_append, List.dropWhile_append, h later hlater]

theorem Keeps.length (hexpired : ∀ now s t, s ≤ t → expired now t = true → expired now s = true)
    (h : Keeps expired kept all since) (hnow : since ≤ now) (hsorted : all.Pairwise (· ≤ ·)) :
    (kept.dropWhile (expired now)).length = all.countP (! expired now ·) := by
  rw [h now hnow, dropWhile_eq_filter (hsorted.imp fun hst ↦ hexpired now _ _ hst),
    List.countP_eq_length_filter]

end Log

section Last

variable {β : Type*} {f : α → Option β} {r : β → β → Prop} {xs : List α}

/-- What a log last said goes along `r` from each of its fronts to a longer one exactly when
all that it says goes along `r`. -/
theorem last_forward_iff (hrefl : ∀ v ∈ xs.filterMap f, r v v) :
    (∀ k k', k ≤ k' → ∀ v ∈ ((xs.take k).filterMap f).getLast?,
      ∀ v' ∈ ((xs.take k').filterMap f).getLast?, r v v') ↔
      (xs.filterMap f).Pairwise r := by
  constructor
  · intro h
    rw [List.pairwise_filterMap, List.pairwise_iff_getElem]
    intro i j hi hj hij v hv v' hv'
    have hlast {n : ℕ} (hn : n < xs.length) {w : β} (hw : f xs[n] = some w) :
        w ∈ ((xs.take (n + 1)).filterMap f).getLast? := by
      rw [← List.take_append_getElem hn, List.filterMap_append]
      simp [hw]
    exact h (i + 1) (j + 1) (by omega) v (hlast hi hv) v' (hlast hj hv')
  · intro h k k' hk v hv v' hv'
    obtain ⟨rest, hrest⟩ := List.take_prefix_take_left (l := xs) hk
    have hall : ((xs.take k').filterMap f).Pairwise r :=
      h.sublist ((List.take_sublist k' xs).filterMap f)
    rw [← hrest, List.filterMap_append] at hall hv'
    have hmem := List.mem_of_mem_getLast? hv
    rcases hend : rest.filterMap f with _ | ⟨w, ws⟩
    · rw [hend, List.append_nil] at hv'
      obtain rfl := Option.some.inj (hv.symm.trans hv')
      exact hrefl v (((List.take_sublist k xs).filterMap f).subset hmem)
    · rw [List.getLast?_append_of_ne_nil _ (by simp [hend])] at hv'
      exact (List.pairwise_append.mp hall).2.2 v hmem v' (List.mem_of_mem_getLast? hv')

end Last

end OpusFleet.Library.Window
