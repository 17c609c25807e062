import Mathlib.Data.List.SplitBy

namespace OpusFleet.Library.Groups

variable {α κ : Type*} [DecidableEq κ] (key : α → κ)

/-- The maximal stretches of neighbours with one key. -/
def groups (xs : List α) : List (List α) := xs.splitBy fun a b ↦ key a = key b

@[simp] theorem groups_nil : groups key [] = [] := rfl

theorem groups_flatten (xs : List α) : (groups key xs).flatten = xs := List.flatten_splitBy _ xs

variable {key} {xs g : List α} {gs : List (List α)} {a : α}

theorem groups_ne_nil (hg : g ∈ groups key xs) : g ≠ [] := List.ne_nil_of_mem_splitBy hg

theorem groups_join (h : groups key xs = gs ++ [g]) (ha : ∀ b ∈ g, key b = key a) :
    groups key (xs ++ [a]) = gs ++ [g ++ [a]] := by
  rw [groups, List.splitBy_eq_iff] at h ⊢
  obtain ⟨hxs, hnil, hchain, hcut⟩ := h
  have hg : g ≠ [] := fun h ↦ hnil (by simp [h])
  refine ⟨by simp [hxs], ?_, fun m hm ↦ ?_, ?_⟩
  · simpa using fun h ↦ hnil (List.mem_append_left _ h)
  · rcases List.mem_append.mp hm with hm | hm
    · exact hchain m (List.mem_append_left _ hm)
    · obtain rfl := List.mem_singleton.mp hm
      refine List.isChain_append.mpr ⟨hchain g (by simp), .singleton a, fun x hx y hy ↦ ?_⟩
      have hx' : key x = key a := ha x (List.mem_of_mem_getLast? hx)
      obtain rfl : a = y := by simpa using hy
      simpa using hx'
  · obtain ⟨hgs, -, hlast⟩ := List.isChain_append.mp hcut
    refine List.isChain_append.mpr ⟨hgs, .singleton _, fun x hx y hy ↦ ?_⟩
    obtain rfl : g ++ [a] = y := by simpa using hy
    obtain ⟨hx', hne, hr⟩ := hlast x hx g rfl
    exact ⟨hx', by simp, by rwa [List.head_append_of_ne_nil hg]⟩

theorem groups_open (h : groups key xs = gs ++ [g]) (ha : ∀ b ∈ g, key b ≠ key a) :
    groups key (xs ++ [a]) = gs ++ [g] ++ [[a]] := by
  have hxs := groups_flatten key xs
  have hg : g ≠ [] := groups_ne_nil (h ▸ List.mem_append_right gs (List.mem_singleton_self g))
  rw [← h]
  refine List.splitBy_append_cons [] fun b hb ↦ ?_
  rw [← hxs, h, List.flatten_append, List.flatten_singleton,
    List.getLast?_append_of_ne_nil _ hg] at hb
  simpa using ha b (List.mem_of_mem_getLast? hb)

end OpusFleet.Library.Groups
