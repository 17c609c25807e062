import Mathlib.Data.List.Basic

namespace OpusFleet.Library.Words

variable {α : Type*}

def power (w : List α) (n : ℕ) : List α := (List.replicate n w).flatten

@[simp] theorem power_one (w : List α) : power w 1 = w := by simp [power]

theorem power_add (w : List α) (m n : ℕ) : power w (m + n) = power w m ++ power w n := by
  simp only [power, List.replicate_add, List.flatten_append]

theorem power_comm (w : List α) (m n : ℕ) : power w m ++ power w n = power w n ++ power w m := by
  rw [← power_add, ← power_add, Nat.add_comm]

def SameBlock (xs ys : List α) : Prop := ∃ w m n, xs = power w m ∧ ys = power w n

theorem SameBlock.symm {xs ys : List α} (h : SameBlock xs ys) : SameBlock ys xs := by
  obtain ⟨w, m, n, hx, hy⟩ := h
  exact ⟨w, n, m, hy, hx⟩

theorem SameBlock.extend {xs zs : List α} (h : SameBlock xs zs) : SameBlock xs (xs ++ zs) := by
  obtain ⟨w, m, n, rfl, rfl⟩ := h
  exact ⟨w, m, m + n, rfl, (power_add w m n).symm⟩

theorem sameBlock_nil (ys : List α) : SameBlock [] ys := ⟨ys, 0, 1, rfl, by simp⟩

theorem cut_prefix {xs ys : List α} (h : xs ++ ys = ys ++ xs) (hlen : xs.length ≤ ys.length) :
    ∃ zs, ys = xs ++ zs ∧ xs ++ zs = zs ++ xs := by
  have hp : xs <+: ys :=
    List.prefix_of_prefix_length_le ⟨ys, rfl⟩ (h ▸ List.prefix_append ys xs) hlen
  obtain ⟨zs, rfl⟩ := hp
  refine ⟨zs, rfl, ?_⟩
  rw [List.append_assoc] at h
  exact List.append_cancel_left h

theorem sameBlock_of_comm (n : ℕ) (xs ys : List α) (hn : xs.length + ys.length ≤ n)
    (h : xs ++ ys = ys ++ xs) : SameBlock xs ys := by
  induction n generalizing xs ys with
  | zero =>
    have hx : xs = [] := List.length_eq_zero_iff.mp (by omega)
    exact hx ▸ sameBlock_nil ys
  | succ n ih =>
    rcases xs with _ | ⟨x, xs⟩
    · exact sameBlock_nil ys
    rcases ys with _ | ⟨y, ys⟩
    · exact (sameBlock_nil _).symm
    rcases Nat.le_total (x :: xs).length (y :: ys).length with hlen | hlen
    · obtain ⟨zs, hz, hc⟩ := cut_prefix h hlen
      rw [hz] at hn ⊢
      refine (ih (x :: xs) zs ?_ hc).extend
      simp only [List.length_append, List.length_cons] at hn ⊢
      omega
    · obtain ⟨zs, hz, hc⟩ := cut_prefix h.symm hlen
      rw [hz] at hn ⊢
      refine (ih (y :: ys) zs ?_ hc).extend.symm
      simp only [List.length_append, List.length_cons] at hn ⊢
      omega

/-- Two words commute exactly when both are powers of a common word. -/
theorem append_comm_iff (xs ys : List α) : xs ++ ys = ys ++ xs ↔ SameBlock xs ys := by
  constructor
  · exact sameBlock_of_comm _ xs ys (Nat.le_refl _)
  · rintro ⟨w, m, n, rfl, rfl⟩
    exact power_comm w m n

theorem append_cons_inj_last {c : α} {a a' b b' : List α} (hb : c ∉ b) (hb' : c ∉ b')
    (h : a ++ c :: b = a' ++ c :: b') : a = a' ∧ b = b' := by
  obtain ⟨d, rfl, hd⟩ | ⟨d, rfl, hd⟩ := List.append_eq_append_iff.mp h
  · cases d with
    | nil => simpa using hd
    | cons x d =>
      obtain ⟨rfl, rfl⟩ : c = x ∧ b = d ++ c :: b' := by simpa using hd
      exact absurd (by simp) hb
  · cases d with
    | nil => simpa using hd.symm
    | cons x d =>
      obtain ⟨rfl, rfl⟩ : c = x ∧ b' = d ++ c :: b := by simpa using hd
      exact absurd (by simp) hb'

theorem dir_prefix {c : α} {a b m n : List α} (hm : c ∉ m) (hn : c ∉ n) :
    a ++ [c] <+: b ++ c :: (m ++ c :: n) ↔
      a = b ∨ a = b ++ c :: m ∨ ∃ x, b = a ++ c :: x := by
  constructor
  · intro h
    obtain ⟨t, ht⟩ := h
    rw [List.append_assoc, List.singleton_append] at ht
    obtain ⟨d, rfl, hd⟩ | ⟨d, rfl, hd⟩ := List.append_eq_append_iff.mp ht
    · cases d with
      | nil => exact .inl (List.append_nil a).symm
      | cons y d =>
        obtain ⟨rfl, -⟩ := List.cons.inj hd
        exact .inr (.inr ⟨d, rfl⟩)
    · cases d with
      | nil => exact .inl (List.append_nil b)
      | cons y d =>
        obtain ⟨rfl, hrest⟩ := List.cons.inj hd
        obtain ⟨rfl, -⟩ := (List.append_cons_inj_of_notMem hm hn).mp hrest
        exact .inr (.inl rfl)
  · intro h
    rcases h with rfl | rfl | ⟨x, rfl⟩
    · exact ⟨m ++ c :: n, by simp⟩
    · exact ⟨n, by simp⟩
    · exact ⟨x ++ c :: (m ++ c :: n), by simp⟩

theorem block_lt [LT α] {a a' b b' : List α} (hlen : a.length = a'.length)
    (h : a < a' ∨ a = a' ∧ b < b') :
    a ++ b < a' ++ b' := by
  rcases h with h | ⟨rfl, h⟩
  · induction a generalizing a' with
    | nil => exact absurd h (by simp [List.length_eq_zero_iff.mp hlen.symm])
    | cons x a ih =>
      cases a' with
      | nil => simp at hlen
      | cons x' a' =>
        rw [List.cons_append, List.cons_append, List.cons_lt_cons_iff]
        rcases List.cons_lt_cons_iff.mp h with hx | ⟨hx, hrest⟩
        · exact .inl hx
        · exact .inr ⟨hx, ih (Nat.succ.inj hlen) hrest⟩
  · exact List.append_left_lt h

end OpusFleet.Library.Words
