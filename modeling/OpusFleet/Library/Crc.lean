import Mathlib.Algebra.CharP.Two
import Mathlib.Algebra.Field.ZMod
import Mathlib.Algebra.Polynomial.Div
import Mathlib.Tactic.LinearCombination

namespace OpusFleet.Library.Crc

variable {n : ℕ} (g : BitVec n)

section Register

def shift (r : BitVec n) : BitVec n := (r <<< 1) ^^^ (if r.msb then g else 0)

def feed (r : BitVec n) (b : Bool) : BitVec n := (r <<< 1) ^^^ (if r.msb ^^ b then g else 0)

/-- The remainder bit by bit, most significant first, from an empty register. -/
def bitwise (bits : List Bool) : BitVec n := bits.foldl (feed g) 0

theorem shift_xor (a b : BitVec n) : shift g (a ^^^ b) = shift g a ^^^ shift g b := by
  have hg : (if a.msb ^^ b.msb then g else 0) =
      (if a.msb then g else 0) ^^^ (if b.msb then g else 0) := by
    cases a.msb <;> cases b.msb <;> simp
  simp only [shift, BitVec.msb_xor, BitVec.shiftLeft_xor_distrib, hg]
  ac_rfl

theorem shift_iterate_xor (k : ℕ) (a b : BitVec n) :
    (shift g)^[k] (a ^^^ b) = (shift g)^[k] a ^^^ (shift g)^[k] b := by
  induction k generalizing a b with
  | zero => rfl
  | succ k ih => rw [Function.iterate_succ_apply, shift_xor, ih]; rfl

theorem shift_xor_eq_feed (r v : BitVec n) : shift g (r ^^^ v) = feed g r v.msb ^^^ (v <<< 1) := by
  simp only [shift, feed, BitVec.msb_xor, BitVec.shiftLeft_xor_distrib]
  ac_rfl

theorem foldl_feed (r v : BitVec n) (k : ℕ) :
    (shift g)^[k] (r ^^^ v) = ((List.range k).map v.getMsbD).foldl (feed g) r ^^^ (v <<< k) := by
  induction k with
  | zero => simp
  | succ k ih =>
    have hmsb : (v <<< k).msb = v.getMsbD k := by simp [BitVec.msb]
    rw [Function.iterate_succ_apply', ih, shift_xor_eq_feed, hmsb, List.range_succ, List.map_append,
      List.foldl_append, BitVec.shiftLeft_add]
    rfl

theorem shift_iterate_of_clear (v : BitVec n) (k : ℕ) (hv : ∀ i < k, v.getMsbD i = false) :
    (shift g)^[k] v = v <<< k := by
  induction k with
  | zero => simp
  | succ k ih =>
    have hmsb : (v <<< k).msb = false := by simpa [BitVec.msb] using hv k (by omega)
    rw [Function.iterate_succ_apply', ih fun i hi ↦ hv i (by omega), shift, hmsb,
      BitVec.shiftLeft_add]
    simp

theorem feed_table {k : ℕ} (hk : k ≤ n) (r : BitVec n) (w : BitVec k) :
    ((List.range k).map w.getMsbD).foldl (feed g) r =
      (r <<< k) ^^^ (shift g)^[k] (((r >>> (n - k)) ^^^ w.setWidth n) <<< (n - k)) := by
  have hword : (List.range k).map w.getMsbD =
      (List.range k).map (w.setWidth n <<< (n - k)).getMsbD := by
    refine List.map_congr_left fun i hi ↦ ?_
    have hi := List.mem_range.mp hi
    have hindex : i + (n - k) + k - n = i := by omega
    simp [BitVec.getMsbD_setWidth, hindex]
  have hgone : w.setWidth n <<< (n - k) <<< k = 0#n := by
    rw [← BitVec.shiftLeft_add, Nat.sub_add_cancel hk]
    simp
  have hlow : ∀ i < k, (r ^^^ (r >>> (n - k) <<< (n - k))).getMsbD i = false := by
    intro i hi
    have hin : i + (n - k) < n := by omega
    simp [hin]
  have hrest : (r ^^^ (r >>> (n - k) <<< (n - k))) <<< k = r <<< k := by
    rw [BitVec.shiftLeft_xor_distrib, ← BitVec.shiftLeft_add, Nat.sub_add_cancel hk]
    simp
  have hfeed := foldl_feed g r (w.setWidth n <<< (n - k)) k
  rw [hgone, BitVec.xor_zero, ← hword] at hfeed
  have hsplit : r ^^^ (w.setWidth n <<< (n - k)) =
      (r ^^^ (r >>> (n - k) <<< (n - k))) ^^^ (((r >>> (n - k)) ^^^ w.setWidth n) <<< (n - k)) := by
    rw [BitVec.shiftLeft_xor_distrib, BitVec.xor_assoc,
      ← BitVec.xor_assoc (r >>> (n - k) <<< (n - k)), BitVec.xor_self, BitVec.zero_xor]
  rw [← hfeed, hsplit, shift_iterate_xor, shift_iterate_of_clear g _ k hlow, hrest]

end Register

section Remainder

open Polynomial

noncomputable def poly (r : BitVec n) : (ZMod 2)[X] :=
  ∑ i ∈ Finset.range n, C ((r.getLsbD i).toNat : ZMod 2) * X ^ i

/-- The monic polynomial of degree `n` whose lower coefficients are the bits of `g`. -/
noncomputable def generator : (ZMod 2)[X] := X ^ n + poly g

/-- The polynomial of a message, its first bit the highest coefficient. -/
noncomputable def message (bits : List Bool) : (ZMod 2)[X] :=
  bits.foldl (fun p b ↦ p * X + C (b.toNat : ZMod 2)) 0

theorem poly_coeff (r : BitVec n) (k : ℕ) : (poly r).coeff k = ((r.getLsbD k).toNat : ZMod 2) := by
  simp only [poly, finsetSum_coeff, coeff_C_mul_X_pow]
  rw [Finset.sum_ite_eq]
  split
  · rfl
  · next h => rw [BitVec.getLsbD_of_ge _ _ (by simpa using h)]; rfl

theorem poly_degree_lt (r : BitVec n) : (poly r).degree < n := by
  rw [degree_lt_iff_coeff_zero]
  intro k hk
  rw [poly_coeff, BitVec.getLsbD_of_ge _ _ hk]
  rfl

theorem generator_monic : (generator g).Monic := monic_X_pow_add (poly_degree_lt g)

theorem generator_degree : (generator g).degree = n := by
  rw [generator, degree_add_eq_left_of_degree_lt, degree_X_pow]
  rw [degree_X_pow]
  exact poly_degree_lt g

theorem poly_xor (a b : BitVec n) : poly (a ^^^ b) = poly a + poly b := by
  ext k
  rw [coeff_add, poly_coeff, poly_coeff, poly_coeff, BitVec.getLsbD_xor]
  cases a.getLsbD k <;> cases b.getLsbD k <;> decide

@[simp] theorem poly_zero : poly 0#n = 0 := by
  ext k
  rw [poly_coeff, coeff_zero, BitVec.getLsbD_zero]
  rfl

theorem poly_shiftLeft (r : BitVec n) :
    poly (r <<< 1) + C (r.msb.toNat : ZMod 2) * X ^ n = poly r * X := by
  ext k
  rw [coeff_add, poly_coeff, coeff_C_mul_X_pow, BitVec.getLsbD_shiftLeft]
  cases k with
  | zero =>
    have htop : (if 0 = n then (r.msb.toNat : ZMod 2) else 0) = 0 := by
      split
      · next h => subst h; rw [BitVec.msb_zero_length]; rfl
      · rfl
    rw [coeff_mul_X_zero, htop]
    simp
  | succ k =>
    rw [coeff_mul_X, poly_coeff]
    rcases Nat.lt_trichotomy (k + 1) n with hlt | heq | hgt
    · simp [hlt, hlt.ne]
    · subst heq
      simp [BitVec.msb_eq_getLsbD_last]
    · simp [hgt.ne', hgt.not_gt, BitVec.getLsbD_of_ge r k (by omega)]

theorem poly_feed (r : BitVec n) (b : Bool) :
    poly (feed g r b) + generator g * C ((r.msb ^^ b).toNat : ZMod 2) =
      poly r * X + C (b.toNat : ZMod 2) * X ^ n := by
  have hxor : C ((r.msb ^^ b).toNat : ZMod 2) =
      C (r.msb.toNat : ZMod 2) + C (b.toNat : ZMod 2) := by
    rw [← C_add]
    cases r.msb <;> cases b <;> rfl
  have hback : poly (if r.msb ^^ b then g else 0) = poly g * C ((r.msb ^^ b).toNat : ZMod 2) := by
    cases r.msb ^^ b <;> simp
  have htwice := CharTwo.add_self_eq_zero (poly g * C ((r.msb ^^ b).toNat : ZMod 2))
  have hshift := poly_shiftLeft r
  rw [feed, poly_xor, hback, generator]
  linear_combination htwice + hshift + X ^ n * hxor

/-- What the register holds is the remainder of the message moved up by its width. -/
theorem poly_bitwise (bits : List Bool) :
    poly (bitwise g bits) = (message bits * X ^ n) %ₘ generator g := by
  obtain ⟨q, hq⟩ : ∃ q, poly (bitwise g bits) + generator g * q = message bits * X ^ n := by
    induction bits using List.reverseRecOn with
    | nil => exact ⟨0, by simp [bitwise, message, poly]⟩
    | append_singleton bits b ih =>
      obtain ⟨q, hq⟩ := ih
      refine ⟨q * X + C (((bitwise g bits).msb ^^ b).toNat : ZMod 2), ?_⟩
      have hstep := poly_feed g (bitwise g bits) b
      have hfeed : bitwise g (bits ++ [b]) = feed g (bitwise g bits) b := by simp [bitwise]
      have hmessage : message (bits ++ [b]) = message bits * X + C (b.toNat : ZMod 2) := by
        simp [message]
      rw [hfeed, hmessage]
      linear_combination hstep + X * hq
  have hdegree : (poly (bitwise g bits)).degree < (generator g).degree := by
    rw [generator_degree]
    exact poly_degree_lt _
  exact ((div_modByMonic_unique q _ (generator_monic g) ⟨hq, hdegree⟩).2).symm

end Remainder

end OpusFleet.Library.Crc
