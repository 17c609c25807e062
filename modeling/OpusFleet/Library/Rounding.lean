import Mathlib.Algebra.Order.Field.Power
import Mathlib.Data.Int.Log
import Mathlib.Data.Rat.Floor
import Mathlib.Algebra.Order.Floor.Ring
import Mathlib.Tactic.Linarith
import Mathlib.Tactic.Positivity
import Mathlib.Tactic.FieldSimp
import Mathlib.Tactic.Ring

namespace OpusFleet.Library.Rounding

/-- The integer nearest to `x`, the even one of two that are equally near. -/
def halfEven (x : ℚ) : ℤ :=
  if Int.fract x < 1 / 2 then ⌊x⌋ else if 1 / 2 < Int.fract x then ⌊x⌋ + 1 else ⌊x⌋ + ⌊x⌋ % 2

section Integers

variable {x : ℚ} {n : ℤ}

theorem abs_sub_halfEven_le (x : ℚ) : |x - halfEven x| ≤ 1 / 2 := by
  have hsplit := Int.floor_add_fract x
  have hnonneg := Int.fract_nonneg x
  have hlt := Int.fract_lt_one x
  rw [halfEven, abs_sub_le_iff]
  split
  · exact ⟨by linarith, by linarith⟩
  · split
    · push_cast
      exact ⟨by linarith, by linarith⟩
    · have htie : Int.fract x = 1 / 2 := le_antisymm (not_lt.mp ‹_›) (not_lt.mp ‹_›)
      rcases Int.emod_two_eq_zero_or_one ⌊x⌋ with h | h <;> rw [h] <;> push_cast <;>
        exact ⟨by linarith, by linarith⟩

theorem halfEven_eq (h : |x - n| < 1 / 2) : halfEven x = n := by
  have hnear := abs_lt.mp ((abs_sub_le (halfEven x : ℚ) x n).trans_lt
    (add_lt_add_of_le_of_lt ((abs_sub_comm _ _).trans_le (abs_sub_halfEven_le x)) h))
  have hlow : -1 < halfEven x - n := by
    exact_mod_cast show (-1 : ℚ) < halfEven x - n by linarith
  have hhigh : halfEven x - n < 1 := by
    exact_mod_cast show (halfEven x : ℚ) - n < 1 by linarith
  omega

theorem halfEven_intCast (n : ℤ) : halfEven n = n := halfEven_eq (by simp)

theorem halfEven_le (h : x ≤ n) : halfEven x ≤ n := by
  have hnear := (abs_le.mp (abs_sub_halfEven_le x)).1
  have hlt : halfEven x < n + 1 := by
    exact_mod_cast show (halfEven x : ℚ) < n + 1 by linarith
  omega

theorem le_halfEven (h : n ≤ x) : n ≤ halfEven x := by
  have hnear := (abs_le.mp (abs_sub_halfEven_le x)).2
  have hlt : n - 1 < halfEven x := by
    exact_mod_cast show (n : ℚ) - 1 < halfEven x by linarith
  omega

theorem halfEven_mono {y : ℚ} (h : x ≤ y) : halfEven x ≤ halfEven y := by
  by_contra hnot
  -- the two would be a whole unit apart, each within a half of its number
  have hstep : (halfEven y : ℚ) + 1 ≤ halfEven x := by
    exact_mod_cast Int.add_one_le_iff.mpr (not_le.mp hnot)
  have hx := abs_le.mp (abs_sub_halfEven_le x)
  have hy := abs_le.mp (abs_sub_halfEven_le y)
  have heq : x = y := by linarith
  exact hnot (by rw [heq])

end Integers

/-- Binary numbers of at most `digits` digits, in units of at least `2 ^ least`. -/
structure Format where
  digits : ℕ
  least : ℤ
  pos : 0 < digits

namespace Format

variable (f : Format)

def Holds (q : ℚ) : Prop := ∃ (m : ℕ) (e : ℤ), m < 2 ^ f.digits ∧ f.least ≤ e ∧ q = m * 2 ^ e

/-- A number of the format by its digits and its unit, the unit as small as the digits let it be. -/
structure Canonical (m : ℕ) (e : ℤ) : Prop where
  digits : m < 2 ^ f.digits
  least : f.least ≤ e
  full : e = f.least ∨ 2 ^ (f.digits - 1) ≤ m

def exponent (x : ℚ) : ℤ := max (Int.log 2 x - (f.digits - 1)) f.least

/-- The number of the format nearest to `x`. -/
def nearest (x : ℚ) : ℚ := halfEven (x / 2 ^ f.exponent x) * 2 ^ f.exponent x

variable {f} {x y u : ℚ} {m : ℕ} {e : ℤ}

theorem exponent_eq (hx : 0 < x) (hleast : f.least ≤ e) (hlt : x < 2 ^ (e + f.digits))
    (hfull : e = f.least ∨ 2 ^ (e + f.digits - 1) ≤ x) : f.exponent x = e := by
  have hlog : Int.log 2 x < e + f.digits := by
    refine (Int.lt_zpow_iff_log_lt one_lt_two hx).mp ?_
    exact_mod_cast hlt
  rw [exponent]
  rcases hfull with rfl | hfull
  · omega
  · have hle : e + f.digits - 1 ≤ Int.log 2 x := by
      refine (Int.zpow_le_iff_le_log one_lt_two hx).mp ?_
      exact_mod_cast hfull
    omega

theorem exponent_bounds (hx : 0 < x) : f.least ≤ f.exponent x ∧ x < 2 ^ (f.exponent x + f.digits) ∧
    (f.exponent x = f.least ∨ 2 ^ (f.exponent x + f.digits - 1) ≤ x) := by
  have hlow : (2 : ℚ) ^ Int.log 2 x ≤ x := by exact_mod_cast Int.zpow_log_le_self one_lt_two hx
  have hhigh : x < (2 : ℚ) ^ (Int.log 2 x + 1) := by
    exact_mod_cast Int.lt_zpow_succ_log_self one_lt_two x
  rw [exponent]
  refine ⟨le_max_right _ _, hhigh.trans_le (zpow_le_zpow_right₀ one_le_two (by omega)), ?_⟩
  rcases le_total (Int.log 2 x - (f.digits - 1)) f.least with h | h
  · exact .inl (max_eq_right h)
  · rw [max_eq_left h]
    exact .inr ((zpow_le_zpow_right₀ one_le_two (by omega)).trans hlow)

theorem two_pow_digits (f : Format) : 2 ^ f.digits = 2 * 2 ^ (f.digits - 1) := by
  rw [← pow_succ', Nat.sub_add_cancel f.pos]

theorem zpow_full (f : Format) (e : ℤ) :
    (2 : ℚ) ^ (e + f.digits - 1) = (2 ^ (f.digits - 1) : ℕ) * 2 ^ e := by
  have hsplit : e + f.digits - 1 = ((f.digits - 1 : ℕ) : ℤ) + e := by
    have hpos := f.pos
    omega
  rw [hsplit, zpow_add₀ two_ne_zero, zpow_natCast]
  push_cast
  rfl

theorem Holds.canonical (h : f.Holds y) : ∃ m e, f.Canonical m e ∧ y = m * 2 ^ e := by
  obtain ⟨m, e, hm, he, rfl⟩ := h
  obtain ⟨n, rfl⟩ : ∃ n : ℕ, e = f.least + n := ⟨(e - f.least).toNat, by omega⟩
  induction n generalizing m with
  | zero => exact ⟨m, _, ⟨hm, he, .inl (by simp)⟩, rfl⟩
  | succ n ih =>
    by_cases hfull : 2 ^ (f.digits - 1) ≤ m
    · exact ⟨m, _, ⟨hm, he, .inr hfull⟩, rfl⟩
    · have hdouble : 2 * m < 2 ^ f.digits := by
        have hpow := two_pow_digits f
        omega
      obtain ⟨m', e', hc, hy⟩ := ih (2 * m) hdouble (by omega)
      refine ⟨m', e', hc, ?_⟩
      rw [← hy, Nat.cast_succ, ← add_assoc, zpow_add_one₀ two_ne_zero]
      push_cast
      ring

theorem nearest_nonneg (hx : 0 ≤ x) : 0 ≤ f.nearest x := by
  have hnonneg : 0 ≤ halfEven (x / 2 ^ f.exponent x) := le_halfEven (by push_cast; positivity)
  rw [nearest]
  have hcast : (0 : ℚ) ≤ halfEven (x / 2 ^ f.exponent x) := by exact_mod_cast hnonneg
  positivity

theorem nearest_zero (f : Format) : f.nearest 0 = 0 := by
  have hzero : halfEven 0 = 0 := by simpa using halfEven_intCast 0
  simp [nearest, hzero]

theorem halfEven_scaled_le (hx : 0 < x) : halfEven (x / 2 ^ f.exponent x) ≤ (2 ^ f.digits : ℕ) := by
  obtain ⟨-, hlt, -⟩ := exponent_bounds (f := f) hx
  refine halfEven_le ?_
  rw [div_le_iff₀ (by positivity)]
  rw [zpow_add₀ two_ne_zero, mul_comm, zpow_natCast] at hlt
  exact_mod_cast hlt.le

theorem nearest_holds (hx : 0 ≤ x) : f.Holds (f.nearest x) := by
  rcases hx.eq_or_lt with rfl | hpos
  · exact ⟨0, f.least, by positivity, le_rfl, by simp [nearest_zero]⟩
  · obtain ⟨hleast, -, -⟩ := exponent_bounds (f := f) hpos
    have hscaled := halfEven_scaled_le (f := f) hpos
    rw [nearest]
    generalize f.exponent x = e at hleast hscaled
    obtain ⟨m, hm⟩ : ∃ m : ℕ, halfEven (x / 2 ^ e) = m :=
      Int.eq_ofNat_of_zero_le (le_halfEven (by push_cast; positivity))
    have hle : m ≤ 2 ^ f.digits := by
      rw [hm] at hscaled
      exact_mod_cast hscaled
    rcases hle.lt_or_eq with hlt | rfl
    · exact ⟨m, e, hlt, hleast, by rw [hm]; rfl⟩
    · refine ⟨2 ^ (f.digits - 1), e + 1, Nat.pow_lt_pow_right one_lt_two (Nat.sub_lt f.pos one_pos),
        by omega, ?_⟩
      rw [hm, zpow_add_one₀ two_ne_zero, two_pow_digits]
      push_cast
      ring

theorem nearest_of_exponent {n : ℤ} (he : f.exponent x = e) (h : |x - n * 2 ^ e| < 1 / 2 * 2 ^ e) :
    f.nearest x = n * 2 ^ e := by
  have hunit : (0 : ℚ) < 2 ^ e := by positivity
  have hn : |x / 2 ^ e - n| < 1 / 2 := by
    rw [← div_lt_iff₀ hunit, ← abs_of_pos hunit, ← abs_div, sub_div, abs_of_pos hunit,
      mul_div_cancel_right₀ _ hunit.ne'] at h
    exact h
  rw [nearest, he, halfEven_eq hn]

/-- Whatever is nearer to a number of the format than half its unit rounds to it, if below a
power of two it is twice as near. -/
theorem nearest_eq (h : f.Canonical m e) (hpos : 0 < x) (hnear : |x - m * 2 ^ e| < 1 / 2 * 2 ^ e)
    (hbelow : m = 2 ^ (f.digits - 1) → |x - m * 2 ^ e| < 1 / 4 * 2 ^ e) :
    f.nearest x = m * 2 ^ e := by
  have hunit : (0 : ℚ) < 2 ^ e := by positivity
  have hsides := abs_lt.mp hnear
  have hupper : x < 2 ^ (e + f.digits) := by
    have hsucc : ((m : ℚ) + 1) * 2 ^ e ≤ 2 ^ (e + f.digits) := by
      have hle : (m : ℚ) + 1 ≤ 2 ^ f.digits := by exact_mod_cast h.digits
      rw [zpow_add₀ two_ne_zero, mul_comm, zpow_natCast]
      exact mul_le_mul_of_nonneg_left hle hunit.le
    linarith
  by_cases hin : e = f.least ∨ 2 ^ (e + f.digits - 1) ≤ x
  · exact nearest_of_exponent (n := m) (exponent_eq hpos h.least hupper hin) hnear
  · -- `x` lies below the power of two that the number must then be
    obtain ⟨he, hlt⟩ := not_or.mp hin
    rw [not_le, zpow_full] at hlt
    have hm : m = 2 ^ (f.digits - 1) := by
      refine le_antisymm ?_ (h.full.resolve_left he)
      have hsucc : (m : ℚ) * 2 ^ e < ((2 ^ (f.digits - 1) : ℕ) + 1) * 2 ^ e := by linarith
      have hnat : m < 2 ^ (f.digits - 1) + 1 := by
        exact_mod_cast lt_of_mul_lt_mul_right hsucc hunit.le
      omega
    have hquarter := hbelow hm
    have hhalf : (2 : ℚ) ^ e = 2 * 2 ^ (e - 1) := by
      rw [zpow_sub_one₀ two_ne_zero]
      ring
    have hunit' : (0 : ℚ) < 2 ^ (e - 1) := by positivity
    have htwice : (m : ℚ) * 2 ^ e = (2 ^ f.digits : ℕ) * 2 ^ (e - 1) := by
      rw [hm, hhalf, two_pow_digits]
      push_cast
      ring
    have hexp : f.exponent x = e - 1 := by
      have hleast : f.least ≤ e - 1 := by
        have hle := h.least
        omega
      refine exponent_eq hpos hleast ?_ (.inr ?_)
      · rw [show e - 1 + f.digits = e + f.digits - 1 by omega, zpow_full]
        exact hlt
      · have hone : (1 : ℚ) ≤ (2 ^ (f.digits - 1) : ℕ) := by exact_mod_cast Nat.one_le_two_pow
        rw [zpow_full]
        rw [hm, hhalf] at hquarter
        have hlow := (abs_lt.mp hquarter).1
        nlinarith
    rw [htwice]
    refine nearest_of_exponent (n := (2 ^ f.digits : ℕ)) hexp ?_
    rw [Int.cast_natCast, ← htwice]
    linarith

theorem zpow_le_nearest {k : ℤ} (hk : f.least ≤ k) (h : 2 ^ k ≤ x) : 2 ^ k ≤ f.nearest x := by
  obtain ⟨-, -, hfull⟩ := exponent_bounds (f := f) (lt_of_lt_of_le (by positivity) h)
  rw [nearest]
  generalize f.exponent x = e at hfull ⊢
  have hunit : (0 : ℚ) < 2 ^ e := by positivity
  have hscaled {n : ℕ} (hn : (n : ℚ) * 2 ^ e ≤ x) : (n : ℚ) * 2 ^ e ≤
      halfEven (x / 2 ^ e) * 2 ^ e := by
    have hle : (n : ℤ) ≤ halfEven (x / 2 ^ e) := le_halfEven (by
      rw [le_div_iff₀ hunit]
      exact_mod_cast hn)
    exact mul_le_mul_of_nonneg_right (by exact_mod_cast hle) hunit.le
  by_cases hle : e ≤ k
  · obtain ⟨n, rfl⟩ : ∃ n : ℕ, k = n + e := ⟨(k - e).toNat, by omega⟩
    rw [zpow_add₀ two_ne_zero, zpow_natCast] at h ⊢
    exact_mod_cast hscaled (n := 2 ^ n) (by exact_mod_cast h)
  · have hpos := f.pos
    calc (2 : ℚ) ^ k ≤ 2 ^ (e + f.digits - 1) := zpow_le_zpow_right₀ one_le_two (by omega)
      _ = (2 ^ (f.digits - 1) : ℕ) * 2 ^ e := zpow_full f e
      _ ≤ halfEven (x / 2 ^ e) * 2 ^ e := by
        refine hscaled ?_
        rw [← zpow_full]
        exact hfull.resolve_left (by omega)

theorem exponent_mono (hx : 0 < x) (h : x ≤ y) : f.exponent x ≤ f.exponent y := by
  have hlog := Int.log_mono_right (b := 2) hx h
  rw [exponent, exponent]
  omega

theorem nearest_mono (hx : 0 ≤ x) (h : x ≤ y) : f.nearest x ≤ f.nearest y := by
  rcases hx.eq_or_lt with rfl | hpos
  · rw [nearest_zero]
    exact nearest_nonneg h
  rcases (exponent_mono (f := f) hpos h).eq_or_lt with he | he
  · have hunit : (0 : ℚ) < 2 ^ f.exponent y := by positivity
    have hscaled : x / 2 ^ f.exponent y ≤ y / 2 ^ f.exponent y :=
      div_le_div_of_nonneg_right h hunit.le
    rw [nearest, nearest, he]
    exact mul_le_mul_of_nonneg_right (by exact_mod_cast halfEven_mono hscaled) hunit.le
  · -- the power of two at which the larger unit begins lies between them
    obtain ⟨hleast, -, hfull⟩ := exponent_bounds (f := f) (hpos.trans_le h)
    obtain ⟨hlow, -, -⟩ := exponent_bounds (f := f) hpos
    have hpow : (2 : ℚ) ^ (f.exponent x + f.digits) ≤ y := by
      refine le_trans (zpow_le_zpow_right₀ one_le_two ?_) (hfull.resolve_left (by omega))
      omega
    have hdigits : (halfEven (x / 2 ^ f.exponent x) : ℚ) ≤ 2 ^ f.digits := by
      exact_mod_cast halfEven_scaled_le (f := f) hpos
    calc f.nearest x ≤ 2 ^ f.digits * 2 ^ f.exponent x :=
      mul_le_mul_of_nonneg_right hdigits (by positivity)
      _ = 2 ^ (f.exponent x + f.digits) := by rw [add_comm, zpow_add₀ two_ne_zero, zpow_natCast]
      _ ≤ f.nearest y := zpow_le_nearest (by omega) hpow

theorem nearest_self (h : f.Holds y) (hy : 0 ≤ y) : f.nearest y = y := by
  rcases hy.eq_or_lt with rfl | hpos
  · exact nearest_zero f
  · obtain ⟨m, e, hc, rfl⟩ := h.canonical
    have hunit : (0 : ℚ) < 2 ^ e := by positivity
    exact nearest_eq hc hpos (by simpa using hunit) (by simpa using fun _ ↦ hunit)

theorem nearest_tiny (hx : 0 ≤ x) (h : x < 1 / 2 * 2 ^ f.least) : f.nearest x = 0 := by
  rcases hx.eq_or_lt with rfl | hpos
  · exact nearest_zero f
  · have hexp : f.exponent x = f.least := by
      have hdigits : (1 : ℚ) ≤ 2 ^ f.digits := one_le_pow₀ one_le_two
      have hunit : (0 : ℚ) < 2 ^ f.least := by positivity
      refine exponent_eq hpos le_rfl ?_ (.inl rfl)
      rw [zpow_add₀ two_ne_zero, zpow_natCast]
      nlinarith
    have hnear : |x - (0 : ℤ) * 2 ^ f.least| < 1 / 2 * 2 ^ f.least := by
      simpa [abs_of_pos hpos] using h
    simpa using nearest_of_exponent hexp hnear

theorem nearest_of_near {b : ℕ} (h : f.Holds y) (hx : 0 < x) (hu : 0 < u) (hb : 2 ^ f.digits < b)
    (hy : u * b ≤ y) (hnear : |x - y| ≤ 1 / 2 * u) : f.nearest x = y := by
  obtain ⟨m, e, hc, rfl⟩ := h.canonical
  have hunit : (0 : ℚ) < 2 ^ e := by positivity
  have hpow : (0 : ℚ) < (2 ^ f.digits : ℕ) := by positivity
  have hscaled : u * (2 ^ f.digits : ℕ) < m * 2 ^ e := by
    have hb' : ((2 ^ f.digits : ℕ) : ℚ) < b := by exact_mod_cast hb
    exact (mul_lt_mul_of_pos_left hb' hu).trans_le hy
  have hsmall {d : ℚ} (hd : (m : ℚ) * 2 ^ e ≤ d * 2 ^ e * (2 ^ f.digits : ℕ)) : u < d * 2 ^ e :=
    lt_of_mul_lt_mul_right (hscaled.trans_le hd) hpow.le
  refine nearest_eq hc hx (hnear.trans_lt ?_) fun hm ↦ hnear.trans_lt ?_
  · have hone : u < 1 * 2 ^ e := by
      refine hsmall ?_
      have hlt : (m : ℚ) ≤ (2 ^ f.digits : ℕ) := by exact_mod_cast hc.digits.le
      nlinarith
    linarith
  · have hhalf : u < 1 / 2 * 2 ^ e := by
      refine hsmall (le_of_eq ?_)
      rw [hm, two_pow_digits]
      push_cast
      ring
    linarith

end Format

end OpusFleet.Library.Rounding
