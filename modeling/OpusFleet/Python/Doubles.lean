import OpusFleet.Library.Rounding
import OpusFleet.Python.Dumps

namespace OpusFleet.Python

open Library Rounding

def binary64 : Format := ⟨53, -1074, by decide⟩

namespace Json

section Ratios

variable {num den : ℕ}

theorem roundHalfEven_eq (num : ℕ) (hden : 0 < den) :
    (roundHalfEven num den : ℤ) = halfEven (num / den) := by
  have hden' : (0 : ℚ) < den := by exact_mod_cast hden
  have hfloor : ⌊(num : ℚ) / den⌋ = (num / den : ℕ) := by
    rw [Rat.floor_natCast_div_natCast]
    rfl
  have hsplit : (num : ℚ) = den * (num / den : ℕ) + (num % den : ℕ) := by
    exact_mod_cast (Nat.div_add_mod num den).symm
  have hfract : Int.fract ((num : ℚ) / den) = (num % den : ℕ) / den := by
    rw [Int.fract, hfloor, Int.cast_natCast, sub_eq_iff_eq_add, div_add' _ _ _ hden'.ne']
    congr 1
    linarith
  have hlow : ((num % den : ℕ) : ℚ) / den < 1 / 2 ↔ 2 * (num % den) < den := by
    rw [div_lt_div_iff₀ hden' two_pos, one_mul, mul_comm]
    exact_mod_cast Iff.rfl
  have hhigh : 1 / 2 < ((num % den : ℕ) : ℚ) / den ↔ den < 2 * (num % den) := by
    rw [div_lt_div_iff₀ two_pos hden', one_mul, mul_comm]
    exact_mod_cast Iff.rfl
  simp only [halfEven, roundHalfEven, hfloor, hfract, hlow, hhigh]
  split_ifs <;> push_cast <;> rfl

theorem log2_bounds {n : ℕ} (hn : 0 < n) :
    (2 : ℚ) ^ Nat.log2 n ≤ n ∧ (n : ℚ) < 2 ^ (Nat.log2 n + 1) :=
  ⟨by exact_mod_cast Nat.log2_self_le hn.ne', by exact_mod_cast Nat.lt_log2_self⟩

theorem scaled_div (num den : ℕ) {b : ℕ} (hb : 0 < b) (e : ℤ) :
    ((num * b ^ (-e).toNat : ℕ) : ℚ) / (den * b ^ e.toNat : ℕ) = num / den / b ^ e := by
  have hb' : (b : ℚ) ≠ 0 := by exact_mod_cast hb.ne'
  rcases le_total 0 e with h | h
  · obtain ⟨n, rfl⟩ := Int.eq_ofNat_of_zero_le h
    have hzero : (-(n : ℤ)).toNat = 0 := by omega
    rw [hzero, Int.toNat_natCast, zpow_natCast, div_div]
    push_cast
    simp
  · obtain ⟨n, hn⟩ := Int.eq_ofNat_of_zero_le (neg_nonneg.mpr h)
    have hzero : e.toNat = 0 := by omega
    rw [hzero, hn, Int.toNat_natCast, ← neg_neg e, hn, zpow_neg, zpow_natCast, div_inv_eq_mul]
    push_cast
    rw [pow_zero, mul_one, div_mul_eq_mul_div]

theorem below_iff (hden : 0 < den) (l : ℤ) :
    (if 0 ≤ l then num < den * 2 ^ l.toNat else num * 2 ^ (-l).toNat < den) ↔
    (num : ℚ) / den < 2 ^ l := by
  have hden' : (0 : ℚ) < den := by exact_mod_cast hden
  have hscale : (num : ℚ) / den < 2 ^ l ↔
      ((num * 2 ^ (-l).toNat : ℕ) : ℚ) / (den * 2 ^ l.toNat : ℕ) < 1 := by
    rw [scaled_div num den two_pos, Nat.cast_ofNat, div_lt_one (by positivity)]
  rw [hscale, div_lt_one (by positivity), Nat.cast_lt]
  split
  · have hzero : (-l).toNat = 0 := by omega
    rw [hzero, pow_zero, mul_one]
  · have hzero : l.toNat = 0 := by omega
    rw [hzero, pow_zero, mul_one]

theorem log_div (hnum : 0 < num) (hden : 0 < den) :
    Int.log 2 ((num : ℚ) / den) =
      if (num : ℚ) / den < 2 ^ ((Nat.log2 num : ℤ) - Nat.log2 den) then
        (Nat.log2 num : ℤ) - Nat.log2 den - 1
      else (Nat.log2 num : ℤ) - Nat.log2 den := by
  have hnum' : (0 : ℚ) < num := by exact_mod_cast hnum
  have hden' : (0 : ℚ) < den := by exact_mod_cast hden
  have hpos : 0 < (num : ℚ) / den := by positivity
  obtain ⟨hnumlow, hnumhigh⟩ := log2_bounds hnum
  obtain ⟨hdenlow, hdenhigh⟩ := log2_bounds hden
  have hlow : Nat.log2 num - Nat.log2 den - 1 ≤ Int.log 2 ((num : ℚ) / den) := by
    refine (Int.zpow_le_iff_le_log one_lt_two hpos).mp ?_
    rw [show (Nat.log2 num : ℤ) - Nat.log2 den - 1 = Nat.log2 num - (Nat.log2 den + 1 : ℕ) by omega,
      Nat.cast_ofNat, zpow_sub₀ two_ne_zero, zpow_natCast, zpow_natCast]
    exact div_le_div₀ hnum'.le hnumlow hden' hdenhigh.le
  have hhigh : Int.log 2 ((num : ℚ) / den) < Nat.log2 num - Nat.log2 den + 1 := by
    refine (Int.lt_zpow_iff_log_lt one_lt_two hpos).mp ?_
    rw [show (Nat.log2 num : ℤ) - Nat.log2 den + 1 = (Nat.log2 num + 1 : ℕ) - Nat.log2 den by omega,
      Nat.cast_ofNat, zpow_sub₀ two_ne_zero, zpow_natCast, zpow_natCast]
    exact div_lt_div₀ hnumhigh hdenlow (by positivity) (by positivity)
  have hcut := Int.lt_zpow_iff_log_lt one_lt_two hpos (x := (Nat.log2 num : ℤ) - Nat.log2 den)
  rw [Nat.cast_ofNat] at hcut
  split
  · next h =>
    have hlt := hcut.mp h
    omega
  · next h =>
    have hge := mt hcut.mpr h
    omega

theorem roundHalfEven_zero (den : ℕ) : roundHalfEven 0 den = 0 := by
  rw [roundHalfEven]
  split_ifs <;> simp_all

theorem digits_eq (num : ℕ) (hden : 0 < den) (e : ℤ) :
    ((if 0 ≤ e then roundHalfEven num (den * 2 ^ e.toNat)
      else roundHalfEven (num * 2 ^ (-e).toNat) den : ℕ) : ℤ) =
      halfEven ((num : ℚ) / den / 2 ^ e) := by
  rw [← Nat.cast_ofNat (R := ℚ), ← scaled_div num den two_pos, ← roundHalfEven_eq _ (by positivity)]
  split
  · have hzero : (-e).toNat = 0 := by omega
    rw [hzero, pow_zero, mul_one]
  · have hzero : e.toNat = 0 := by omega
    rw [hzero, pow_zero, mul_one]

theorem unscaled (m : ℕ) (e : ℤ) :
    (if 0 ≤ e then (m : ℚ) * 2 ^ e.toNat else mkRat m (2 ^ (-e).toNat)) = m * 2 ^ e := by
  split
  · next h =>
    obtain ⟨n, rfl⟩ := Int.eq_ofNat_of_zero_le h
    rw [Int.toNat_natCast, zpow_natCast]
  · next h =>
    obtain ⟨n, rfl⟩ : ∃ n : ℕ, e = -n := ⟨(-e).toNat, by omega⟩
    rw [neg_neg, Int.toNat_natCast, zpow_neg, zpow_natCast, Rat.mkRat_eq_div, ← div_eq_mul_inv]
    push_cast
    rfl

/-- The code's rounding is that of the format, but for the numbers past its largest. -/
theorem nearestDouble_eq (num : ℕ) (hden : 0 < den) :
    nearestDouble num den =
      if 2 ^ 1024 ≤ binary64.nearest (num / den) then none
      else some (binary64.nearest (num / den)) := by
  have hdigits : (binary64.digits : ℤ) = 53 := rfl
  have hleast : binary64.least = -1074 := rfl
  unfold nearestDouble
  extract_lets l below e m
  rcases Nat.eq_zero_or_pos num with rfl | hnum
  · have hm : m = 0 := by
      simp only [m, Nat.zero_mul, roundHalfEven_zero, ite_self]
    have hfinite : ¬(0 ≤ e ∧ 2 ^ 1024 ≤ 0 * 2 ^ e.toNat) := by
      rw [Nat.zero_mul]
      exact fun h ↦ absurd h.2 (not_le.mpr (by positivity))
    rw [hm, if_neg hfinite, unscaled, Nat.cast_zero, zero_mul, zero_div, Format.nearest_zero,
      if_neg (not_le.mpr (by positivity))]
  · have hpos : (0 : ℚ) < num / den := by
      have hnum' : (0 : ℚ) < num := by exact_mod_cast hnum
      have hden' : (0 : ℚ) < den := by exact_mod_cast hden
      positivity
    have he : e = binary64.exponent (num / den) := by
      have hbelow : below = true ↔ (num : ℚ) / den < 2 ^ l := by
        rw [← below_iff hden l]
        simp only [below]
        split <;> simp
      simp only [e, Format.exponent, hdigits, hleast, log_div hnum hden, hbelow, l]
      congr 1
      split <;> omega
    have hm : (m : ℤ) = halfEven ((num : ℚ) / den / 2 ^ e) := digits_eq num hden e
    have hnearest : binary64.nearest (num / den) = m * 2 ^ e := by
      rw [Format.nearest, ← he, ← hm]
      rfl
    have hover : (0 ≤ e ∧ 2 ^ 1024 ≤ m * 2 ^ e.toNat) ↔ (2 : ℚ) ^ 1024 ≤ m * 2 ^ e := by
      rcases le_or_gt 0 e with h | h
      · rw [and_iff_right h]
        obtain ⟨n, hn⟩ := Int.eq_ofNat_of_zero_le h
        rw [hn, Int.toNat_natCast, zpow_natCast]
        exact_mod_cast Iff.rfl
      · have hle : m ≤ 2 ^ 53 := by
          have hscaled := Format.halfEven_scaled_le (f := binary64) hpos
          rw [← he, ← hm] at hscaled
          exact_mod_cast hscaled
        have hsmall : (m : ℚ) * 2 ^ e < 2 ^ 1024 := by
          have hm' : (m : ℚ) ≤ 2 ^ 53 := by exact_mod_cast hle
          have hone : (2 : ℚ) ^ e ≤ 1 := zpow_le_one_of_nonpos₀ one_le_two h.le
          have hexponent : 53 < 1024 := by decide
          calc (m : ℚ) * 2 ^ e ≤ 2 ^ 53 * 1 := mul_le_mul hm' hone (by positivity) (by positivity)
            _ = 2 ^ 53 := mul_one _
            _ < 2 ^ 1024 := pow_lt_pow_right₀ one_lt_two hexponent
        exact iff_of_false (fun hboth ↦ h.not_ge hboth.1) (not_le.mpr hsmall)
    rw [hnearest, unscaled]
    simp only [hover]

end Ratios

end Json

namespace PyFloat

def signed (negative : Bool) (x : ℚ) : PyFloat :=
  if 2 ^ 1024 ≤ binary64.nearest x then .inf negative
  else if binary64.nearest x = 0 ∧ negative then .negZero
  else .finite (if negative then -binary64.nearest x else binary64.nearest x)

theorem signed_zero {x : ℚ} (h : binary64.nearest x = 0) (negative : Bool) :
    signed negative x = if negative then .negZero else .finite 0 := by
  rw [signed, h, if_neg (not_le.mpr (by positivity))]
  cases negative <;> rfl

end PyFloat

namespace Json

section Decimals

variable {m : ℕ} {e : ℤ}

theorem size_bounds (hm : m ≠ 0) (e : ℤ) :
    (10 : ℚ) ^ ((Nat.digits 10 m).length + e - 1) ≤ m * 10 ^ e ∧
      (m : ℚ) * 10 ^ e < 10 ^ ((Nat.digits 10 m).length + e) := by
  have hlen := Nat.length_digits 10 m (by decide) hm
  have hlow : (10 : ℚ) ^ Nat.log 10 m ≤ m := by exact_mod_cast Nat.pow_log_le_self 10 hm
  have hhigh : (m : ℚ) < 10 ^ (Nat.log 10 m + 1) := by
    exact_mod_cast Nat.lt_pow_succ_log_self (by decide) m
  rw [hlen]
  constructor
  · rw [show ((Nat.log 10 m + 1 : ℕ) : ℤ) + e - 1 = (Nat.log 10 m : ℤ) + e by omega,
      zpow_add₀ (by norm_num), zpow_natCast]
    exact mul_le_mul_of_nonneg_right hlow (by positivity)
  · rw [zpow_add₀ (by norm_num), zpow_natCast]
    exact mul_lt_mul_of_pos_right hhigh (by positivity)

theorem lt_underflow {x : ℚ} {size : ℤ} (hx : x < 10 ^ size) (h : size < -400) :
    x < 1 / 2 * 2 ^ binary64.least := by
  have hpow : (2 : ℚ) ^ 1075 < 10 ^ 400 := by
    have hnat : 2 ^ 1075 < 10 ^ 400 := by decide +kernel
    exact_mod_cast hnat
  have hleast : binary64.least = -1074 := rfl
  calc x < 10 ^ size := hx
    _ ≤ 10 ^ (-400 : ℤ) := zpow_le_zpow_right₀ (by norm_num) h.le
    _ < 2 ^ (-1075 : ℤ) := by
      rw [zpow_neg, zpow_neg]
      exact inv_strictAnti₀ (by positivity) (by exact_mod_cast hpow)
    _ = 1 / 2 * 2 ^ binary64.least := by
      rw [hleast, show (-1075 : ℤ) = -1 + -1074 by decide, zpow_add₀ two_ne_zero,
        zpow_neg_one, one_div]

theorem overflow_le {x : ℚ} {size : ℤ} (hx : 10 ^ (size - 1) ≤ x) (h : 400 < size) :
    2 ^ 1024 ≤ x := by
  have hpow : (2 : ℚ) ^ 1024 ≤ 10 ^ 400 := by
    have hnat : 2 ^ 1024 ≤ 10 ^ 400 := by decide +kernel
    exact_mod_cast hnat
  calc (2 : ℚ) ^ 1024 ≤ 10 ^ (400 : ℤ) := by exact_mod_cast hpow
    _ ≤ 10 ^ (size - 1) := zpow_le_zpow_right₀ (by norm_num) (by omega)
    _ ≤ x := hx

/-- `float(text)` is the double nearest to the decimal, the two shortcuts included. -/
theorem toFloat_eq (negative : Bool) (m : ℕ) (e : ℤ) :
    toFloat negative m e = .signed negative (m * 10 ^ e) := by
  unfold toFloat
  extract_lets size
  rcases eq_or_ne m 0 with rfl | hm
  · have hnearest : binary64.nearest ((0 : ℕ) * 10 ^ e) = 0 := by
      rw [Nat.cast_zero, zero_mul, Format.nearest_zero]
    rw [if_pos (.inl rfl), PyFloat.signed_zero hnearest]
  · obtain ⟨hlow, hhigh⟩ := size_bounds hm e
    split
    · next hsmall =>
      have hsmall := hsmall.resolve_left hm
      have hnearest := Format.nearest_tiny
        (f := binary64) (by positivity) (lt_underflow hhigh hsmall)
      rw [PyFloat.signed_zero hnearest]
    · split
      · next hlarge =>
        have hle := overflow_le hlow hlarge
        have hnearest : 2 ^ 1024 ≤ binary64.nearest (m * 10 ^ e) := by
          rw [← zpow_natCast] at hle ⊢
          exact Format.zpow_le_nearest (by decide) hle
        rw [PyFloat.signed, if_pos hnearest]
      · have hscaled := scaled_div m 1 (b := 10) (by decide) (-e)
        rw [neg_neg, Nat.cast_one, div_one, one_mul, zpow_neg, div_inv_eq_mul] at hscaled
        rw [nearestDouble_eq _ (by positivity), hscaled]
        rw [PyFloat.signed]
        push_cast
        split_ifs <;> simp_all

end Decimals

end Json

section Shortest

variable {q x : ℚ}

def PyFloat.Sound : PyFloat → Prop
  | .finite q => binary64.Holds |q| ∧ |q| < 2 ^ 1024
  | _ => True

theorem PyFloat.signed_sound (negative : Bool) (hx : 0 ≤ x) : (signed negative x).Sound := by
  rw [signed]
  split
  · trivial
  · next hover =>
    split
    · trivial
    · have habs : |if negative then -binary64.nearest x
          else binary64.nearest x| = binary64.nearest x := by
        split
        · rw [abs_neg, abs_of_nonneg (Format.nearest_nonneg hx)]
        · exact abs_of_nonneg (Format.nearest_nonneg hx)
      rw [Sound, habs]
      exact ⟨Format.nearest_holds hx, not_le.mp hover⟩

theorem PyFloat.signed_eq (hq : 0 < q) (hlt : q < 2 ^ 1024) (h : binary64.nearest x = q)
    (negative : Bool) :
    signed negative x = .finite (if negative then -q else q) := by
  rw [signed, h, if_neg (not_le.mpr hlt), if_neg fun h ↦ hq.ne' h.1]

theorem PyFloat.signed_of_false (hq : 0 < q) (h : signed false x = .finite q) (negative : Bool) :
    signed negative x = .finite (if negative then -q else q) := by
  have hnearest : binary64.nearest x = q ∧ q < 2 ^ 1024 := by
    rw [signed] at h
    split at h
    · cases h
    · next hover =>
      obtain rfl : binary64.nearest x = q := by simpa using h
      exact ⟨rfl, not_le.mp hover⟩
  exact signed_eq hq hnearest.2 hnearest.1 negative

theorem Json.toFloat_sound (negative : Bool) (m : ℕ) (e : ℤ) :
    (Json.toFloat negative m e).Sound := by
  rw [Json.toFloat_eq]
  exact PyFloat.signed_sound negative (by positivity)

theorem reads_sound {num den m : ℕ} {e : ℤ} (h : reads q num den e = some m) :
    Json.toFloat false m e = .finite q := by
  simp only [reads] at h
  generalize (if Json.roundHalfEven num den = num / den then num / den + 1
    else num / den) = far at h
  split at h
  · next hnear => exact Option.some.inj h ▸ hnear
  · split at h
    · next hfar => exact Option.some.inj h ▸ hfar
    · cases h

theorem num_div_den (hq : 0 < q) : (q.num.natAbs : ℚ) / q.den = q := by
  have habs : (q.num.natAbs : ℤ) = q.num := Int.natAbs_of_nonneg (Rat.num_pos.mpr hq).le
  rw [← Int.cast_natCast, habs, Rat.num_div_den]

theorem zpow_leadingPower_le (hq : 0 < q) : (10 : ℚ) ^ leadingPower q.num.natAbs q.den ≤ q := by
  have hnum : 0 < q.num.natAbs := Int.natAbs_pos.mpr (Rat.num_pos.mpr hq).ne'
  have hle := leadingPower_le hnum q.den_pos 0
  rw [Nat.cast_zero, sub_zero] at hle
  generalize leadingPower q.num.natAbs q.den = p at hle ⊢
  have hscaled := Json.scaled_div q.num.natAbs q.den (b := 10) (by decide) p
  have hden : (0 : ℚ) < (q.den * 10 ^ p.toNat : ℕ) := by
    exact_mod_cast Nat.mul_pos q.den_pos (Nat.pow_pos (by decide))
  rw [num_div_den hq, Nat.cast_ofNat] at hscaled
  rw [← one_le_div₀ (by positivity), ← hscaled, one_le_div₀ hden]
  exact_mod_cast hle

theorem toFloat_seventeen (hq : 0 < q) (hs : (PyFloat.finite q).Sound) {u : ℤ}
    (hu : u = leadingPower q.num.natAbs q.den - 16) :
    Json.toFloat false
      (Json.roundHalfEven (q.num.natAbs * 10 ^ (-u).toNat) (q.den * 10 ^ u.toNat)) u =
      .finite q := by
  have hunit : (0 : ℚ) < 10 ^ u := by positivity
  have hlead : (10 : ℚ) ^ u * (10 ^ 16 : ℕ) ≤ q := by
    have hsplit : (10 : ℚ) ^ u * (10 ^ 16 : ℕ) = 10 ^ leadingPower q.num.natAbs q.den := by
      rw [show leadingPower q.num.natAbs q.den = u + (16 : ℕ) by omega,
        zpow_add₀ (by norm_num), zpow_natCast]
      push_cast
      rfl
    exact hsplit.trans_le (zpow_leadingPower_le hq)
  generalize hm : Json.roundHalfEven (q.num.natAbs * 10 ^ (-u).toNat) (q.den * 10 ^ u.toNat) = m
  have hround : (m : ℤ) = halfEven (q / 10 ^ u) := by
    have hden : 0 < q.den * 10 ^ u.toNat := Nat.mul_pos q.den_pos (Nat.pow_pos (by decide))
    rw [← hm, Json.roundHalfEven_eq _ hden, Json.scaled_div _ _ (by decide), num_div_den hq,
      Nat.cast_ofNat]
  have hpos : 0 < m := by
    have hone : 1 ≤ halfEven (q / 10 ^ u) := le_halfEven (by
      rw [le_div_iff₀ hunit, Int.cast_one, one_mul]
      refine le_trans ?_ hlead
      exact le_mul_of_one_le_right hunit.le (by norm_num))
    omega
  have hnear : |(m : ℚ) * 10 ^ u - q| ≤ 1 / 2 * 10 ^ u := by
    have hhalf := abs_sub_halfEven_le (q / 10 ^ u)
    rw [← hround, Int.cast_natCast, abs_sub_comm] at hhalf
    have hscale : (m : ℚ) * 10 ^ u - q = (m - q / 10 ^ u) * 10 ^ u := by
      rw [sub_mul, div_mul_cancel₀ _ hunit.ne']
    rw [hscale, abs_mul, abs_of_pos hunit]
    exact mul_le_mul_of_nonneg_right hhalf hunit.le
  obtain ⟨hholds, hlt⟩ := hs
  rw [abs_of_pos hq] at hholds hlt
  have hnearest : binary64.nearest (m * 10 ^ u) = q :=
    Format.nearest_of_near hholds (by positivity) hunit (by decide) hlead hnear
  rw [Json.toFloat_eq, PyFloat.signed_eq hq hlt hnearest]
  rfl

/-- The digits that `repr` shows read as the double. -/
theorem shortest_reads (hq : 0 < q) (hs : (PyFloat.finite q).Sound) :
    Json.toFloat false (shortest q).1 (shortest q).2 = .finite q := by
  simp only [shortest]
  split
  · next r hfound =>
    obtain ⟨k, -, hk⟩ := List.exists_of_findSome?_eq_some hfound
    obtain ⟨m, hm, rfl⟩ := Option.map_eq_some_iff.mp hk
    exact reads_sound hm
  · exact toFloat_seventeen hq hs rfl

end Shortest

end OpusFleet.Python
