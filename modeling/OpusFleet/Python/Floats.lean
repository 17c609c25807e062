import OpusFleet.Python.Doubles

namespace OpusFleet.Python.PyFloat

open Library.Rounding

/-- The double nearest to `q`. -/
def rounded (q : ℚ) : PyFloat :=
  match Json.nearestDouble q.num.natAbs q.den with
  | none => .inf (q < 0)
  | some r => if 0 ≤ q then .finite r else if r = 0 then .negZero else .finite (-r)

def add : PyFloat → PyFloat → PyFloat
  | .nan, _ => .nan
  | _, .nan => .nan
  | .inf s, .inf t => if s = t then .inf s else .nan
  | .inf s, _ => .inf s
  | _, .inf t => .inf t
  | .negZero, y => y
  | x, .negZero => x
  | .finite a, .finite b => rounded (a + b)

def neg : PyFloat → PyFloat
  | .nan => .nan
  | .inf s => .inf !s
  | .negZero => .finite 0
  | .finite a => if a = 0 then .negZero else .finite (-a)

def sub : PyFloat → PyFloat → PyFloat
  | .finite a, .finite b => rounded (a - b)
  | x, y => x.add y.neg

def truth : PyFloat → Bool
  | .finite a => a ≠ 0
  | .negZero => false
  | _ => true

def lt : PyFloat → PyFloat → Bool
  | .nan, _ => false
  | _, .nan => false
  | .inf s, .inf t => s && !t
  | .inf s, _ => s
  | _, .inf t => !t
  | .negZero, .negZero => false
  | .negZero, .finite b => 0 < b
  | .finite a, .negZero => a < 0
  | .finite a, .finite b => a < b

def le (x y : PyFloat) : Bool := x.lt y || (x ≠ .nan && y ≠ .nan && !y.lt x)

section Rounding

variable {q x y c : ℚ} {m : ℕ}

theorem num_abs_div (q : ℚ) : (q.num.natAbs : ℚ) / q.den = |q| := by
  rw [Nat.cast_natAbs, Int.cast_abs, ← Rat.num_div_den |q|, Rat.num_abs_eq_abs_num]
  rw [Rat.den_abs_eq_den]
  push_cast
  rfl

theorem rounded_eq (q : ℚ) : rounded q = if 2 ^ 1024 ≤ binary64.nearest |q| then .inf (q < 0)
    else if 0 ≤ q then .finite (binary64.nearest |q|)
    else if binary64.nearest |q| = 0 then .negZero else .finite (-binary64.nearest |q|) := by
  rw [rounded, Json.nearestDouble_eq _ q.den_pos, num_abs_div]
  by_cases h : 2 ^ 1024 ≤ binary64.nearest |q|
  · rw [if_pos h, if_pos h]
  · rw [if_neg h, if_neg h]

theorem rounded_self (hq : 0 ≤ q) (hholds : binary64.Holds q) (hlt : q < 2 ^ 1024) :
    rounded q = .finite q := by
  have hself : binary64.nearest |q| = q := by rw [abs_of_nonneg hq, Format.nearest_self hholds hq]
  rw [rounded_eq, hself, if_neg (not_le.mpr hlt), if_pos hq]

theorem holds_natCast (hm : m ≤ 2 ^ 53) : binary64.Holds m := by
  rcases hm.lt_or_eq with hlt | rfl
  · exact ⟨m, 0, hlt, by decide, by simp⟩
  · exact ⟨1, 53, by decide, by decide, by norm_num⟩

theorem natCast_lt (hm : m ≤ 2 ^ 53) : (m : ℚ) < 2 ^ 1024 := by
  have hle : (m : ℚ) ≤ 2 ^ 53 := by exact_mod_cast hm
  have hexponent : 53 < 1024 := by decide
  exact hle.trans_lt (pow_lt_pow_right₀ one_lt_two hexponent)

theorem rounded_natCast (hm : m ≤ 2 ^ 53) : rounded m = .finite m :=
  rounded_self m.cast_nonneg (holds_natCast hm) (natCast_lt hm)

theorem add_natCast {a b : ℕ} (h : a + b ≤ 2 ^ 53) :
    add (.finite a) (.finite b) = .finite (a + b : ℕ) := by
  rw [add, ← Nat.cast_add, rounded_natCast h]

theorem lt_rounded_iff (hc : 0 ≤ c) (hlt : c < 2 ^ 1024) :
    lt (.finite c) (rounded x) = true ↔ 0 ≤ x ∧ c < binary64.nearest x := by
  rw [rounded_eq]
  rcases le_or_gt 0 x with hx | hx
  · rw [abs_of_nonneg hx]
    split
    · next hover => simp [lt, hx, hlt.trans_le hover]
    · simp [lt, hx]
  · have hnonneg : 0 ≤ binary64.nearest |x| := Format.nearest_nonneg (abs_nonneg x)
    have hnot : ¬0 ≤ x := not_le.mpr hx
    rw [if_neg hnot]
    split
    · simp [lt, hx]
    · split
      · simp [lt, hc, hnot]
      · simp only [lt, hnot, false_and, decide_eq_false_iff_not, iff_false, Bool.not_eq_true]
        linarith

theorem lt_rounded_mono (hc : 0 ≤ c) (hlt : c < 2 ^ 1024) (h : x ≤ y)
    (hx : lt (.finite c) (rounded x) = true) : lt (.finite c) (rounded y) = true := by
  obtain ⟨hnonneg, hbelow⟩ := (lt_rounded_iff hc hlt).mp hx
  exact (lt_rounded_iff hc hlt).mpr ⟨hnonneg.trans h,
    hbelow.trans_le (Format.nearest_mono hnonneg h)⟩

end Rounding

end OpusFleet.Python.PyFloat
