import Mathlib.Algebra.BigOperators.Intervals
import Mathlib.Algebra.Order.BigOperators.Group.Finset

namespace OpusFleet.Library.Calendar

open Finset

section Blocks

/-- The block that position `n` falls in and the offset there, for blocks of `len i`, `len (i + 1)`,
… positions that follow one another. -/
def locate (len : ℕ → ℕ) : ℕ → ℕ → ℕ → ℕ × ℕ
  | 0, i, n => (i, n)
  | fuel + 1, i, n => if n < len i then (i, n) else locate len fuel (i + 1) (n - len i)

variable {len : ℕ → ℕ} (hlen : ∀ i, 0 < len i)

include hlen in
theorem locate_spec {fuel i n : ℕ} (hfuel : n ≤ fuel) :
    i ≤ (locate len fuel i n).1 ∧ (locate len fuel i n).2 < len (locate len fuel i n).1 ∧
      ∑ k ∈ Ico i (locate len fuel i n).1, len k + (locate len fuel i n).2 = n := by
  induction fuel generalizing i n with
  | zero =>
    obtain rfl : n = 0 := Nat.le_zero.mp hfuel
    exact ⟨Nat.le_refl _, hlen i, by simp [locate]⟩
  | succ fuel ih =>
    rw [locate]
    split
    · next h => exact ⟨Nat.le_refl _, h, by simp⟩
    · next h =>
      have hpos := hlen i
      obtain ⟨hle, hlt, hsum⟩ := ih (i := i + 1) (n := n - len i) (by omega)
      refine ⟨by omega, hlt, ?_⟩
      rw [sum_eq_sum_Ico_succ_bot (by omega)]
      omega

include hlen in
theorem locate_lt {fuel fuel' i n n' : ℕ} (hfuel : n ≤ fuel) (hfuel' : n' ≤ fuel') (h : n < n') :
    (locate len fuel i n).1 < (locate len fuel' i n').1 ∨
      (locate len fuel i n).1 = (locate len fuel' i n').1 ∧
        (locate len fuel i n).2 < (locate len fuel' i n').2 := by
  obtain ⟨hle, hlt, hsum⟩ := locate_spec hlen (i := i) hfuel
  obtain ⟨hle', hlt', hsum'⟩ := locate_spec hlen (i := i) hfuel'
  generalize locate len fuel i n = p at *
  generalize locate len fuel' i n' = p' at *
  rcases Nat.lt_trichotomy p.1 p'.1 with hblock | hblock | hblock
  · exact .inl hblock
  · rw [← hblock] at hsum' ⊢
    exact .inr ⟨rfl, by omega⟩
  · have hwhole : ∑ k ∈ Ico i p'.1, len k + len p'.1 ≤ ∑ k ∈ Ico i p.1, len k := by
      rw [← sum_Ico_succ_top hle']
      exact sum_le_sum_of_subset (Ico_subset_Ico_right hblock)
    omega

end Blocks

section Gregorian

def isLeap (y : ℕ) : Bool := y % 4 == 0 && (y % 100 != 0 || y % 400 == 0)

def yearLength (y : ℕ) : ℕ := if isLeap y then 366 else 365

def monthLength (y : ℕ) : ℕ → ℕ
  | 2 => if isLeap y then 29 else 28
  | 4 | 6 | 9 | 11 => 30
  | _ => 31

theorem yearLength_pos (y : ℕ) : 0 < yearLength y := by
  rw [yearLength]
  split <;> decide

theorem monthLength_pos (y m : ℕ) : 0 < monthLength y m := by
  fun_cases monthLength y m <;> decide

theorem monthLength_le (y m : ℕ) : monthLength y m ≤ 31 := by
  fun_cases monthLength y m <;> decide

theorem sum_monthLength (y : ℕ) : ∑ m ∈ Ico 1 13, monthLength y m = yearLength y := by
  simp only [sum_Ico_eq_sum_range, sum_range_succ, sum_range_zero, monthLength, yearLength]
  split <;> rfl

@[ext] structure Date where
  year : ℕ
  month : ℕ
  day : ℕ
  deriving DecidableEq

/-- The date `n` days after 1970-01-01. -/
def civil (n : ℕ) : Date :=
  let (year, n) := locate yearLength n 1970 n
  let (month, n) := locate (monthLength year) n 1 n
  ⟨year, month, n + 1⟩

def ordinal (d : Date) : ℕ :=
  ∑ y ∈ Ico 1970 d.year, yearLength y + (∑ m ∈ Ico 1 d.month, monthLength d.year m + (d.day - 1))

theorem ordinal_civil (n : ℕ) : ordinal (civil n) = n := by
  obtain ⟨-, -, hyear⟩ := locate_spec yearLength_pos (i := 1970) (Nat.le_refl n)
  obtain ⟨-, -, hmonth⟩ := locate_spec (monthLength_pos (locate yearLength n 1970 n).1) (i := 1)
    (Nat.le_refl (locate yearLength n 1970 n).2)
  simp only [ordinal, civil, Nat.add_sub_cancel, hmonth, hyear]

theorem civil_injective : Function.Injective civil := Function.LeftInverse.injective ordinal_civil

theorem civil_bounds (n : ℕ) : (civil n).month ≤ 12 ∧ (civil n).day ≤ 31 := by
  obtain ⟨-, hyear, -⟩ := locate_spec yearLength_pos (i := 1970) (Nat.le_refl n)
  obtain ⟨-, hday, hmonth⟩ := locate_spec (monthLength_pos (locate yearLength n 1970 n).1) (i := 1)
    (Nat.le_refl (locate yearLength n 1970 n).2)
  constructor
  · by_contra hlarge
    have hsub : Ico 1 13 ⊆ Ico 1 (civil n).month := Ico_subset_Ico_right (by omega)
    have hsum := sum_le_sum_of_subset (f := monthLength (civil n).year) hsub
    rw [sum_monthLength] at hsum
    simp only [civil] at hsum
    omega
  · have hle := monthLength_le (civil n).year (civil n).month
    simp only [civil] at hle ⊢
    omega

theorem civil_lt {n n' : ℕ} (h : n < n') : (civil n).year < (civil n').year ∨
    (civil n).year = (civil n').year ∧ ((civil n).month < (civil n').month ∨
      (civil n).month = (civil n').month ∧ (civil n).day < (civil n').day) := by
  rcases locate_lt yearLength_pos (i := 1970) (Nat.le_refl n) (Nat.le_refl n') h
    with hyear | ⟨hyear, hrest⟩
  · exact .inl hyear
  · obtain ⟨r, hr⟩ : ∃ r, r = (locate yearLength n' 1970 n').2 := ⟨_, rfl⟩
    have hsame : (civil n).year = (civil n').year := hyear
    have hmonth : (civil n').month = (locate (monthLength (civil n).year) r 1 r).1 := by
      rw [hr, hsame]; rfl
    have hday : (civil n').day = (locate (monthLength (civil n).year) r 1 r).2 + 1 := by
      rw [hr, hsame]; rfl
    have hlater := locate_lt (monthLength_pos (civil n).year)
      (i := 1) (Nat.le_refl _) (Nat.le_refl r) (hr ▸ hrest)
    rw [hmonth, hday]
    exact .inr ⟨hsame, hlater.imp_right (And.imp_right Nat.succ_lt_succ)⟩

example : civil 19675 = ⟨2023, 11, 14⟩ := by decide

end Gregorian

end OpusFleet.Library.Calendar
