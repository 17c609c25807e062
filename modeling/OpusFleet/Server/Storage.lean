import Mathlib.Data.NNRat.Floor
import Mathlib.Data.Rat.Floor
import OpusFleet.Library.Calendar
import OpusFleet.Library.Words
import OpusFleet.Python.Text

namespace OpusFleet.Server.Storage

open Python Library

section Key

/-- `time.struct_time`, as far as the key shows it. -/
structure StructTime where
  date : Calendar.Date
  hour : ℕ
  minute : ℕ
  second : ℕ

def gmtime (t : ℚ≥0) : StructTime :=
  ⟨Calendar.civil (⌊t⌋₊ / 86400), ⌊t⌋₊ / 3600 % 24, ⌊t⌋₊ / 60 % 60, ⌊t⌋₊ % 60⟩

def twoDigits (n : ℕ) : Str := [48 + n / 10, 48 + n % 10]

def strftimeDate (gm : StructTime) : Str :=
  decimal gm.date.year ++ lit "-" ++ twoDigits gm.date.month ++ lit "-" ++ twoDigits gm.date.day

def strftimeTime (gm : StructTime) : Str :=
  twoDigits gm.hour ++ twoDigits gm.minute ++ twoDigits gm.second

/-- `int(x)`: the fraction is cut off. -/
def truncate (x : ℚ) : ℤ := x.num.tdiv x.den

def keyFor (imei : Str) (startedAt : ℚ≥0) (durationS : ℚ) (ext : Str) : Str :=
  imei ++ lit "/" ++ strftimeDate (gmtime startedAt) ++ lit "/" ++
  strftimeTime (gmtime startedAt) ++
    lit "_" ++ decimalInt (truncate durationS) ++ lit "s." ++ ext

example : keyFor (lit "A") 1700000000.5 59.98
    (lit "opus") = lit "A/2023-11-14/221320_59s.opus" := by
  decide +kernel

theorem gmtime_lt (t : ℚ≥0) : (gmtime t).date.month < 100 ∧ (gmtime t).date.day < 100 ∧
    (gmtime t).hour < 100 ∧ (gmtime t).minute < 100 ∧ (gmtime t).second < 100 := by
  obtain ⟨hmonth, hday⟩ := Calendar.civil_bounds (⌊t⌋₊ / 86400)
  simp only [gmtime]
  omega

theorem mem_twoDigits {n c : ℕ} (hn : n < 100) (h : c ∈ twoDigits n) : 48 ≤ c ∧ c < 58 := by
  simp only [twoDigits, List.mem_cons, List.not_mem_nil, or_false] at h
  omega

end Key

section Injective

theorem twoDigits_inj {m n : ℕ} (h : twoDigits m = twoDigits n) : m = n := by
  simp only [twoDigits, List.cons.injEq] at h
  omega

theorem truncate_of_nonneg {x : ℚ} (h : 0 ≤ x) : truncate x = ⌊x⌋ := by
  rw [truncate, Int.tdiv_eq_ediv_of_nonneg (Rat.num_nonneg.mpr h), ← Rat.floor_def]
  rfl

theorem gmtime_injective {t t' : ℚ≥0} (hdate : (gmtime t).date = (gmtime t').date)
    (hhour : (gmtime t).hour = (gmtime t').hour) (hminute : (gmtime t).minute = (gmtime t').minute)
    (hsecond : (gmtime t).second = (gmtime t').second) : ⌊t⌋₊ = ⌊t'⌋₊ := by
  have hday := Calendar.civil_injective hdate
  simp only [gmtime] at hhour hminute hsecond
  omega

/-- A key tells the device, the second at which the segment starts and its whole seconds. -/
theorem keyFor_inj {imei imei' ext : Str} {t t' : ℚ≥0} {d d' : ℚ} :
    keyFor imei t d ext = keyFor imei' t' d' ext ↔
      imei = imei' ∧ ⌊t⌋₊ = ⌊t'⌋₊ ∧ truncate d = truncate d' := by
  constructor
  · intro h
    have hdecimal (n : ℤ) : 95 ∉ decimalInt n := fun h ↦ absurd (mem_decimalInt h) (by decide)
    have hyear (n : ℕ) : 47 ∉ decimal n := fun h ↦ absurd (mem_decimal h).1 (by decide)
    have hname := List.append_cancel_right (List.append_cancel_right h)
    rw [List.append_assoc _ (lit "_"), List.append_assoc _ (lit "_")] at hname
    obtain ⟨hstart, hduration⟩ := Words.append_cons_inj_last (hdecimal _) (hdecimal _) hname
    obtain ⟨hdir, htime⟩ := List.append_inj' hstart rfl
    simp only [strftimeTime] at htime
    obtain ⟨htime, hsecond⟩ := List.append_inj' htime rfl
    obtain ⟨hhour, hminute⟩ := List.append_inj' htime rfl
    have hdir := List.append_cancel_right hdir
    simp only [strftimeDate, ← List.append_assoc] at hdir
    obtain ⟨hdir, hday⟩ := List.append_inj' hdir rfl
    obtain ⟨hdir, hmonth⟩ := List.append_inj' (List.append_cancel_right hdir) rfl
    have hdir := List.append_cancel_right hdir
    rw [List.append_assoc, List.append_assoc] at hdir
    obtain ⟨himei, hyear⟩ := Words.append_cons_inj_last (hyear _) (hyear _) hdir
    refine ⟨himei, ?_, decimalInt_injective hduration⟩
    apply gmtime_injective ?_ (twoDigits_inj hhour) (twoDigits_inj hminute) (twoDigits_inj hsecond)
    exact Calendar.Date.ext (decimal_injective hyear) (twoDigits_inj hmonth) (twoDigits_inj hday)
  · rintro ⟨rfl, ht, hd⟩
    rw [keyFor, keyFor, gmtime, gmtime, ht, hd]

end Injective

end OpusFleet.Server.Storage
