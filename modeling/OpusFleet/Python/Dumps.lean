import Mathlib.Data.Nat.Digits.Lemmas
import Mathlib.Data.Nat.Log
import OpusFleet.Library.Rfc8259
import OpusFleet.Python.Json

namespace OpusFleet.Python

open Library

section Float

def leadingPower (num den : ℕ) : ℤ :=
  if den ≤ num then Nat.log 10 (num / den) else -(Nat.clog 10 ((den + num - 1) / num) : ℤ)

/-- A decimal of `q` in units of `10 ^ e` that reads as `q`, the nearest one first. -/
def reads (q : ℚ) (num den : ℕ) (e : ℤ) : Option ℕ :=
  let low := num / den
  let near := Json.roundHalfEven num den
  let far := if near = low then low + 1 else low
  if Json.toFloat false near e = .finite q then some near
  else if Json.toFloat false far e = .finite q then some far
  else none

/-- The decimal with the fewest digits, at most 17, that reads as
`q`, by its digits and its unit. -/
def shortest (q : ℚ) : ℕ × ℤ :=
  let num := q.num.natAbs
  let unit (k : ℕ) : ℤ := leadingPower num q.den - k
  let scaled (k : ℕ) : ℕ × ℕ := (num * 10 ^ (-unit k).toNat, q.den * 10 ^ (unit k).toNat)
  match (List.range 17).findSome? fun k ↦
    (reads q (scaled k).1 (scaled k).2 (unit k)).map (·, unit k) with
  | some r => r
  | none => (Json.roundHalfEven (scaled 16).1 (scaled 16).2, unit 16)

/-- Digits with the point after the first `point` of them, as `float.__repr__` lays them out. -/
def layOut (ds : Str) (point : ℤ) : Str :=
  if point ≤ -4 ∨ 16 < point then
    let exponent := decimal (point - 1).natAbs
    ds.take 1 ++ (if ds.length ≤ 1 then [] else 46 :: ds.drop 1) ++
      101 :: (if point < 1 then 45 else 43) :: (if exponent.length < 2
        then 48 :: exponent else exponent)
  else if point ≤ 0 then 48 :: 46 :: (List.replicate (-point).toNat 48 ++ ds)
  else if ds.length ≤ point.toNat then ds ++ List.replicate (point.toNat - ds.length) 48 ++ [46, 48]
  else ds.take point.toNat ++ 46 :: ds.drop point.toNat

def reprPos (q : ℚ) : Str :=
  let ds := decimal (shortest q).1
  layOut (ds.rdropWhile (· = 48)) (ds.length + (shortest q).2)

def floatStr : PyFloat → Str
  | .finite q => if q = 0 then lit "0.0" else if q < 0 then 45 :: reprPos (-q) else reprPos q
  | .negZero => lit "-0.0"
  | .inf false => lit "Infinity"
  | .inf true => lit "-Infinity"
  | .nan => lit "NaN"

end Float

section Text

def unicodeEscape (c : ℕ) : Str :=
  [92, 117, hexDigit (c / 4096 % 16), hexDigit (c / 256 % 16), hexDigit (c / 16 % 16),
    hexDigit (c % 16)]

def escapeAscii (c : ℕ) : Str :=
  match c with
  | 34 => [92, 34]
  | 92 => [92, 92]
  | 10 => [92, 110]
  | 13 => [92, 114]
  | 9 => [92, 116]
  | 12 => [92, 102]
  | 8 => [92, 98]
  | _ =>
    if 32 ≤ c ∧ c ≤ 126 then [c]
    else if c < 0x10000 then unicodeEscape c
    else unicodeEscape (0xD800 + (c - 0x10000) / 1024 % 1024) ++
      unicodeEscape (0xDC00 + (c - 0x10000) % 1024)

def quote (s : Str) : Str := 34 :: (s.flatMap escapeAscii ++ [34])

variable (comma colon : Str)

mutual

/-- `json.dumps` with the separators `comma` and `colon`. -/
def dumps : Value → Str
  | .none => lit "null"
  | .bool true => lit "true"
  | .bool false => lit "false"
  | .int i => decimalInt i
  | .float f => floatStr f
  | .str s => quote s
  | .list xs => 91 :: (dumpsList xs ++ [93])
  | .dict es => 123 :: (dumpsDict es ++ [125])

def dumpsList : List Value → Str
  | [] => []
  | [v] => dumps v
  | v :: w :: vs => dumps v ++ (comma ++ dumpsList (w :: vs))

def dumpsDict : List (Str × Value) → Str
  | [] => []
  | [(k, v)] => quote k ++ (colon ++ dumps v)
  | (k, v) :: e :: es => quote k ++ (colon ++ (dumps v ++ (comma ++ dumpsDict (e :: es))))

end

mutual

/-- `json.dumps` where `limit` more containers can be entered. -/
def dumpsWithin (limit : ℕ) : Value → Except JsonError Str
  | .int i =>
    if (decimal i.natAbs).length ≤ Json.maxStrDigits then .ok (decimalInt i) else .error .value
  | .list xs =>
    if 0 < limit then (dumpsListWithin (limit - 1) xs).map fun s ↦ 91 :: (s ++ [93])
    else .error .recursion
  | .dict es =>
    if 0 < limit then (dumpsDictWithin (limit - 1) es).map fun s ↦ 123 :: (s ++ [125])
    else .error .recursion
  | v => .ok (dumps comma colon v)

def dumpsListWithin (limit : ℕ) : List Value → Except JsonError Str
  | [] => .ok []
  | [v] => dumpsWithin limit v
  | v :: w :: vs => do
    let s ← dumpsWithin limit v
    let rest ← dumpsListWithin limit (w :: vs)
    return s ++ (comma ++ rest)

def dumpsDictWithin (limit : ℕ) : List (Str × Value) → Except JsonError Str
  | [] => .ok []
  | [(k, v)] => (dumpsWithin limit v).map fun s ↦ quote k ++ (colon ++ s)
  | (k, v) :: e :: es => do
    let s ← dumpsWithin limit v
    let rest ← dumpsDictWithin limit (e :: es)
    return quote k ++ (colon ++ (s ++ (comma ++ rest)))

end

mutual

/-- Every integer has a text, and no more than `limit` containers are nested. -/
def Writable (limit : ℕ) : Value → Prop
  | .int i => (decimal i.natAbs).length ≤ Json.maxStrDigits
  | .list xs => 0 < limit ∧ WritableList (limit - 1) xs
  | .dict es => 0 < limit ∧ WritableDict (limit - 1) es
  | _ => True

def WritableList (limit : ℕ) : List Value → Prop
  | [] => True
  | v :: vs => Writable limit v ∧ WritableList limit vs

def WritableDict (limit : ℕ) : List (Str × Value) → Prop
  | [] => True
  | (_, v) :: es => Writable limit v ∧ WritableDict limit es

end

mutual

def finite : Value → Bool
  | .float (.inf _) | .float .nan => false
  | .list xs => finiteList xs
  | .dict es => finiteDict es
  | _ => true

def finiteList : List Value → Bool
  | [] => true
  | v :: vs => finite v && finiteList vs

def finiteDict : List (Str × Value) → Bool
  | [] => true
  | (_, v) :: es => finite v && finiteDict es

end

end Text

section Depth

variable {comma colon : Str} {limit : ℕ}

theorem map_ok_iff {α β : Type} {x : Except JsonError α} {f : α → β} {b : β} :
    x.map f = .ok b ↔ ∃ a, x = .ok a ∧ f a = b := by
  cases x with
  | error e => simp [Except.map]
  | ok a => simp [Except.map]

theorem join_ok_iff {α β : Type} {x y : Except JsonError α} {f : α → α → β} {b : β} :
    (do let s ← x; let rest ← y; return f s rest) = .ok b ↔
      ∃ s rest, x = .ok s ∧ y = .ok rest ∧ f s rest = b := by
  cases x with
  | error e => simp [bind, Except.bind]
  | ok s =>
    cases y with
    | error e => simp [bind, Except.bind]
    | ok rest => simp [bind, Except.bind, pure, Except.pure]

mutual

/-- `json.dumps` writes the values that are writable, and writes their text. -/
theorem dumpsWithin_iff (limit : ℕ) (v : Value) (s : Str) :
    dumpsWithin comma colon limit v = .ok s ↔ Writable limit v ∧ dumps comma colon v = s := by
  cases v with
  | none | bool | float | str => simp [dumpsWithin, Writable]
  | int i =>
    rw [dumpsWithin, Writable, dumps]
    split
    · next h => simp [h]
    · next h => simp [h]
  | list xs =>
    rw [dumpsWithin, Writable, dumps]
    split
    · next h =>
      have hxs (t : Str) := dumpsListWithin_iff (limit - 1) xs t
      simp [map_ok_iff, hxs, h, and_assoc]
    · next h => simp [h]
  | dict es =>
    rw [dumpsWithin, Writable, dumps]
    split
    · next h =>
      have hes (t : Str) := dumpsDictWithin_iff (limit - 1) es t
      simp [map_ok_iff, hes, h, and_assoc]
    · next h => simp [h]

theorem dumpsListWithin_iff (limit : ℕ) (xs : List Value) (s : Str) :
    dumpsListWithin comma colon limit xs = .ok s ↔ WritableList limit xs ∧
    dumpsList comma colon xs = s := by
  match xs with
  | [] => simp [dumpsListWithin, WritableList, dumpsList]
  | [v] => simp [dumpsListWithin, WritableList, dumpsList, dumpsWithin_iff limit v]
  | v :: w :: vs =>
    have hv (t : Str) := dumpsWithin_iff limit v t
    have hvs (t : Str) := dumpsListWithin_iff limit (w :: vs) t
    rw [dumpsListWithin, join_ok_iff, WritableList, dumpsList]
    simp [hv, hvs, and_assoc, and_left_comm]

theorem dumpsDictWithin_iff (limit : ℕ) (es : List (Str × Value)) (s : Str) :
    dumpsDictWithin comma colon limit es = .ok s ↔ WritableDict limit es ∧
    dumpsDict comma colon es = s := by
  match es with
  | [] => simp [dumpsDictWithin, WritableDict, dumpsDict]
  | [(k, v)] =>
    have hv (t : Str) := dumpsWithin_iff limit v t
    simp [dumpsDictWithin, map_ok_iff, WritableDict, dumpsDict, hv, and_assoc]
  | (k, v) :: e :: es =>
    have hv (t : Str) := dumpsWithin_iff limit v t
    have hes (t : Str) := dumpsDictWithin_iff limit (e :: es) t
    rw [dumpsDictWithin, join_ok_iff, WritableDict, dumpsDict]
    simp [hv, hes, and_assoc, and_left_comm]

end

theorem writableList_iff {xs : List Value} :
    WritableList limit xs ↔ ∀ v ∈ xs, Writable limit v := by
  induction xs with
  | nil => simp [WritableList]
  | cons v xs ih => simp [WritableList, ih]

theorem writableDict_iff {es : List (Str × Value)} :
    WritableDict limit es ↔ ∀ e ∈ es, Writable limit e.2 := by
  induction es with
  | nil => simp [WritableDict]
  | cons e es ih => simp [WritableDict, ih]

end Depth

section Numbers

open Rfc8259

theorem decimal_digits {n c : ℕ} (h : c ∈ decimal n) : Digit c := mem_decimal h

theorem decimal_ne_nil (n : ℕ) : decimal n ≠ [] := by
  rw [decimal]
  split
  · exact List.cons_ne_nil _ _
  · next h =>
    simpa using Nat.digits_ne_nil_iff_ne_zero.mpr h

theorem decimal_pos {n : ℕ} (h : 0 < n) :
    ∃ d ds, decimal n = d :: ds ∧ Digit d ∧ d ≠ 48 ∧ ∀ c ∈ ds, Digit c := by
  have hne : Nat.digits 10 n ≠ [] := Nat.digits_ne_nil_iff_ne_zero.mpr h.ne'
  obtain ⟨init, last, hsplit⟩ := List.eq_nil_or_concat (Nat.digits 10 n) |>.resolve_left hne
  have hlast : last ≠ 0 := by
    have hlast := Nat.getLast_digit_ne_zero 10 h.ne'
    simpa [hsplit] using hlast
  have hdecimal : decimal n = (48 + last) :: init.reverse.map (48 + ·) := by
    rw [decimal, if_neg h.ne', hsplit]
    simp
  have hdigits : ∀ c ∈ (48 + last) :: init.reverse.map (48 + ·), Digit c :=
    hdecimal ▸ fun c ↦ decimal_digits
  obtain ⟨hd, hds⟩ := List.forall_mem_cons.mp hdigits
  exact ⟨_, _, hdecimal, hd, by omega, hds⟩

theorem decimal_whole (n : ℕ) : Whole (decimal n) := by
  rcases Nat.eq_zero_or_pos n with rfl | h
  · exact .zero
  · obtain ⟨d, ds, hdecimal, hd, hne, hds⟩ := decimal_pos h
    rw [hdecimal]
    exact .digits hd hne hds

theorem decimalInt_number (i : ℤ) : Number (decimalInt i) := by
  have hunsigned : Unsigned (decimal i.natAbs) := by
    simpa using Unsigned.mk (decimal_whole i.natAbs) .absent .absent
  rw [decimalInt]
  split
  · exact .minus hunsigned
  · exact .plain hunsigned

theorem zeros_digits (n : ℕ) : ∀ c ∈ List.replicate n 48, Digit c := by
  intro c hc
  obtain rfl := List.eq_of_mem_replicate hc
  decide

theorem padded_digits (n : ℕ) :
    (if (decimal n).length < 2 then 48 :: decimal n else decimal n) ≠ [] ∧
    ∀ c ∈ if (decimal n).length < 2 then 48 :: decimal n else decimal n, Digit c := by
  split
  · exact ⟨List.cons_ne_nil _ _, List.forall_mem_cons.mpr ⟨by decide, fun _ ↦ decimal_digits⟩⟩
  · exact ⟨decimal_ne_nil n, fun _ ↦ decimal_digits⟩

theorem layOut_unsigned {d : ℕ} {ds : Str} (hd : Digit d) (hne : d ≠ 48)
    (hds : ∀ c ∈ ds, Digit c) (point : ℤ) :
    Unsigned (layOut (d :: ds) point) := by
  have hall : ∀ c ∈ d :: ds, Digit c := List.forall_mem_cons.mpr ⟨hd, hds⟩
  rw [layOut]
  split
  · have hfraction : Fraction (if (d :: ds).length ≤ 1 then [] else 46 :: (d :: ds).drop 1) := by
      split
      · exact .absent
      · next hlong =>
        refine .digits ?_ hds
        rintro hnil
        rw [List.drop_one, List.tail_cons] at hnil
        rw [hnil] at hlong
        exact hlong le_rfl
    have hsign : [if point < 1 then 45 else 43] = [] ∨ [if point < 1 then 45 else 43] = [43] ∨
        [if point < 1 then 45 else 43] = [45] := by
      split <;> simp
    have hexponent := Exponent.digits (.inl rfl) hsign (padded_digits (point - 1).natAbs).1
      (padded_digits (point - 1).natAbs).2
    have hunsigned := Unsigned.mk (Whole.digits hd hne (List.forall_mem_nil _)) hfraction hexponent
    simpa using hunsigned
  · split
    · have hfraction : Fraction (46 :: (List.replicate (-point).toNat 48 ++ d :: ds)) := by
        refine .digits (List.append_ne_nil_of_right_ne_nil _ (List.cons_ne_nil _ _)) ?_
        exact List.forall_mem_append.mpr ⟨zeros_digits _, hall⟩
      simpa using Unsigned.mk .zero hfraction .absent
    · split
      · have hwhole : Whole (d :: (ds ++ List.replicate (point.toNat - (d :: ds).length) 48)) :=
          .digits hd hne (List.forall_mem_append.mpr ⟨hds, zeros_digits _⟩)
        have hfraction : Fraction [46, 48] := .digits (List.cons_ne_nil _ _) (by decide)
        simpa using Unsigned.mk hwhole hfraction .absent
      · next hpos hlong =>
        obtain ⟨n, hn⟩ : ∃ n, point.toNat = n + 1 := ⟨point.toNat - 1, by omega⟩
        have hwhole : Whole (d :: ds.take n) :=
          .digits hd hne fun c hc ↦ hds c (List.mem_of_mem_take hc)
        have hfraction : Fraction (46 :: ds.drop n) := by
          refine .digits ?_ fun c hc ↦ hds c (List.mem_of_mem_drop hc)
          rw [hn, List.length_cons] at hlong
          exact List.ne_nil_of_length_pos (by rw [List.length_drop]; omega)
        rw [hn]
        simpa using Unsigned.mk hwhole hfraction .absent

theorem rdropWhile_cons {d : ℕ} (ds : Str) (hne : d ≠ 48) :
    ∃ ds', (d :: ds).rdropWhile (· = 48) = d :: ds' ∧ ∀ c ∈ ds', c ∈ ds := by
  have hprefix : (d :: ds).rdropWhile (· = 48) <+: d :: ds := List.rdropWhile_prefix _ _
  cases hdrop : (d :: ds).rdropWhile (· = 48) with
  | nil =>
    have hzeros := List.rdropWhile_eq_nil_iff.mp hdrop d List.mem_cons_self
    simp [hne] at hzeros
  | cons d' ds' =>
    rw [hdrop] at hprefix
    obtain ⟨rfl, hds'⟩ := List.cons_prefix_cons.mp hprefix
    exact ⟨ds', rfl, fun c hc ↦ hds'.subset hc⟩

theorem leadingPower_le {num den : ℕ} (hnum : 0 < num) (hden : 0 < den) (k : ℕ) :
    den * 10 ^ (leadingPower num den - k).toNat ≤ num * 10 ^
      (-(leadingPower num den - k)).toNat := by
  rw [leadingPower]
  split
  · next hle =>
    have hpow : 10 ^ Nat.log 10 (num / den) ≤ num / den :=
      Nat.pow_log_le_self 10 (Nat.div_pos hle hden).ne'
    have hscaled : den * 10 ^ Nat.log 10 (num / den) ≤ num :=
      (Nat.mul_le_mul_left den hpow).trans (Nat.mul_div_le num den)
    calc den * 10 ^ ((Nat.log 10 (num / den) : ℤ) - k).toNat
        ≤ den * 10 ^ Nat.log 10 (num / den) :=
          Nat.mul_le_mul_left den (Nat.pow_le_pow_right (by decide) (by omega))
      _ ≤ num := hscaled
      _ ≤ num * 10 ^ (-((Nat.log 10 (num / den) : ℤ) - k)).toNat :=
          Nat.le_mul_of_pos_right num (Nat.pow_pos (by decide))
  · have hceil : den ≤ num * ((den + num - 1) / num) := by
      have hmod := Nat.mod_lt (den + num - 1) hnum
      have hdiv := Nat.div_add_mod (den + num - 1) num
      omega
    have hpow : (den + num - 1) / num ≤ 10 ^ Nat.clog 10 ((den + num - 1) / num) :=
      Nat.le_pow_clog (by decide) _
    generalize Nat.clog 10 ((den + num - 1) / num) = n at hpow ⊢
    have hzero : (-(n : ℤ) - k).toNat = 0 := by omega
    calc den * 10 ^ (-(n : ℤ) - k).toNat = den := by rw [hzero, Nat.pow_zero, Nat.mul_one]
      _ ≤ num * ((den + num - 1) / num) := hceil
      _ ≤ num * 10 ^ n := Nat.mul_le_mul_left num hpow
      _ ≤ num * 10 ^ (-(-(n : ℤ) - k)).toNat :=
          Nat.mul_le_mul_left num (Nat.pow_le_pow_right (by decide) (by omega))

theorem le_roundHalfEven (num den : ℕ) : num / den ≤ Json.roundHalfEven num den := by
  rw [Json.roundHalfEven]
  split
  · exact le_rfl
  · split
    · exact Nat.le_succ _
    · exact Nat.le_add_right _ _

theorem reads_le {q : ℚ} {num den m : ℕ} {e : ℤ} (h : reads q num den e = some m) :
    num / den ≤ m := by
  have hfar : num / den ≤ if Json.roundHalfEven num den = num / den then num / den + 1
      else num / den := by
    split
    · exact Nat.le_succ _
    · exact le_rfl
  simp only [reads] at h
  generalize (if Json.roundHalfEven num den = num / den then num / den + 1
    else num / den) = far at h hfar
  split at h
  · exact Option.some.inj h ▸ le_roundHalfEven num den
  · split at h
    · exact Option.some.inj h ▸ hfar
    · cases h

theorem shortest_pos {q : ℚ} (h : 0 < q) : 0 < (shortest q).1 := by
  have hnum : 0 < q.num.natAbs := Int.natAbs_pos.mpr (Rat.num_pos.mpr h).ne'
  have hlow (k : ℕ) := Nat.div_pos (leadingPower_le hnum q.den_pos k)
    (Nat.mul_pos q.den_pos (Nat.pow_pos
      (n := (leadingPower q.num.natAbs q.den - k).toNat) (by decide : 0 < 10)))
  simp only [shortest]
  split
  · next r hfound =>
    obtain ⟨k, -, hk⟩ := List.exists_of_findSome?_eq_some hfound
    obtain ⟨m, hm, rfl⟩ := Option.map_eq_some_iff.mp hk
    exact (hlow k).trans_le (reads_le hm)
  · exact (hlow 16).trans_le (le_roundHalfEven _ _)

theorem reprPos_unsigned {q : ℚ} (h : 0 < q) : Unsigned (reprPos q) := by
  obtain ⟨d, ds, hdecimal, hd, hne, hds⟩ := decimal_pos (shortest_pos h)
  obtain ⟨ds', hdrop, hsub⟩ := rdropWhile_cons ds hne
  simp only [reprPos, hdecimal, hdrop]
  exact layOut_unsigned hd hne (fun c hc ↦ hds c (hsub c hc)) _

theorem floatStr_number {f : PyFloat} (h : finite (.float f) = true) : Number (floatStr f) := by
  have hzero : Unsigned [48, 46, 48] :=
    .mk .zero (.digits (List.cons_ne_nil 48 []) (by decide)) .absent
  cases f with
  | finite q =>
    rw [floatStr]
    split
    · exact .plain hzero
    · next hne =>
      split
      · next hneg => exact .minus (reprPos_unsigned (neg_pos.mpr hneg))
      · next hpos => exact .plain (reprPos_unsigned (lt_of_le_of_ne (not_lt.mp hpos) (Ne.symm hne)))
  | negZero => exact .minus hzero
  | inf negative => simp [finite] at h
  | nan => simp [finite] at h

end Numbers

section Validity

open Rfc8259

theorem hexDigit_hexDigit {n : ℕ} (h : n < 16) : HexDigit (hexDigit n) := by
  rw [hexDigit]
  split
  · exact .inl ⟨Nat.le_add_right _ _, by omega⟩
  · exact .inr (.inr ⟨by omega, by omega⟩)

theorem unicodeEscape_chars (c : ℕ) : Chars (unicodeEscape c) :=
  have hdigit (n : ℕ) : HexDigit (hexDigit (n % 16)) := hexDigit_hexDigit (Nat.mod_lt n (by decide))
  .code (hdigit _) (hdigit _) (hdigit _) (hdigit _) .nil

theorem escapeAscii_chars (c : ℕ) : Chars (escapeAscii c) := by
  unfold escapeAscii
  split
  iterate 7
    refine .escape ?_ .nil
    decide
  · split
    · next hquote hslash _ _ _ _ _ hplain => exact .plain hplain.1 (by omega) hquote hslash .nil
    · split
      · exact unicodeEscape_chars c
      · exact (unicodeEscape_chars _).append (unicodeEscape_chars _)

theorem quote_quoted (s : Str) : Quoted (quote s) := by
  apply Quoted.mk
  induction s with
  | nil => exact .nil
  | cons c s ih => exact (escapeAscii_chars c).append ih

variable {a b : Str}

mutual

theorem dumps_json (ha : Blank a) (hb : Blank b) (v : Value) (h : finite v = true) :
    Json .value (dumps (44 :: a) (58 :: b) v) := by
  cases v with
  | none => exact .null
  | bool b => cases b with
    | false => exact .false
    | true => exact .true
  | int i => exact .number (decimalInt_number i)
  | float f => exact .number (floatStr_number h)
  | str s => exact .string (quote_quoted s)
  | list xs =>
    cases xs with
    | nil => exact .emptyArray blank_nil
    | cons x xs => exact .array (dumpsList_json ha hb (x :: xs) (List.cons_ne_nil _ _) h)
  | dict es =>
    cases es with
    | nil => exact .emptyObject blank_nil
    | cons e es => exact .object (dumpsDict_json ha hb (e :: es) (List.cons_ne_nil _ _) h)

theorem dumpsList_json (ha : Blank a) (hb : Blank b) (xs : List Value) (hne : xs ≠ [])
    (h : finiteList xs = true) :
    Json .elements (dumpsList (44 :: a) (58 :: b) xs) := by
  match xs with
  | [] => exact absurd rfl hne
  | [v] =>
    obtain ⟨hv, -⟩ := Bool.and_eq_true_iff.mp h
    rw [dumpsList]
    simpa using Json.element blank_nil (dumps_json ha hb v hv) blank_nil
  | v :: w :: vs =>
    obtain ⟨hv, hvs⟩ := Bool.and_eq_true_iff.mp h
    have hrest := (dumpsList_json ha hb (w :: vs) (List.cons_ne_nil _ _) hvs).elements_blank ha
    exact Json.elements blank_nil (dumps_json ha hb v hv) blank_nil hrest

theorem dumpsDict_json (ha : Blank a) (hb : Blank b) (es : List (Str × Value)) (hne : es ≠ [])
    (h : finiteDict es = true) :
    Json .members (dumpsDict (44 :: a) (58 :: b) es) := by
  match es with
  | [] => exact absurd rfl hne
  | [(k, v)] =>
    obtain ⟨hv, -⟩ := Bool.and_eq_true_iff.mp h
    rw [dumpsDict]
    simpa using Json.member blank_nil (quote_quoted k) blank_nil hb
      (dumps_json ha hb v hv) blank_nil
  | (k, v) :: e :: es =>
    obtain ⟨hv, hes⟩ := Bool.and_eq_true_iff.mp h
    have hrest := (dumpsDict_json ha hb (e :: es) (List.cons_ne_nil _ _) hes).members_blank ha
    exact Json.members blank_nil (quote_quoted k) blank_nil hb
      (dumps_json ha hb v hv) blank_nil hrest

end

theorem floatStr_shouts (f : PyFloat) : Shouts (floatStr f) (finite (.float f) = false) := by
  have hword (s : Str) (hquote : 34 ∉ s) (hs : 78 ∈ s ∨ 73 ∈ s) :
      Shouts s (finite (.float f) = false) :=
    ⟨s, says_self hquote, fun _ ↦ hs⟩
  cases f with
  | finite q => exact (floatStr_number rfl).sober.shouts.mono (by simp [finite])
  | negZero => exact (floatStr_number rfl).sober.shouts.mono (by simp [finite])
  | inf negative => cases negative <;> exact hword _ (by decide) (by decide)
  | nan => exact hword _ (by decide) (by decide)

theorem separator_sober {c : ℕ} (ha : Blank a) (hc : c ≠ 34 ∧ c ≠ 78 ∧ c ≠ 73) : Sober (c :: a) :=
  ha.sober.cons hc

mutual

theorem dumps_shouts (ha : Blank a) (hb : Blank b) (v : Value) :
    Shouts (dumps (44 :: a) (58 :: b) v) (finite v = false) := by
  have hclose {c : ℕ} (hc : c ≠ 34 ∧ c ≠ 78 ∧ c ≠ 73) : Sober [c] := separator_sober blank_nil hc
  cases v with
  | none => exact Json.null.sober.shouts.mono (by simp [finite])
  | bool b => cases b with
    | false => exact Json.false.sober.shouts.mono (by simp [finite])
    | true => exact Json.true.sober.shouts.mono (by simp [finite])
  | int i => exact (decimalInt_number i).sober.shouts.mono (by simp [finite])
  | float f => exact floatStr_shouts f
  | str s => exact (quote_quoted s).sober.shouts.mono (by simp [finite])
  | list xs =>
    have hxs := (dumpsList_shouts ha hb xs).append_sober (hclose (c := 93) (by decide))
    exact (hclose (c := 91) (by decide)).append_shouts hxs
  | dict es =>
    have hes := (dumpsDict_shouts ha hb es).append_sober (hclose (c := 125) (by decide))
    exact (hclose (c := 123) (by decide)).append_shouts hes

theorem dumpsList_shouts (ha : Blank a) (hb : Blank b) (xs : List Value) :
    Shouts (dumpsList (44 :: a) (58 :: b) xs) (finiteList xs = false) := by
  match xs with
  | [] => exact ⟨[], says_nil, by simp [finiteList]⟩
  | [v] =>
    rw [dumpsList]
    exact (dumps_shouts ha hb v).mono (by simp [finiteList])
  | v :: w :: vs =>
    have hrest :=
      (separator_sober ha (c := 44) (by decide)).append_shouts (dumpsList_shouts ha hb (w :: vs))
    exact ((dumps_shouts ha hb v).append hrest).mono Bool.and_eq_false_iff.mp

theorem dumpsDict_shouts (ha : Blank a) (hb : Blank b) (es : List (Str × Value)) :
    Shouts (dumpsDict (44 :: a) (58 :: b) es) (finiteDict es = false) := by
  match es with
  | [] => exact ⟨[], says_nil, by simp [finiteDict]⟩
  | [(k, v)] =>
    have hvalue := (separator_sober hb (c := 58) (by decide)).append_shouts (dumps_shouts ha hb v)
    rw [dumpsDict]
    exact ((quote_quoted k).sober.append_shouts hvalue).mono (by simp [finiteDict])
  | (k, v) :: e :: es =>
    have hrest :=
      (separator_sober ha (c := 44) (by decide)).append_shouts (dumpsDict_shouts ha hb (e :: es))
    have hvalue :=
      (separator_sober hb (c := 58) (by decide)).append_shouts ((dumps_shouts ha hb v).append hrest)
    exact ((quote_quoted k).sober.append_shouts hvalue).mono Bool.and_eq_false_iff.mp

end

/-- The text that `json.dumps` makes of a value is JSON exactly if no number in
the value is a NaN or infinite. -/
theorem jsonText_dumps_iff (ha : Blank a) (hb : Blank b) (v : Value) :
    JsonText (dumps (44 :: a) (58 :: b) v) ↔ finite v = true := by
  constructor
  · intro h
    simpa using (dumps_shouts ha hb v).not_jsonText h
  · exact fun h ↦ (dumps_json ha hb v h).text

end Validity

section Ascii

open Rfc8259

theorem digits_ascii {s : Str} (h : ∀ c ∈ s, Digit c) : Ascii s :=
  fun c hc ↦ (h c hc).2.trans_lt (by decide)

theorem unsigned_ascii {s : Str} (h : Unsigned s) : Ascii s := by
  cases h with
  | mk hwhole hfraction hexponent =>
    refine ascii_append.mpr ⟨?_, ascii_append.mpr ⟨?_, ?_⟩⟩
    · cases hwhole with
      | zero => decide
      | digits hd _ hds => exact digits_ascii (List.forall_mem_cons.mpr ⟨hd, hds⟩)
    · cases hfraction with
      | absent => decide
      | digits _ hds => exact List.forall_mem_cons.mpr ⟨by decide, digits_ascii hds⟩
    · cases hexponent with
      | absent => decide
      | digits he hsign _ hds =>
        refine List.forall_mem_cons.mpr ⟨?_, ascii_append.mpr ⟨?_, digits_ascii hds⟩⟩
        · rcases he with rfl | rfl <;> decide
        · rcases hsign with rfl | rfl | rfl <;> decide

theorem number_ascii {s : Str} (h : Number s) : Ascii s := by
  cases h with
  | plain h => exact unsigned_ascii h
  | minus h => exact List.forall_mem_cons.mpr ⟨by decide, unsigned_ascii h⟩

theorem floatStr_ascii (f : PyFloat) : Ascii (floatStr f) := by
  cases f with
  | finite q => exact number_ascii (floatStr_number rfl)
  | negZero => decide
  | inf negative => cases negative <;> decide
  | nan => decide

theorem escapeAscii_ascii (c : ℕ) : Ascii (escapeAscii c) := by
  have hcode (c : ℕ) : Ascii (unicodeEscape c) := by
    have hdigit (n : ℕ) : hexDigit (n % 16) < 128 := by
      rw [hexDigit]
      split <;> omega
    simp only [Ascii, unicodeEscape, List.forall_mem_cons]
    exact ⟨by decide, by decide, hdigit _, hdigit _, hdigit _, hdigit _, List.forall_mem_nil _⟩
  unfold escapeAscii
  split
  iterate 7 decide
  · split
    · next hplain => exact List.forall_mem_singleton.mpr (by omega)
    · split
      · exact hcode c
      · exact ascii_append.mpr ⟨hcode _, hcode _⟩

theorem quote_ascii (s : Str) : Ascii (quote s) := by
  refine List.forall_mem_cons.mpr ⟨by decide, ascii_append.mpr ⟨fun c hc ↦ ?_, by decide⟩⟩
  obtain ⟨d, -, hd⟩ := List.mem_flatMap.mp hc
  exact escapeAscii_ascii d c hd

variable {comma colon : Str}

mutual

theorem dumps_ascii (hcomma : Ascii comma) (hcolon : Ascii colon) (v : Value) :
    Ascii (dumps comma colon v) := by
  cases v with
  | none => exact (by decide : Ascii (lit "null"))
  | bool b => cases b with
    | false => exact (by decide : Ascii (lit "false"))
    | true => exact (by decide : Ascii (lit "true"))
  | int i => exact number_ascii (decimalInt_number i)
  | float f => exact floatStr_ascii f
  | str s => exact quote_ascii s
  | list xs =>
    exact List.forall_mem_cons.mpr ⟨by decide,
      ascii_append.mpr ⟨dumpsList_ascii hcomma hcolon xs, by decide⟩⟩
  | dict es =>
    exact List.forall_mem_cons.mpr ⟨by decide,
      ascii_append.mpr ⟨dumpsDict_ascii hcomma hcolon es, by decide⟩⟩

theorem dumpsList_ascii (hcomma : Ascii comma) (hcolon : Ascii colon) (xs : List Value) :
    Ascii (dumpsList comma colon xs) := by
  match xs with
  | [] => exact List.forall_mem_nil _
  | [v] =>
    rw [dumpsList]
    exact dumps_ascii hcomma hcolon v
  | v :: w :: vs =>
    exact ascii_append.mpr ⟨dumps_ascii hcomma hcolon v,
      ascii_append.mpr ⟨hcomma, dumpsList_ascii hcomma hcolon (w :: vs)⟩⟩

theorem dumpsDict_ascii (hcomma : Ascii comma) (hcolon : Ascii colon) (es : List (Str × Value)) :
    Ascii (dumpsDict comma colon es) := by
  match es with
  | [] => exact List.forall_mem_nil _
  | [(k, v)] =>
    rw [dumpsDict]
    exact ascii_append.mpr ⟨quote_ascii k, ascii_append.mpr ⟨hcolon, dumps_ascii hcomma hcolon v⟩⟩
  | (k, v) :: e :: es =>
    exact ascii_append.mpr ⟨quote_ascii k, ascii_append.mpr ⟨hcolon,
      ascii_append.mpr ⟨dumps_ascii hcomma hcolon v,
        ascii_append.mpr ⟨hcomma, dumpsDict_ascii hcomma hcolon (e :: es)⟩⟩⟩⟩

end

end Ascii

end OpusFleet.Python
