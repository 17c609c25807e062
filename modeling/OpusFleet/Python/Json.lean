import Mathlib.Data.List.TakeDrop
import Mathlib.Data.Rat.Defs
import Mathlib.Algebra.Order.Ring.Unbundled.Rat
import OpusFleet.Python.Text
import OpusFleet.Library.Dict

namespace OpusFleet.Python

open Library

/-- A Python float by the number it stands for. -/
inductive PyFloat
  | finite (q : ℚ)
  | negZero
  | inf (negative : Bool)
  | nan
  deriving DecidableEq

/-- The values `json.loads` returns. A dict keeps its keys in order of insertion. -/
inductive Value
  | none
  | bool (b : Bool)
  | int (i : ℤ)
  | float (f : PyFloat)
  | str (s : Str)
  | list (xs : List Value)
  | dict (entries : List (Str × Value))

/-- `loads` fails with a ValueError, or with a RecursionError on text nested too deep. -/
inductive JsonError
  | value
  | recursion
  deriving DecidableEq

namespace Json

section Float

def roundHalfEven (num den : ℕ) : ℕ :=
  if 2 * (num % den) < den then num / den
  else if den < 2 * (num % den) then num / den + 1
  else num / den + num / den % 2

/-- The double nearest to `num / den`, `none` past the largest finite one. -/
def nearestDouble (num den : ℕ) : Option ℚ :=
  let l : ℤ := Nat.log2 num - Nat.log2 den
  let below : Bool := if 0 ≤ l then num < den * 2 ^ l.toNat else num * 2 ^ (-l).toNat < den
  let e : ℤ := max (if below then l - 53 else l - 52) (-1074)
  let m := if 0 ≤ e then roundHalfEven num (den * 2 ^ e.toNat)
    else roundHalfEven (num * 2 ^ (-e).toNat) den
  if 0 ≤ e ∧ 2 ^ 1024 ≤ m * 2 ^ e.toNat then none
  else some (if 0 ≤ e then m * 2 ^ e.toNat else mkRat m (2 ^ (-e).toNat))

/-- `float(text)` for the decimal `± m * 10 ^ e`. -/
def toFloat (negative : Bool) (m : ℕ) (e : ℤ) : PyFloat :=
  let size : ℤ := (Nat.digits 10 m).length + e
  if m = 0 ∨ size < -400 then if negative then .negZero else .finite 0
  else if 400 < size then .inf negative
  else
    match nearestDouble (m * 10 ^ e.toNat) (10 ^ (-e).toNat) with
    | none => .inf negative
    | some q => if q = 0 ∧ negative then .negZero else .finite (if negative then -q else q)

end Float

section Scan

def isDigit (c : ℕ) : Bool := 48 ≤ c && c ≤ 57

def digitsValue (ds : Str) : ℕ := ds.foldl (fun n d ↦ 10 * n + (d - 48)) 0

def hexValue (c : ℕ) : Option ℕ :=
  if 48 ≤ c ∧ c ≤ 57 then some (c - 48)
  else if 65 ≤ c ∧ c ≤ 70 then some (c - 55)
  else if 97 ≤ c ∧ c ≤ 102 then some (c - 87)
  else none

def escaped (c : ℕ) : Option ℕ :=
  match c with
  | 34 | 92 | 47 => some c
  | 98 => some 8
  | 102 => some 12
  | 110 => some 10
  | 114 => some 13
  | 116 => some 9
  | _ => none

def scanString : Str → Option (Str × Str)
  | [] => none
  | 34 :: rest => some ([], rest)
  | 92 :: 117 :: a :: b :: c :: d :: rest => do
    let code := (← hexValue a) * 4096 + (← hexValue b) * 256 + (← hexValue c) * 16 + (← hexValue d)
    let (t, rest) ← scanString rest
    return (code :: t, rest)
  | 92 :: c :: rest => do
    let code ← escaped c
    let (t, rest) ← scanString rest
    return (code :: t, rest)
  | c :: rest =>
    if c < 32 then none
    else do
      let (t, rest) ← scanString rest
      return (c :: t, rest)

/-- An escaped high surrogate and the low one after it are one character. -/
def mergeSurrogates : Str → Str
  | hi :: lo :: rest =>
    if 0xD800 ≤ hi ∧ hi ≤ 0xDBFF ∧ 0xDC00 ≤ lo ∧ lo ≤ 0xDFFF then
      (0x10000 + (hi - 0xD800) * 1024 + (lo - 0xDC00)) :: mergeSurrogates rest
    else hi :: mergeSurrogates (lo :: rest)
  | s => s

def maxStrDigits : ℕ := 4300

def scanFraction : Str → Str × Str
  | 46 :: rest =>
    if (rest.takeWhile isDigit).isEmpty then ([], 46 :: rest) else rest.span isDigit
  | s => ([], s)

def scanSign : Str → Bool × Str
  | 45 :: rest => (true, rest)
  | 43 :: rest => (false, rest)
  | s => (false, s)

def scanExponent : Str → Option ℤ × Str
  | c :: rest =>
    let signed := scanSign rest
    let ds := signed.2.takeWhile isDigit
    if (c = 101 ∨ c = 69) ∧ ¬ ds.isEmpty then
      (some (if signed.1 then -(digitsValue ds : ℤ) else digitsValue ds),
        signed.2.dropWhile isDigit)
    else (none, c :: rest)
  | [] => (none, [])

def scanNumber (negative : Bool) (s : Str) : Option (Value × Str) :=
  let whole := if s.head? = some 48 then [48] else s.takeWhile isDigit
  let (fraction, rest) := scanFraction (s.drop whole.length)
  let (exponent, rest) := scanExponent rest
  if whole.isEmpty then none
  else if fraction.isEmpty ∧ exponent.isNone then
    if maxStrDigits < whole.length then none
    else some (.int (if negative then -(digitsValue whole : ℤ) else digitsValue whole), rest)
  else
    some (.float (toFloat negative (digitsValue (whole ++ fraction))
      (exponent.getD 0 - fraction.length)), rest)

inductive Token
  | openList | closeList | openDict | closeDict | colon | comma
  | string (s : Str)
  | scalar (v : Value)
  | bad

def isBlank (c : ℕ) : Bool := c == 32 || c == 9 || c == 10 || c == 13

def after (word : String) (s : Str) : Option Str :=
  if (lit word).isPrefixOf s then some (s.drop word.length) else none

def scanToken (c : ℕ) (rest : Str) : Token × Str :=
  match c with
  | 91 => (.openList, rest)
  | 93 => (.closeList, rest)
  | 123 => (.openDict, rest)
  | 125 => (.closeDict, rest)
  | 58 => (.colon, rest)
  | 44 => (.comma, rest)
  | 34 => match scanString rest with
    | some (s, rest) => (.string (mergeSurrogates s), rest)
    | none => (.bad, [])
  | _ =>
    match after "null" (c :: rest), after "true" (c :: rest), after "false" (c :: rest),
        after "NaN" (c :: rest), after "Infinity" (c :: rest), after "-Infinity" (c :: rest) with
    | some rest, _, _, _, _, _ => (.scalar .none, rest)
    | _, some rest, _, _, _, _ => (.scalar (.bool true), rest)
    | _, _, some rest, _, _, _ => (.scalar (.bool false), rest)
    | _, _, _, some rest, _, _ => (.scalar (.float .nan), rest)
    | _, _, _, _, some rest, _ => (.scalar (.float (.inf false)), rest)
    | _, _, _, _, _, some rest => (.scalar (.float (.inf true)), rest)
    | _, _, _, _, _, _ =>
      match scanNumber (c == 45) (if c = 45 then rest else c :: rest) with
      | some (v, rest) => (.scalar v, rest)
      | none => (.bad, [])

theorem scanString_length {s t rest : Str} (h : scanString s = some (t, rest)) :
    rest.length ≤ s.length := by
  fun_induction scanString s generalizing t rest with
  | case1 => simp at h
  | case2 => simp_all
  | case3 a b c d s ih =>
    simp only [Option.pure_def, Option.bind_eq_bind, Option.bind_eq_some_iff] at h
    obtain ⟨_, _, _, _, _, _, _, _, ⟨u, r⟩, hr, he⟩ := h
    simp only [Option.some.injEq, Prod.mk.injEq] at he
    have hl := ih hr
    simp only [List.length_cons, ← he.2]
    omega
  | case4 c s _ ih =>
    simp only [Option.pure_def, Option.bind_eq_bind, Option.bind_eq_some_iff] at h
    obtain ⟨_, _, ⟨u, r⟩, hr, he⟩ := h
    simp only [Option.some.injEq, Prod.mk.injEq] at he
    have hl := ih hr
    simp only [List.length_cons, ← he.2]
    omega
  | case5 => simp at h
  | case6 c s _ _ _ _ ih =>
    simp only [Option.pure_def, Option.bind_eq_bind, Option.bind_eq_some_iff] at h
    obtain ⟨⟨u, r⟩, hr, he⟩ := h
    simp only [Option.some.injEq, Prod.mk.injEq] at he
    have hl := ih hr
    simp only [List.length_cons, ← he.2]
    omega

theorem scanFraction_length (s : Str) : (scanFraction s).2.length ≤ s.length := by
  unfold scanFraction
  split
  · split
    · exact Nat.le_refl _
    · rw [List.span_eq_takeWhile_dropWhile]
      exact (List.dropWhile_suffix _).length_le.trans (Nat.le_succ _)
  · exact Nat.le_refl _

theorem scanSign_length (s : Str) : (scanSign s).2.length ≤ s.length := by
  unfold scanSign
  split <;> simp

theorem scanExponent_length (s : Str) : (scanExponent s).2.length ≤ s.length := by
  unfold scanExponent
  split
  · next c rest =>
    dsimp only
    split
    · exact ((List.dropWhile_suffix _).length_le.trans (scanSign_length rest)).trans (Nat.le_succ _)
    · exact Nat.le_refl _
  · exact Nat.le_refl _

theorem scanNumber_length {negative : Bool} {s rest : Str} {v : Value}
    (h : scanNumber negative s = some (v, rest)) : rest.length < s.length := by
  unfold scanNumber at h
  dsimp only at h
  generalize hw : (if s.head? = some 48 then [48] else s.takeWhile isDigit) = whole at h
  have hle := (scanExponent_length (scanFraction (s.drop whole.length)).2).trans
    (scanFraction_length (s.drop whole.length))
  have hs : s ≠ [] → whole ≠ [] → (s.drop whole.length).length < s.length := by
    intro hs hne
    have h₁ := List.length_pos_of_ne_nil hs
    have h₂ := List.length_pos_of_ne_nil hne
    rw [List.length_drop]
    omega
  have hrest : rest = (scanExponent (scanFraction (s.drop whole.length)).2).2 ∧ whole ≠ [] := by
    split at h
    · simp at h
    · next hne =>
      refine ⟨?_, by simpa using hne⟩
      split at h
      · split at h
        · simp at h
        · simp_all
      · simp_all
  have hne : s ≠ [] := by
    rintro rfl
    simp at hw
    exact hrest.2 hw
  rw [hrest.1]
  exact hle.trans_lt (hs hne hrest.2)

theorem after_length {word : String} {c : ℕ} {rest s : Str}
    (h : after word (c :: rest) = some s) (hw : word.length ≠ 0) : s.length ≤ rest.length := by
  unfold after at h
  split at h
  · simp only [Option.some.injEq] at h
    rw [← h, List.length_drop, List.length_cons]
    omega
  · simp at h

theorem scanToken_length (c : ℕ) (rest : Str) : (scanToken c rest).2.length ≤ rest.length := by
  unfold scanToken
  split
  iterate 6 exact Nat.le_refl _
  · split
    · next h => exact scanString_length h
    · exact Nat.zero_le _
  · split
    iterate 6 exact after_length ‹_› (by decide)
    · split
      · next h =>
        have hl := scanNumber_length h
        dsimp only
        split at hl
        · omega
        · rw [List.length_cons] at hl
          omega
      · exact Nat.zero_le _

end Scan

def tokenize (s : Str) : List Token :=
  match _hs : s.dropWhile isBlank with
  | [] => []
  | c :: rest => (scanToken c rest).1 :: tokenize (scanToken c rest).2
termination_by s.length
decreasing_by
  have h₁ := (List.dropWhile_suffix (l := s) isBlank).length_le
  have h₂ := scanToken_length c rest
  rw [_hs, List.length_cons] at h₁
  omega

theorem tokenize_nil : tokenize [] = [] := by
  rw [tokenize]
  rfl

theorem tokenize_cons {s rest rest' : Str} {c : ℕ} {t : Token}
    (hs : s.dropWhile isBlank = c :: rest)
    (ht : scanToken c rest = (t, rest')) : tokenize s = t :: tokenize rest' := by
  rw [tokenize]
  split
  · next h => simp [hs] at h
  · next h =>
    obtain ⟨rfl, rfl⟩ : _ = c ∧ _ = rest := by simpa using h.symm.trans hs
    rw [ht]

theorem tokenize_last {s : Str} {c : ℕ} {t : Token} (hs : s.dropWhile isBlank = [c])
    (ht : scanToken c [] = (t, [])) : tokenize s = [t] := by
  rw [tokenize_cons hs ht, tokenize_nil]

theorem tokenize_member {name rest : Str}
    (h : scanString (name ++ lit "\":" ++ rest) = some (name, lit ":" ++ rest))
    (hplain : mergeSurrogates name = name) :
    tokenize (lit "\x7b\"" ++ name ++ lit "\":" ++ rest) =
      .openDict :: .string name :: .colon :: tokenize rest := by
  have hopen : scanToken 123 (34 :: (name ++ lit "\":" ++ rest)) =
      (.openDict, 34 :: (name ++ lit "\":" ++ rest)) := rfl
  have hname : scanToken 34 (name ++ lit "\":" ++ rest) = (.string name, 58 :: rest) := by
    simp only [scanToken, h, hplain]
    rfl
  have hcolon : scanToken 58 rest = (.colon, rest) := rfl
  rw [tokenize_cons rfl hopen, tokenize_cons rfl hname, tokenize_cons rfl hcolon]

inductive Frame
  | list (xs : List Value)
  | dict (entries : List (Str × Value)) (key : Str)

inductive Want
  | value
  | valueOrClose
  | key
  | keyOrClose
  | colon
  | commaOrClose
  | finish (v : Value)

def deliver (v : Value) : List Frame → Want × List Frame
  | [] => (.finish v, [])
  | .list xs :: stack => (.commaOrClose, .list (xs ++ [v]) :: stack)
  | .dict entries key :: stack => (.commaOrClose, .dict (Assoc.set entries key v) key :: stack)

/-- The decoder, with at most `limit` containers open at a time. -/
def decodeTokens (limit : ℕ) : List Token → Want → List Frame → Except JsonError Value
  | [], .finish v, _ => .ok v
  | [], _, _ => .error .value
  | t :: ts, want, stack =>
    match want, t, stack with
    | .value, .scalar v, _ | .valueOrClose, .scalar v, _ =>
      decodeTokens limit ts (deliver v stack).1 (deliver v stack).2
    | .value, .string s, _ | .valueOrClose, .string s, _ =>
      decodeTokens limit ts (deliver (.str s) stack).1 (deliver (.str s) stack).2
    | .value, .openList, _ | .valueOrClose, .openList, _ =>
      if stack.length < limit then decodeTokens limit ts .valueOrClose (.list [] :: stack)
      else .error .recursion
    | .value, .openDict, _ | .valueOrClose, .openDict, _ =>
      if stack.length < limit then decodeTokens limit ts .keyOrClose (.dict [] [] :: stack)
      else .error .recursion
    | .valueOrClose, .closeList, .list xs :: outer | .commaOrClose, .closeList, .list xs :: outer =>
      decodeTokens limit ts (deliver (.list xs) outer).1 (deliver (.list xs) outer).2
    | .keyOrClose, .closeDict, .dict entries _ :: outer
    | .commaOrClose, .closeDict, .dict entries _ :: outer =>
      decodeTokens limit ts (deliver (.dict entries) outer).1 (deliver (.dict entries) outer).2
    | .commaOrClose, .comma, .list _ :: _ => decodeTokens limit ts .value stack
    | .commaOrClose, .comma, .dict _ _ :: _ => decodeTokens limit ts .key stack
    | .key, .string s, .dict entries _ :: outer | .keyOrClose, .string s,
      .dict entries _ :: outer =>
      decodeTokens limit ts .colon (.dict entries s :: outer)
    | .colon, .colon, _ => decodeTokens limit ts .value stack
    | _, _, _ => .error .value

end Json

/-- `json.loads` on text, where `limit` is how deep the interpreter may recurse. -/
def loads (limit : ℕ) (s : Str) : Except JsonError Value :=
  Json.decodeTokens limit (Json.tokenize s) .value []

end OpusFleet.Python
