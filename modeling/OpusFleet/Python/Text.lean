import Mathlib.Data.List.DropRight
import Mathlib.Data.Nat.Digits.Defs
import OpusFleet.Library.Octets

namespace OpusFleet.Python

abbrev Bytes := List UInt8

/-- A Python `str`: its code points, lone surrogates included. -/
abbrev Str := List ℕ

def lit (s : String) : Str := s.toList.map Char.toNat

def ascii (s : String) : Bytes := s.toList.map Char.toUInt8

def startsWith (payload head : Bytes) : Bool := head.isPrefixOf payload

def decodeAsciiIgnore (bs : Bytes) : Str := (bs.map UInt8.toNat).filter (· < 128)

def isSpace (c : ℕ) : Bool :=
  (9 ≤ c && c ≤ 13) || (28 ≤ c && c ≤ 32) || c == 0x85 || c == 0xA0 || c == 0x1680 ||
    (0x2000 ≤ c && c ≤ 0x200A) || c == 0x2028 || c == 0x2029 || c == 0x202F || c == 0x205F ||
    c == 0x3000

def strip (s : Str) : Str := (s.dropWhile isSpace).rdropWhile isSpace

/-- `str.lower` on ASCII letters; the code only lowers text that `decodeAsciiIgnore` gave. -/
def lower (s : Str) : Str := s.map fun c ↦ if 65 ≤ c ∧ c ≤ 90 then c + 32 else c

/-- `s.split(sep, 1)` for an `s` that contains `sep`. -/
def splitOnce (sep : ℕ) (s : Str) : Str × Str :=
  (s.takeWhile (· != sep), (s.dropWhile (· != sep)).tail)

def hexDigit (n : ℕ) : ℕ := if n < 10 then 48 + n else 87 + n

def hex (bs : Bytes) : Str := bs.flatMap fun b ↦ [hexDigit (b.toNat / 16), hexDigit (b.toNat % 16)]

def decimal (n : ℕ) : Str :=
  if n = 0 then [48] else (Nat.digits 10 n).reverse.map (48 + ·)

def decimalInt (n : ℤ) : Str := if n < 0 then 45 :: decimal n.natAbs else decimal n.natAbs

def encodeChar (c : ℕ) : Bytes :=
  if c < 0x80 then [UInt8.ofNat c]
  else if c < 0x800 then [UInt8.ofNat (0xC0 + c / 64), UInt8.ofNat (0x80 + c % 64)]
  else if c < 0x10000 then
    [UInt8.ofNat (0xE0 + c / 4096), UInt8.ofNat (0x80 + c / 64 % 64), UInt8.ofNat (0x80 + c % 64)]
  else
    [UInt8.ofNat (0xF0 + c / 262144), UInt8.ofNat (0x80 + c / 4096 % 64),
      UInt8.ofNat (0x80 + c / 64 % 64), UInt8.ofNat (0x80 + c % 64)]

/-- `str.encode()`. A lone surrogate makes Python raise; no key or id the code encodes has one. -/
def encode (s : Str) : Bytes := s.flatMap encodeChar

def continuation (b : UInt8) : Bool := 0x80 ≤ b && b ≤ 0xBF

/-- `bytes.decode()`: strict UTF-8, `none` where Python raises UnicodeDecodeError. -/
def decode : Bytes → Option Str
  | [] => some []
  | a :: rest =>
    if a < 0x80 then (decode rest).map (a.toNat :: ·)
    else match rest with
      | [] => none
      | b :: rest =>
        if 0xC2 ≤ a ∧ a ≤ 0xDF then
          if continuation b then
            (decode rest).map (((a.toNat - 0xC0) * 64 + (b.toNat - 0x80)) :: ·)
          else none
        else match rest with
          | [] => none
          | c :: rest =>
            if 0xE0 ≤ a ∧ a ≤ 0xEF then
              if continuation b ∧ continuation c ∧ (a = 0xE0 → 0xA0 ≤ b) ∧
                (a = 0xED → b ≤ 0x9F) then
                (decode rest).map
                  (((a.toNat - 0xE0) * 4096 + (b.toNat - 0x80) * 64 + (c.toNat - 0x80)) :: ·)
              else none
            else match rest with
              | [] => none
              | d :: rest =>
                if 0xF0 ≤ a ∧ a ≤ 0xF4 ∧ continuation b ∧ continuation c ∧ continuation d ∧
                    (a = 0xF0 → 0x90 ≤ b) ∧ (a = 0xF4 → b ≤ 0x8F) then
                  (decode rest).map
                    (((a.toNat - 0xF0) * 262144 + (b.toNat - 0x80) * 4096 + (c.toNat - 0x80) * 64 +
                      (d.toNat - 0x80)) :: ·)
                else none

example : decode (encode (lit "é€😀")) = some (lit "é€😀") := by decide +kernel

theorem mem_decimal {n c : ℕ} (h : c ∈ decimal n) : 48 ≤ c ∧ c ≤ 57 := by
  rw [decimal] at h
  split at h
  · obtain rfl := List.mem_singleton.mp h
    decide
  · obtain ⟨d, hd, rfl⟩ := List.mem_map.mp h
    have hlt : d < 10 := Nat.digits_lt_base (by decide) (List.mem_reverse.mp hd)
    omega

def ofDecimal (s : Str) : ℕ := Nat.ofDigits 10 (s.map (· - 48)).reverse

theorem ofDecimal_decimal (n : ℕ) : ofDecimal (decimal n) = n := by
  rw [ofDecimal, decimal]
  split
  · next h => exact h.symm
  · have hsub : (· - 48) ∘ (48 + ·) = (id : ℕ → ℕ) := funext fun d ↦ Nat.add_sub_cancel_left 48 d
    rw [List.map_map, hsub, List.map_id, List.reverse_reverse, Nat.ofDigits_digits]

theorem decimal_injective : Function.Injective decimal :=
  Function.LeftInverse.injective ofDecimal_decimal

theorem mem_decimalInt {n : ℤ} {c : ℕ} (h : c ∈ decimalInt n) : c ≤ 57 := by
  rw [decimalInt] at h
  split at h
  · rcases List.mem_cons.mp h with rfl | h
    · decide
    · exact (mem_decimal h).2
  · exact (mem_decimal h).2

theorem slash_notMem_decimalInt (n : ℤ) : 47 ∉ decimalInt n := by
  have hslash (n : ℕ) : 47 ∉ decimal n := fun h ↦ absurd (mem_decimal h).1 (by decide)
  rw [decimalInt]
  split <;> simp [hslash]

theorem decimalInt_injective : Function.Injective decimalInt := by
  have hminus (n : ℕ) : 45 ∉ decimal n := fun h ↦ absurd (mem_decimal h).1 (by decide)
  intro m n h
  simp only [decimalInt] at h
  split at h <;> split at h
  · have habs := decimal_injective (List.cons_injective h)
    omega
  · exact absurd (h ▸ List.mem_cons_self) (hminus _)
  · exact absurd (h ▸ List.mem_cons_self) (hminus _)
  · have habs := decimal_injective h
    omega

section Ascii

def Ascii (s : Str) : Prop := ∀ c ∈ s, c < 128

instance (s : Str) : Decidable (Ascii s) := inferInstanceAs (Decidable (∀ c ∈ s, c < 128))

variable {s : Str}

theorem Ascii.cons {c : ℕ} (h : Ascii (c :: s)) : c < 128 ∧ Ascii s :=
  ⟨h c (by simp), fun d hd ↦ h d (by simp [hd])⟩

theorem ascii_append {t : Str} : Ascii (s ++ t) ↔ Ascii s ∧ Ascii t := by
  simp only [Ascii, List.mem_append, or_imp, forall_and]

theorem toNat_ofNat_ascii {c : ℕ} (h : c < 128) : (UInt8.ofNat c).toNat = c := by
  rw [UInt8.toNat_ofNat']
  omega

theorem decodeAsciiIgnore_ascii (h : Ascii s) : decodeAsciiIgnore (s.map UInt8.ofNat) = s := by
  induction s with
  | nil => rfl
  | cons c s ih =>
    obtain ⟨hc, hs⟩ := h.cons
    have htail := ih hs
    simp only [decodeAsciiIgnore, List.map_map] at htail ⊢
    simp [toNat_ofNat_ascii hc, hc, htail]

theorem encode_ascii (h : Ascii s) : encode s = s.map UInt8.ofNat := by
  induction s with
  | nil => rfl
  | cons c s ih =>
    obtain ⟨hc, hs⟩ := h.cons
    have hchar : encodeChar c = [UInt8.ofNat c] := if_pos hc
    rw [encode, List.flatMap_cons, hchar, ← encode, ih hs]
    rfl

theorem decode_ascii (h : Ascii s) : decode (s.map UInt8.ofNat) = some s := by
  induction s with
  | nil => rfl
  | cons c s ih =>
    obtain ⟨hc, hs⟩ := h.cons
    have hlt : UInt8.ofNat c < 0x80 := by
      rw [UInt8.lt_iff_toNat_lt, toNat_ofNat_ascii hc]
      exact hc
    rw [List.map_cons, decode.eq_def]
    simp only [if_pos hlt, ih hs, toNat_ofNat_ascii hc, Option.map_some]

theorem mem_hex {bs : Bytes} {c : ℕ} (h : c ∈ hex bs) :
    48 ≤ c ∧ c ≤ 57 ∨ 97 ≤ c ∧ c ≤ 102 := by
  obtain ⟨b, -, hb⟩ := List.mem_flatMap.mp h
  have hlt := b.toNat_lt
  have hdigit {n : ℕ} (hn : n < 16) : 48 ≤ hexDigit n ∧ hexDigit n ≤ 57 ∨
      97 ≤ hexDigit n ∧ hexDigit n ≤ 102 := by
    unfold hexDigit
    split <;> omega
  rcases List.mem_cons.mp hb with rfl | hb
  · exact hdigit (by omega)
  · obtain rfl := List.mem_singleton.mp hb
    exact hdigit (by omega)

theorem decode_encode (h : Ascii s) : decode (encode s) = some s := by
  rw [encode_ascii h, decode_ascii h]

theorem hex_ascii (bs : Bytes) : Ascii (hex bs) := by
  intro c hc
  have h := mem_hex hc
  omega

theorem hex_length (bs : Bytes) : (hex bs).length = 2 * bs.length := by
  induction bs with
  | nil => rfl
  | cons b bs ih =>
    have htail : (hex (b :: bs)).length = 2 + (hex bs).length := by
      simp only [hex, List.flatMap_cons, List.length_append]
      rfl
    rw [htail, ih, List.length_cons]
    omega

end Ascii

section Strip

theorem strip_length_le (s : Str) : (strip s).length ≤ s.length :=
  ((List.rdropWhile_prefix _ _).length_le).trans (List.dropWhile_suffix _).length_le

theorem mem_strip {s : Str} {c : ℕ} (h : c ∈ strip s) : c ∈ s :=
  (List.dropWhile_suffix _).subset ((List.rdropWhile_prefix _ _).subset h)

theorem strip_eq_self {s : Str} (h : ∀ c ∈ s, isSpace c = false) : strip s = s := by
  have hhead : s.dropWhile isSpace = s := by
    rw [List.dropWhile_eq_self_iff]
    intro hl
    simp [h _ (List.getElem_mem hl)]
  rw [strip, hhead, List.rdropWhile_eq_self_iff]
  intro hl
  simp [h _ (List.getLast_mem hl)]

theorem strip_hex (bs : Bytes) : strip (hex bs) = hex bs := by
  apply strip_eq_self
  intro c hc
  have h := mem_hex hc
  simp only [isSpace, Bool.or_eq_false_iff, Bool.and_eq_false_iff, decide_eq_false_iff_not,
    beq_eq_false_iff_ne]
  omega

theorem lower_hex (bs : Bytes) : lower (hex bs) = hex bs := by
  rw [lower, List.map_congr_left (g := id), List.map_id]
  intro c hc
  have h := mem_hex hc
  exact if_neg (by omega)

theorem strip_idem (s : Str) : strip (strip s) = strip s := by
  have hhead : (strip s).dropWhile isSpace = strip s := by
    rw [List.dropWhile_eq_self_iff]
    intro hl
    have hp : strip s <+: s.dropWhile isSpace := List.rdropWhile_prefix _ _
    have hne : s.dropWhile isSpace ≠ [] := by
      intro h
      rw [h, List.prefix_nil] at hp
      simp [hp] at hl
    have hg : (strip s)[0] = (s.dropWhile isSpace).head hne := by
      rw [hp.getElem hl, List.head_eq_getElem]
    rw [hg, List.head_dropWhile_not isSpace hne]
    exact Bool.false_ne_true
  have h : strip (strip s) = (strip s).rdropWhile isSpace := congrArg _ hhead
  rw [h]
  exact List.rdropWhile_idempotent _ _

end Strip

end OpusFleet.Python
