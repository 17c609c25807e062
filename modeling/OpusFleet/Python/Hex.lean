import OpusFleet.Python.Json

namespace OpusFleet.Python

/-- `bytes.decode("ascii")`: `none` where Python raises UnicodeDecodeError. -/
def decodeAscii (bs : Bytes) : Option Str :=
  if bs.all (· < 128) then some (bs.map UInt8.toNat) else none

def isAsciiSpace (c : ℕ) : Bool := c == 32 || (9 ≤ c && c ≤ 13)

/-- `bytes.fromhex`: `none` where Python raises ValueError. -/
def fromHex : Str → Option Bytes
  | [] => some []
  | c :: s =>
    if isAsciiSpace c then fromHex s
    else
      match s with
      | [] => none
      | d :: s => do
        let hi ← Json.hexValue c
        let lo ← Json.hexValue d
        let bs ← fromHex s
        return UInt8.ofNat (16 * hi + lo) :: bs

theorem decodeAscii_ascii {s : Str} (h : Ascii s) : decodeAscii (s.map UInt8.ofNat) = some s := by
  have hall : (s.map UInt8.ofNat).all (· < 128) = true := by
    rw [List.all_map, List.all_eq_true]
    intro c hc
    simp only [Function.comp_apply, decide_eq_true_eq, UInt8.lt_iff_toNat_lt,
      toNat_ofNat_ascii (h c hc)]
    exact h c hc
  have hback : s.map (UInt8.toNat ∘ UInt8.ofNat) = s := by
    rw [List.map_congr_left (g := id), List.map_id]
    exact fun c hc ↦ toNat_ofNat_ascii (h c hc)
  rw [decodeAscii, if_pos hall, List.map_map, hback]

theorem hexValue_hexDigit {n : ℕ} (h : n < 16) : Json.hexValue (hexDigit n) = some n := by
  unfold Json.hexValue hexDigit
  by_cases hn : n < 10
  · rw [if_pos hn, if_pos (by omega)]
    congr 1
    omega
  · rw [if_neg hn, if_neg (by omega), if_neg (by omega), if_pos (by omega)]
    congr 1
    omega

theorem hexDigit_not_space {n : ℕ} (h : n < 16) : isAsciiSpace (hexDigit n) = false := by
  unfold isAsciiSpace hexDigit
  split <;> simp <;> omega

theorem fromHex_hex (bs : Bytes) : fromHex (hex bs) = some bs := by
  induction bs with
  | nil => rfl
  | cons b bs ih =>
    have hlt := b.toNat_lt
    have hcons : hex (b :: bs) = hexDigit (b.toNat / 16) :: hexDigit (b.toNat % 16) :: hex bs := rfl
    rw [hcons, fromHex.eq_def]
    simp only [hexDigit_not_space (show b.toNat / 16 < 16 by omega), Bool.false_eq_true, if_false,
      hexValue_hexDigit (show b.toNat / 16 < 16 by omega),
      hexValue_hexDigit (show b.toNat % 16 < 16 by omega), ih, Option.bind_eq_bind,
      Option.bind_some, Option.pure_def, Nat.div_add_mod, UInt8.ofNat_toNat]

end OpusFleet.Python
