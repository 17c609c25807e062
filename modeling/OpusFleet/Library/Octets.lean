import Mathlib.Data.List.Basic
import Mathlib.Data.Nat.Bitwise
import Mathlib.Tactic.Ring

namespace OpusFleet.Library.Octets

def packLE : ℕ → ℕ → List UInt8
  | 0, _ => []
  | k + 1, n => UInt8.ofNat n :: packLE k (n / 256)

def unpackLE : List UInt8 → ℕ
  | [] => 0
  | b :: bs => b.toNat + 256 * unpackLE bs

def packBE (k n : ℕ) : List UInt8 := (packLE k n).reverse

def unpackBE (bs : List UInt8) : ℕ := unpackLE bs.reverse

@[simp] theorem packLE_length (k n : ℕ) : (packLE k n).length = k := by
  induction k generalizing n with
  | zero => rfl
  | succ k ih => simp only [packLE, List.length_cons, ih]

@[simp] theorem packBE_length (k n : ℕ) : (packBE k n).length = k := by simp [packBE]

theorem unpackLE_packLE (k n : ℕ) (hn : n < 256 ^ k) : unpackLE (packLE k n) = n := by
  induction k generalizing n with
  | zero => simp only [packLE, unpackLE]; omega
  | succ k ih =>
    have hd : n / 256 < 256 ^ k := by rw [Nat.pow_succ] at hn; omega
    simp only [packLE, unpackLE, ih _ hd, UInt8.toNat_ofNat']
    omega

theorem shift_or (hi lo : UInt8) : hi.toNat <<< 8 ||| lo.toNat = hi.toNat * 256 + lo.toNat := by
  rw [← Nat.shiftLeft_add_eq_or_of_lt (i := 8) lo.toNat_lt, Nat.shiftLeft_eq]

theorem packBE_two (n : ℕ) : packBE 2 n = [UInt8.ofNat (n / 256), UInt8.ofNat n] := rfl

end OpusFleet.Library.Octets
