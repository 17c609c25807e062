import Mathlib.Data.NNRat.Defs
import OpusFleet.Python.Floats
import OpusFleet.Server.Protocol

namespace OpusFleet.Server

open Python Library

/-- A reading of `time.time()`: seconds since the epoch. -/
abbrev Time := ℚ≥0

namespace Auth

inductive Mode
  | disabled
  | optional
  | required
  deriving DecidableEq

def nonceBytes : ℕ := 16
def macHexLen : ℕ := 64

abbrev Nonce := {bs : Bytes // bs.length = nonceBytes}

/-- HMAC-SHA256 as an opaque function of key and message with a 32-byte digest. -/
structure Hmac where
  digest : Bytes → Bytes → Bytes
  digest_length : ∀ key message, (digest key message).length = 32

def Hmac.echo : Hmac where
  digest _ message := (message ++ List.replicate 32 0).take 32
  digest_length _ message := by simp

def sign (hmac : Hmac) (key nonce : Bytes) : Str := hex (hmac.digest key nonce)

def verify (hmac : Hmac) (key nonce : Bytes) (response : Str) : Bool :=
  if key = [] ∨ response = [] ∨ response.length ≠ macHexLen then false
  else sign hmac key nonce = lower (strip response)

/-- What `DeviceRegistry.get` does with an id at one moment: the key if there is one. -/
abbrev Registry := Str → Except Exc (Option Bytes)

structure ConnectionLimiter where
  maxConcurrent : ℤ
  maxPerMinute : ℤ
  live : Dict Str ℕ
  recent : Dict Str (List Time)
  rejected : ℕ

/-- `now - t > 60`, with the difference of two doubles. -/
def expired (now t : Time) : Bool := PyFloat.lt (.finite 60) (.sub (.finite now) (.finite t))

namespace ConnectionLimiter

/-- `allow(ip, now)`, where `now` is the reading the source falls back on when it gets none. -/
def allow (l : ConnectionLimiter) (ip : Str) (now : Time) : ConnectionLimiter × Bool × Str :=
  let window := ((l.recent.get ip).getD []).dropWhile (expired now)
  let live := (l.live.get ip).getD 0
  let l := { l with live := l.live.set ip live, recent := l.recent.set ip window }
  if l.maxConcurrent ≤ (live : ℤ) then
    ({ l with rejected := l.rejected + 1 }, false,
      lit "too many concurrent connections from " ++ ip)
  else if l.maxPerMinute ≤ (window.length : ℤ) then
    ({ l with rejected := l.rejected + 1 }, false, lit "connection rate exceeded from " ++ ip)
  else
    ({ l with recent := l.recent.set ip (window ++ [now]), live := l.live.set ip (live + 1) },
      true, [])

def release (l : ConnectionLimiter) (ip : Str) : ConnectionLimiter :=
  match l.live.get ip with
  | none | some 0 => l
  | some 1 => { l with live := l.live.pop ip }
  | some (n + 2) => { l with live := l.live.set ip (n + 1) }

end ConnectionLimiter

theorem verify_iff (hmac : Hmac) (key nonce : Bytes) (response : Str) :
    verify hmac key nonce response = true ↔ key ≠ [] ∧ response ≠ [] ∧
      response.length = macHexLen ∧ sign hmac key nonce = lower (strip response) := by
  unfold verify
  by_cases h : key = [] ∨ response = [] ∨ response.length ≠ macHexLen
  · simp only [if_pos h, Bool.false_eq_true, false_iff]
    tauto
  · simp only [if_neg h, decide_eq_true_eq]
    tauto

theorem hexDigit_inj {m n : ℕ} (hm : m < 16) (hn : n < 16) (h : hexDigit m = hexDigit n) :
    m = n := by
  unfold hexDigit at h
  split at h <;> split at h <;> omega

theorem hex_inj {a b : Bytes} (h : hex a = hex b) : a = b := by
  induction a generalizing b with
  | nil => cases b with
    | nil => rfl
    | cons y b => simp [hex] at h
  | cons x a ih => cases b with
    | nil => simp [hex] at h
    | cons y b =>
      simp only [hex, List.flatMap_cons, List.cons_append, List.nil_append, List.cons.injEq] at h
      obtain ⟨h₁, h₂, h₃⟩ := h
      have hx := x.toNat_lt
      have hy := y.toNat_lt
      have hd := hexDigit_inj (by omega) (by omega) h₁
      have hm := hexDigit_inj (by omega) (by omega) h₂
      have he : x = y := UInt8.toNat_inj.mp (by omega)
      rw [he, ih h₃]

end Auth

end OpusFleet.Server
