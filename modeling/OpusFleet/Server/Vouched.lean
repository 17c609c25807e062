import OpusFleet.Server.Provisioning
import OpusFleet.Server.Recordings
import OpusFleet.Server.Rollout

namespace OpusFleet.Server

open Python Library Protocol Auth Library.Runs Library.Incremental

section Authed

variable {limit : ℕ} {peer : Peer} {id imei : Str}

end Authed

section Credentials

variable {env : Env} {registry : Registry} {nonce : Nonce} {peer : Peer}
    {payload leftover : Bytes} {id : Str}

/-- An AUTH frame for `id` with the MAC of the nonce under the key that the registry holds. -/
def Credentials (env : Env) (registry : Registry) (nonce : Nonce) (payload : Bytes)
    (id : Str) : Prop :=
  ∃ mac key, startsWith payload authPrefix = true ∧ parseAuth payload = .ok (id, mac) ∧
    registry id = .ok (some key) ∧ key ≠ [] ∧ lower mac = sign env.hmac key nonce

theorem Credentials.unique {id' : Str} (h : Credentials env registry nonce payload id)
    (h' : Credentials env registry nonce payload id') : id' = id := by
  obtain ⟨mac, key, -, hparse, -⟩ := h
  obtain ⟨mac', key', -, hparse', -⟩ := h'
  exact (Prod.mk.inj (Except.ok.inj (hparse'.symm.trans hparse))).1

theorem Credentials.verify {mac : Str} {key : Bytes} (hkey : key ≠ []) (hstrip : strip mac = mac)
    (hsign : lower mac = sign env.hmac key nonce) : verify env.hmac key nonce mac = true := by
  have hlength := congrArg List.length hsign
  rw [(sign_clean env.hmac key nonce).2, lower, List.length_map] at hlength
  have hne : mac ≠ [] := by
    rintro rfl
    cases hlength
  exact (verify_iff _ _ _ _).mpr ⟨hkey, hne, hlength, by rw [hstrip, hsign]⟩

end Credentials

section Alone

variable {env : Env} {peer : Peer} {nonce : Nonce} {ing ing' : Ingest} {phase : Phase}
    {ins : List Input} {id : Str}

end Alone

section Vouched

variable {env : Env} {maxConcurrent maxPerMinute : ℤ} {events : List Event} {s : System} {id : Str}

namespace Segmenter

variable {κ : Type} [DecidableEq κ] {part : Bytes → κ} {c : Env}

end Segmenter

end Vouched

end OpusFleet.Server
