import OpusFleet.Server.Recordings
import OpusFleet.Sim.Answers
import OpusFleet.Sim.Counts

namespace OpusFleet.Sim

open Python Library Server Server.Protocol

/-- The packets of the clip that went out: frame number `k` holds packet `k`
of the clip, around and around. -/
def SimDevice.played (dev : SimDevice) (s : Session) : List Bytes :=
  s.generated.zipIdx.filterMap fun (g, k) ↦ if isSent g
  then dev.packets[k % dev.packets.length]? else none

section Clip

variable {dev : SimDevice} {limit : ℕ} {world : World limit} {q : ℕ} {greeting : List Bytes}
    {s s' : Session}

def Written (world : World limit) (f : Bytes) : Prop :=
  f.length ≤ maxFrame ∧ (isAudio limit f = true ∨ ∃ n, f = (world.report n).payload)

/-- The frames made hold the clip, and what was written after the greeting is known. -/
structure Cycling (dev : SimDevice) (world : World limit) (greeting : List Bytes) (s : Session) :
    Prop where
  idx : s.idx = s.generated.length % dev.packets.length
  clip : (s.generated.map Prod.fst).map (fun wire ↦ packetOf (wire.drop 2)) =
    (List.range s.generated.length).map fun k ↦ dev.packets[k % dev.packets.length]?
  written : ∃ payloads : List Bytes, s.written.flatten =
    greeting.flatten ++ payloads.flatMap encodeFrame ∧
    ∀ f ∈ payloads, Written world f

theorem played_eq {gs : List (Bytes × Fate)} {n : ℕ}
    (h : ∀ k g, gs[k]? = some g → packetOf (g.1.drop 2) =
      dev.packets[(n + k) % dev.packets.length]?) :
    ((gs.zipIdx n).filterMap fun (g, k) ↦ if isSent g
      then dev.packets[k % dev.packets.length]? else none) =
      ((gs.filter isSent).map Prod.fst).filterMap fun wire ↦ packetOf (wire.drop 2) := by
  induction gs generalizing n with
  | nil => rfl
  | cons g gs ih =>
    have hrest := ih (n := n + 1) fun k g hk ↦ by
      have hnext := h (k + 1) g hk
      rwa [show n + 1 + k = n + (k + 1) by omega]
    have hfirst := h 0 g rfl
    rw [Nat.add_zero] at hfirst
    rw [List.zipIdx_cons, List.filterMap_cons, hrest, List.filter_cons]
    split <;> split <;> simp_all

theorem Cycling.played (h : Cycling dev world greeting s) :
    dev.played s = (s.fated .sent).filterMap fun wire ↦ packetOf (wire.drop 2) := by
  refine played_eq fun k g hk ↦ ?_
  have hlt := (List.getElem?_eq_some_iff.mp hk).1
  have hclip := congrArg (fun l ↦ l[k]?) h.clip
  simpa [List.getElem?_map, hk, List.getElem?_range hlt] using hclip

end Clip

section Microphone

open Library.Runs

variable {dev : SimDevice} {env : Env} {world : World env.limit} {self : Counters} {sess : Session}

theorem greeting_hello (hhello : dev.sendHello = true) {greeting : List Bytes}
    (h : dev.greeting = some greeting)
    (limit : ℕ) : ∃ first : Bytes, first.length ≤ maxFrame ∧ greeting.flatten = encodeFrame first ∧
      classify limit first = .ok (.hello dev.filedAs) := by
  rw [SimDevice.greeting, if_pos hhello] at h
  obtain ⟨wire, hwire, rfl⟩ := Option.map_eq_some_iff.mp h
  obtain ⟨wire', hbuilt⟩ : ∃ w, (buildHello dev.imei >>= frame) = .ok w := by
    cases hb : buildHello dev.imei >>= frame with
    | error e => simp [hb, Except.toOption] at hwire
    | ok w => exact ⟨w, rfl⟩
  rw [hbuilt] at hwire
  obtain rfl := Option.some.inj hwire
  obtain ⟨payload, hpayload, hfits, rfl⟩ := Reply.frame_inv hbuilt
  refine ⟨payload, hfits, by simp, ?_⟩
  by_cases hascii : Ascii dev.imei
  · rw [buildHello, encodeAscii_eq hascii] at hpayload
    obtain rfl := Except.ok.inj hpayload
    rw [classify_hello_frame limit hascii, SimDevice.filedAs, hhello]
    by_cases hstrip : strip dev.imei = [] <;> simp [hstrip]
  · rw [buildHello, encodeAscii_error hascii] at hpayload
    cases hpayload

theorem Written.quiet {f : Bytes} (h : Written world f)
    (hreport : ∀ n, ∃ entries, classify env.limit (world.report n).payload =
      .ok (.stat (.dict entries))) :
    raises env.limit f = false ∧ ∀ x, classify env.limit f = .ok (.hello x) → x = dev.filedAs := by
  obtain ⟨-, haudio | ⟨n, rfl⟩⟩ := h
  · rw [isAudio] at haudio
    split at haudio
    · next hkind => exact ⟨by rw [raises, hkind], fun x hx ↦ by cases hkind.symm.trans hx⟩
    · cases haudio
  · obtain ⟨entries, hkind⟩ := hreport n
    exact ⟨by rw [raises, hkind], fun x hx ↦ by cases hkind.symm.trans hx⟩

theorem iterFrames_part {payloads : List Bytes} {bytes : Bytes}
    (hfits : ∀ f ∈ payloads, f.length ≤ maxFrame)
    (hpart : bytes <+: payloads.flatMap encodeFrame) : (iterFrames bytes).1 <+: payloads := by
  obtain ⟨rest, hrest⟩ := hpart
  have hwhole := iterFrames_flatMap hfits
  rw [← hrest, iterFrames_resumable.resume] at hwhole
  exact ⟨_, congrArg Prod.fst hwhole⟩

theorem frames_arrived {first : Bytes} {payloads : List Bytes} {bytes written : Bytes}
    (hfirst : first.length ≤ maxFrame) (hfits : ∀ f ∈ payloads, f.length ≤ maxFrame)
    (hwritten : written = encodeFrame first ++ payloads.flatMap encodeFrame)
    (hpart : bytes <+: written) :
    (iterFrames bytes).1 = [] ∨ ∃ frames, (iterFrames bytes).1 = first :: frames ∧
    frames <+: payloads := by
  rw [hwritten, ← List.flatMap_cons] at hpart
  have hframes := iterFrames_part (List.forall_mem_cons.mpr ⟨hfirst, hfits⟩) hpart
  cases harrived : (iterFrames bytes).1 with
  | nil => exact .inl rfl
  | cons f frames =>
    rw [harrived] at hframes
    obtain ⟨rfl, hmore⟩ := List.cons_prefix_cons.mp hframes
    exact .inr ⟨frames, rfl, hmore⟩

variable {κ : Type} [DecidableEq κ] {part : Bytes → κ} {c : Segmenter.Env}

def aired : Bytes := [ascii "HELLO:A", buildAudio [7] 65535 0 rtpSsrc,
    buildAudio [7] 1 1920 rtpSsrc].flatMap encodeFrame

end Microphone

end OpusFleet.Sim
