import OpusFleet.Server.Messages
import OpusFleet.Server.Sessions

namespace OpusFleet.Server.Ingest

open Python Protocol Auth

/-- A STAT frame with a body that `json.loads` does not take. -/
def BadStat (limit : ℕ) (payload : Bytes) : Prop :=
  startsWith payload statPrefix = true ∧
    ∀ text v, decode (payload.drop statPrefix.length) = some text → loads limit text ≠ .ok v

theorem startsWith_iff {payload head : Bytes} :
    startsWith payload head = true ↔ ∃ body, payload = head ++ body := by
  rw [startsWith, List.isPrefixOf_iff_prefix, List.prefix_iff_exists_append_eq]
  exact exists_congr fun _ ↦ eq_comm

theorem parseStat_ok_iff {limit : ℕ} {body : Bytes} :
    (∃ v, parseStat limit body = .ok v) ↔ ∃ text v, decode body = some text ∧
    loads limit text = .ok v := by
  unfold parseStat
  cases decode body with
  | none => simp
  | some text =>
    cases hl : loads limit text with
    | ok v => simp [hl]
    | error e => cases e <;> simp [hl]

theorem badStat_not_auth {limit : ℕ} {payload : Bytes} (h : BadStat limit payload) :
    startsWith payload authPrefix = false := by
  obtain ⟨body, rfl⟩ := startsWith_iff.mp h.1
  rfl

theorem classify_badStat {limit : ℕ} {payload : Bytes} (h : BadStat limit payload) :
    ∃ e, classify limit payload = .error e := by
  obtain ⟨body, rfl⟩ := startsWith_iff.mp h.1
  have hbody := h.2
  rw [List.drop_left] at hbody
  rw [classify_stat_frame]
  cases hp : parseStat limit body with
  | error e => exact ⟨e, rfl⟩
  | ok v =>
    obtain ⟨text, v, hdecode, hload⟩ := parseStat_ok_iff.mp ⟨v, hp⟩
    exact absurd hload (hbody text v hdecode)

/-- Every frame but an AUTH frame is classified, unless it is a STAT frame with a bad body. -/
theorem classify_legacy {limit : ℕ} {payload : Bytes}
    (hauth : startsWith payload authPrefix = false) (h : ¬BadStat limit payload) :
    ∃ kind, classify limit payload = .ok kind ∧ ∀ deviceId mac, kind ≠ .auth deviceId mac := by
  by_cases hhello : startsWith payload helloPrefix = true
  · exact ⟨_, by rw [classify, if_pos hhello], fun _ _ ↦ Kind.noConfusion⟩
  by_cases hstat : startsWith payload statPrefix = true
  · obtain ⟨body, rfl⟩ := startsWith_iff.mp hstat
    obtain ⟨v, hv⟩ : ∃ v, parseStat limit body = .ok v := by
      apply parseStat_ok_iff.mpr
      by_contra hno
      refine h ⟨hstat, fun text v hdecode hload ↦ hno ⟨text, v, ?_, hload⟩⟩
      rwa [List.drop_left] at hdecode
    exact ⟨.stat v, by rw [classify_stat_frame, hv]; rfl, fun _ _ ↦ Kind.noConfusion⟩
  · refine ⟨.audio payload, ?_, fun _ _ ↦ Kind.noConfusion⟩
    simp [classify, hhello, hauth, hstat]

variable (env : Env) (registry : Registry) (link : Link) (ing : Ingest) {payload : Bytes}

theorem checkFrame_legacy (leftover : Bytes) (hmode : env.mode = .optional)
    (hfits : payload.length ≤ maxFrame)
    (hauth : startsWith payload authPrefix = false) (h : ¬BadStat env.limit payload) :
    ∃ accepted, checkFrame env registry link.nonce link.peer payload leftover = .ok accepted ∧
      accepted.authed = false ∧ accepted.leftover = encodeFrame payload ++ leftover ∧
      (accepted.claimed = none ∨ ∃ id, classify env.limit payload = .ok (.hello id)) := by
  obtain ⟨kind, hkind, hnot⟩ := classify_legacy hauth h
  have hmode' : env.mode ≠ .required := by simp [hmode]
  cases kind with
  | auth deviceId mac => exact absurd rfl (hnot deviceId mac)
  | hello id =>
    refine ⟨⟨some id, false, encodeFrame payload ++ leftover⟩, ?_, rfl, rfl, .inr ⟨id, hkind⟩⟩
    simp only [checkFrame, hkind, if_neg hmode', frame_eq_ok hfits, Except.map]
  | _ =>
    refine ⟨⟨none, false, encodeFrame payload ++ leftover⟩, ?_, rfl, rfl, .inl rfl⟩
    simp only [checkFrame, hkind, if_neg hmode', frame_eq_ok hfits, Except.map]

section Reads

variable {leftover : Bytes} {chunks : List Bytes} (hmode : env.mode ≠ .disabled)
  (hdrains : link.challengeDrains = true)
  (hread : readFrame link.ending [] link.chunks = .ok ((payload, leftover), chunks))

include hmode hdrains hread

theorem handshake_refused {e : Exc}
    (hcheck : checkFrame env registry link.nonce link.peer payload leftover = .error e) :
    (ing.handshake env registry link).2.2 = .error e := by
  simp [handshake, hmode, hdrains, hread, hcheck]

theorem handshake_admitted {accepted : Accepted}
    (hcheck : checkFrame env registry link.nonce link.peer payload leftover = .ok accepted)
    (hauthed : accepted.authed = false) :
    (ing.handshake env registry link).2.2 = .ok (accepted, chunks) := by
  simp [handshake, hmode, hdrains, hread, hcheck, hauthed]

end Reads

theorem dispatch_mode (peer : Peer) {imei : Str} (mode : Mode)
    (h : imei = lit "unknown" ∨ ∃ id, classify env.limit payload = .ok (.hello id)) :
    dispatch env peer false ing imei payload =
      dispatch { env with mode := mode } peer false ing (lit "unknown") payload := by
  rcases h with rfl | ⟨id, hid⟩
  · rfl
  · simp only [dispatch, hid, Bool.false_eq_true, false_and, if_false]
    rfl

/-- A first frame that is no AUTH frame is let in and passed on to the main loop, which does with
it what it does with authentication disabled, if and only if it is no STAT frame with a bad body. -/
theorem optional_admits_iff {more : Bytes} (hmode : env.mode = .optional)
    (hfits : payload.length ≤ maxFrame) (hdrains : link.challengeDrains = true)
    (hchunks : ∀ c ∈ link.chunks, c ≠ [])
    (hstream : link.chunks.flatten = encodeFrame payload ++ more) :
    ((∀ e, (ing.handshake env registry link).2.2 = .error e → refuses e = true →
        startsWith payload authPrefix = true) ∧
      (startsWith payload authPrefix = false → ∃ accepted chunks,
        (ing.handshake env registry link).2.2 = .ok (accepted, chunks) ∧ accepted.authed = false ∧
        encodeFrame payload <+: accepted.leftover ∧
        ∀ ing : Ingest, dispatch env link.peer accepted.authed ing accepted.imei payload =
          dispatch { env with mode := .disabled } link.peer false ing (lit "unknown") payload)) ↔
      ¬BadStat env.limit payload := by
  obtain ⟨leftover, chunks, hread⟩ :=
    readFrame_frame hfits link.ending link.chunks hchunks [] hstream
  have hdisabled : env.mode ≠ .disabled := by simp [hmode]
  constructor
  · intro h hbad
    have hauth := badStat_not_auth hbad
    obtain ⟨accepted, chunks', hok, -⟩ := h.2 hauth
    obtain ⟨e, he⟩ := classify_badStat hbad
    have hcheck : checkFrame env registry link.nonce link.peer payload leftover = .error e := by
      simp only [checkFrame, he]
    rw [handshake_refused env registry link ing hdisabled hdrains hread hcheck] at hok
    cases hok
  · intro h
    by_cases hauth : startsWith payload authPrefix = true
    · exact ⟨fun _ _ _ ↦ hauth, fun hnot ↦ by simp [hauth] at hnot⟩
    rw [Bool.not_eq_true] at hauth
    obtain ⟨accepted, hcheck, hauthed, hleft, hclaimed⟩ :=
      checkFrame_legacy env registry link leftover hmode hfits hauth h
    have hok := handshake_admitted env registry link ing hdisabled hdrains hread hcheck hauthed
    refine ⟨fun e he ↦ by simp [hok] at he, fun _ ↦ ⟨accepted, chunks, hok, hauthed, ?_, ?_⟩⟩
    · rw [hleft]
      exact List.prefix_append _ _
    · intro ing
      rw [hauthed]
      apply dispatch_mode
      rcases hclaimed with hnone | hhello
      · exact .inl (by rw [Accepted.imei, hnone])
      · exact .inr hhello

theorem optional_admits_iff_audio :
    ∃ accepted chunks,
      ((Ingest.init 64 120).handshake (Env.calm .optional) Registry.none
          (.lone [encodeFrame [0]])).2.2 = .ok (accepted, chunks) ∧
        accepted.authed = false ∧ encodeFrame [0] <+: accepted.leftover ∧
        ∀ ing : Ingest, dispatch (Env.calm .optional) (Link.lone [encodeFrame [0]]).peer
            accepted.authed ing accepted.imei [0] =
          dispatch { Env.calm .optional with mode := .disabled }
            (Link.lone [encodeFrame [0]]).peer false ing (lit "unknown") [0] := by
  have hgood : ¬BadStat (Env.calm .optional).limit [0] := fun h ↦ Bool.noConfusion h.1
  exact ((optional_admits_iff (Env.calm .optional) Registry.none (.lone [encodeFrame [0]])
    (Ingest.init 64 120) rfl (by decide) rfl (by decide) (List.append_nil _).symm).mpr hgood).2 rfl

/-- A first frame "STAT:x" is refused in optional mode and skipped in disabled mode. -/
theorem optional_refuses_stat :
    startsWith (ascii "STAT:x") authPrefix = false ∧
    ((Ingest.init 64 120).handshake (Env.calm .optional) Registry.none
      (.lone [encodeFrame (ascii "STAT:x")])).2.2 = .error (.protocol (lit "bad STAT json: ")) ∧
    ∀ ing : Ingest, dispatch (Env.calm .disabled) (Link.lone []).peer false ing (lit "unknown")
      (ascii "STAT:x") = (ing, .ok (lit "unknown")) := by
  have hclassify : classify 1000 (ascii "STAT:x") = .error (.protocol (lit "bad STAT json: ")) := by
    have hdecode : decode (ascii "x") = some (lit "x") := rfl
    have hparse : parseStat 1000 (ascii "x") = .error (.protocol (lit "bad STAT json: ")) := by
      simp only [parseStat, hdecode, loads_garbled]
    have hframe : ascii "STAT:x" = statPrefix ++ ascii "x" := rfl
    rw [hframe, classify_stat_frame, hparse]
    rfl
  refine ⟨rfl, ?_, ?_⟩
  · have hread : readFrame .eof [] [encodeFrame (ascii "STAT:x")] =
        .ok ((ascii "STAT:x", []), []) := by
      decide +kernel
    apply handshake_refused (Env.calm .optional) Registry.none
      (.lone [encodeFrame (ascii "STAT:x")])
        (Ingest.init 64 120) (by decide) rfl hread
    simp only [checkFrame, Env.calm, hclassify]
  · intro ing
    simp only [dispatch, Env.calm, hclassify]

end OpusFleet.Server.Ingest
