import OpusFleet.Sim.Losses

namespace OpusFleet.Sim

open Python Library Server Server.Protocol Server.Auth

section Wire

variable (limit : ℕ)

def AudioFrame (wire : Bytes) : Prop :=
  ∃ payload : Bytes, payload.length ≤ maxFrame ∧ isAudio limit payload = true ∧
    wire = encodeFrame payload

def Session.audio (s : Session) : List Bytes :=
  (iterFrames s.written.flatten).1.filter (isAudio limit)

/-- Whole frames are written, and audio frames are held. -/
structure Session.Framed (s : Session) : Prop where
  whole : (iterFrames s.written.flatten).2 = []
  held : ∀ wire ∈ s.held, AudioFrame limit wire

variable {limit} {s : Session}

theorem audio_append (s' : Session) (h : s.Framed limit) {frames : List Bytes}
    (hfits : ∀ f ∈ frames, f.length ≤ maxFrame)
    (hwritten : s'.written.flatten = s.written.flatten ++ frames.flatMap encodeFrame) :
    (iterFrames s'.written.flatten).2 = [] ∧
      s'.audio limit = s.audio limit ++ frames.filter (isAudio limit) := by
  have hread : iterFrames s'.written.flatten =
      ((iterFrames s.written.flatten).1 ++ frames, []) := by
    rw [hwritten, iterFrames_resumable.resume, h.whole, List.nil_append, iterFrames_flatMap hfits]
  rw [Session.audio, hread, Session.audio, List.filter_append]
  exact ⟨rfl, rfl⟩

theorem audioFrames_flatten {wires : List Bytes} (h : ∀ wire ∈ wires, AudioFrame limit wire) :
    ∃ frames : List Bytes, wires.flatten = frames.flatMap encodeFrame ∧
      frames.length = wires.length ∧
      (∀ f ∈ frames, f.length ≤ maxFrame) ∧ frames.filter (isAudio limit) = frames := by
  induction wires with
  | nil => exact ⟨[], rfl, rfl, by simp, rfl⟩
  | cons wire wires ih =>
    obtain ⟨f, hlen, haudio, rfl⟩ := h wire (by simp)
    obtain ⟨frames, hflat, hcount, hfits, hall⟩ := ih fun w hw ↦ h w (by simp [hw])
    refine ⟨f :: frames, ?_, by simp [hcount], ?_, ?_⟩
    · rw [List.flatten_cons, hflat, List.flatMap_cons]
    · intro g hg
      rcases List.mem_cons.mp hg with rfl | hg
      · exact hlen
      · exact hfits g hg
    · rw [List.filter_cons, if_pos haudio, hall]

end Wire

section Counters

variable {dev : SimDevice} {limit : ℕ} {world : World limit} {s s' : Session} {start : Counters}

theorem nextAudioFrame_audio (limit : ℕ) {self self' : Counters} {idx : ℕ} {wire : Bytes}
    (h : dev.nextAudioFrame self idx = some (wire, self')) :
    AudioFrame limit wire ∧ idx < dev.packets.length ∧ self'.sentFrames = self.sentFrames ∧
      self'.dropped = self.dropped := by
  obtain ⟨pkt, hpkt, h⟩ := Option.bind_eq_some_iff.mp h
  obtain ⟨wire', hwire, h⟩ := Option.bind_eq_some_iff.mp h
  obtain ⟨rfl, rfl⟩ : wire' = wire ∧ _ = self' := by simpa using h
  refine ⟨?_, (List.getElem?_eq_some_iff.mp hpkt).1, rfl, rfl⟩
  rw [frame] at hwire
  split at hwire
  · cases hwire
  · next hfits =>
    exact ⟨_, by omega, isAudio_buildAudio limit pkt self.seq self.ts dev.ssrc,
      (Option.some.inj hwire).symm⟩

/-- Every frame made since the session began with the counters `start` is in the bytes written,
dropped, or held; `released` of those written went out of the backlog. -/
structure Session.Counted (limit : ℕ) (start : Counters) (released : ℕ) (s : Session) : Prop where
  framed : s.Framed limit
  sent : (s.audio limit).length + start.sentFrames = s.self.sentFrames + released
  made : (s.audio limit).length + s.self.dropped + s.held.length =
    s.generated.length + start.dropped
  dropped : start.dropped ≤ s.self.dropped

variable {released : ℕ}

theorem Session.Counted.same (h : s.Counted limit start released)
    (hwritten : s'.written = s.written)
    (hheld : s'.held = s.held) (hgenerated : s'.generated = s.generated)
    (hsent : s'.self.sentFrames = s.self.sentFrames) (hdropped : s'.self.dropped = s.self.dropped) :
    s'.Counted limit start released := by
  have haudio : s'.audio limit = s.audio limit := by rw [Session.audio, Session.audio, hwritten]
  refine ⟨⟨?_, ?_⟩, ?_, ?_, ?_⟩
  · rw [hwritten]
    exact h.framed.whole
  · rw [hheld]
    exact h.framed.held
  · rw [haudio, hsent]
    exact h.sent
  · rw [haudio, hdropped, hheld, hgenerated]
    exact h.made
  · rw [hdropped]
    exact h.dropped

theorem drop_counted {wire : Bytes} (h : s.Counted limit start released) :
    (s.drop wire).Counted limit start released := by
  refine ⟨⟨h.framed.whole, h.framed.held⟩, h.sent, ?_, Nat.le_succ_of_le h.dropped⟩
  have hmade := h.made
  simp only [Session.drop, Session.audio, List.length_append, List.length_singleton] at hmade ⊢
  omega

theorem Session.Framed.snoc {wire : Bytes} (h : s.Framed limit) (hwire : AudioFrame limit wire) :
    ∀ w ∈ s.held ++ [wire], AudioFrame limit w :=
  List.forall_mem_append.mpr ⟨h.held, List.forall_mem_singleton.mpr hwire⟩

theorem hold_counted {wire : Bytes} (h : s.Counted limit start released)
    (hwire : AudioFrame limit wire) :
    (s.hold wire).Counted limit start released := by
  refine ⟨⟨h.framed.whole, h.framed.snoc hwire⟩, h.sent, ?_, h.dropped⟩
  have hmade := h.made
  simp only [Session.hold, Session.audio, List.length_append, List.length_singleton] at hmade ⊢
  omega

theorem send_counted {wire : Bytes} (h : s.Counted limit start released)
    (hwire : AudioFrame limit wire) :
    (s.send wire).Counted limit start (released + s.held.length) := by
  obtain ⟨frames, hflat, hcount, hfits, haudio⟩ := audioFrames_flatten (h.framed.snoc hwire)
  have hwritten : (s.send wire).written.flatten =
      s.written.flatten ++ frames.flatMap encodeFrame := by
    rw [← hflat]
    simp [Session.send]
  obtain ⟨hwhole, happend⟩ := audio_append (s.send wire) h.framed hfits hwritten
  have hlen : ((s.send wire).audio limit).length =
      (s.audio limit).length + (s.held.length + 1) := by
    rw [happend, haudio, List.length_append, hcount, List.length_append, List.length_singleton]
  have hsent := h.sent
  have hmade := h.made
  refine ⟨⟨hwhole, by simp [Session.send]⟩, ?_, ?_, h.dropped⟩
  · rw [hlen]
    simp only [Session.send]
    omega
  · rw [hlen]
    simp only [Session.send, List.length_nil, List.length_append, List.length_map,
      List.length_singleton]
    omega

variable (dev world)

/-- In round `n` a frame is neither lost nor held back. -/
def SimDevice.Sends (n : ℕ) (s : Session) : Prop :=
  ¬(dev.loss.truth ∧ (world.draw n).lt dev.loss) ∧ ¬(world.now n).lt s.stallUntil

/-- Round `n` writes a backlog. -/
def SimDevice.Bursts (n : ℕ) (s : Session) : Prop :=
  s.held ≠ [] ∧ dev.Sends world n (dev.checkStall (world.now n) s)

theorem checkStall_kept (now : PyFloat) (s : Session) : ∃ stallUntil nextStall,
    dev.checkStall now s = { s with stallUntil := stallUntil, nextStall := nextStall } := by
  rw [SimDevice.checkStall]
  split
  · exact ⟨_, _, rfl⟩
  · exact ⟨_, _, rfl⟩

theorem dispatch_counted {wire : Bytes} (n : ℕ) (h : s.Counted limit start released)
    (hwire : AudioFrame limit wire) :
    ∃ released', (dev.dispatch world n wire s).Counted limit start released' ∧
      (released' = 0 ↔ released = 0 ∧ ¬(s.held ≠ [] ∧ dev.Sends world n s)) ∧
      (dev.dispatch world n wire s).generated.length = s.generated.length + 1 ∧
      (dev.dispatch world n wire s).idx = s.idx ∧
      (dev.dispatch world n wire s).ended = s.ended := by
  rw [SimDevice.dispatch]
  split
  · next hlost =>
    refine ⟨released, drop_counted h, ?_, by simp [Session.drop], rfl, rfl⟩
    simp [SimDevice.Sends, hlost]
  · next hkept =>
    split
    · next hstall =>
      refine ⟨released, hold_counted h hwire, ?_, by simp [Session.hold], rfl, rfl⟩
      simp [SimDevice.Sends, hstall]
    · next hstall =>
      refine ⟨released + s.held.length, send_counted h hwire, ?_, by simp [Session.send], rfl, rfl⟩
      have hsends : dev.Sends world n s := ⟨hkept, hstall⟩
      simp [hsends]

theorem checkStat_counted (n : ℕ) (h : s.Counted limit start released) :
    (dev.checkStat world n s).Counted limit start released ∧
      (dev.checkStat world n s).generated = s.generated ∧ (dev.checkStat world n s).idx = s.idx ∧
      (dev.checkStat world n s).ended = s.ended := by
  rw [SimDevice.checkStat]
  split
  · split
    · obtain ⟨value, hvalue⟩ := (world.report n).stat
      have hfits : ∀ f ∈ [(world.report n).payload], f.length ≤ maxFrame := by
        simpa using (world.report n).fits
      obtain ⟨hwhole, haudio⟩ := audio_append { s with
        nextStat := (world.now n).add dev.statInterval
        written := s.written ++ [encodeFrame (world.report n).payload] } h.framed hfits (by simp)
      rw [List.filter_cons, isAudio_stat hvalue, List.filter_nil] at haudio
      simp only [Bool.false_eq_true, if_false, List.append_nil] at haudio
      refine ⟨⟨⟨hwhole, h.framed.held⟩, ?_, ?_, h.dropped⟩, rfl, rfl, rfl⟩
      · rw [haudio]
        exact h.sent
      · rw [haudio]
        exact h.made
    · exact ⟨h.same rfl rfl rfl rfl rfl, rfl, rfl, rfl⟩
  · exact ⟨h, rfl, rfl, rfl⟩

variable {dev world}

theorem round_counted {n : ℕ} (h : s.Counted limit start released) (hended : s.ended = false)
    (hround : dev.round world n s = some s') :
    (dev.packets.length ≤ s.idx + 1 ∧ s.idx < dev.packets.length ∧ dev.loop = false ∧
      s'.ended = true ∧
      s'.generated = s.generated ∧ s'.Counted limit start released) ∨
    (¬(dev.packets.length ≤ s.idx + 1 ∧ dev.loop = false) ∧ s'.ended = false ∧
      s'.generated.length = s.generated.length + 1 ∧ s'.idx = dev.advance s.idx ∧
      ∃ released', s'.Counted limit start released' ∧
        (released' = 0 ↔ released = 0 ∧ ¬dev.Bursts world n s)) := by
  obtain ⟨stallUntil, nextStall, hstall⟩ := checkStall_kept dev (world.now n) s
  rw [SimDevice.round, hended] at hround
  simp only [Bool.false_eq_true, if_false, hstall] at hround
  obtain ⟨⟨wire, self'⟩, hnext, hround⟩ := Option.map_eq_some_iff.mp hround
  obtain ⟨hwire, hidx, hsent, hdropped⟩ := nextAudioFrame_audio limit hnext
  by_cases hlast : dev.packets.length ≤ s.idx + 1 ∧ ¬dev.loop
  · rw [if_pos hlast] at hround
    subst hround
    exact .inl ⟨hlast.1, hidx, by simpa using hlast.2, rfl, rfl, h.same rfl rfl rfl hsent hdropped⟩
  · rw [if_neg hlast] at hround
    subst hround
    have hstart : Session.Counted limit start released { s with
        self := self', idx := dev.advance s.idx, stallUntil :=
          stallUntil, nextStall := nextStall } :=
      h.same rfl rfl rfl hsent hdropped
    obtain ⟨released', hdispatch, hzero, hlen, hidx', hended'⟩ :=
      dispatch_counted dev world n hstart hwire
    obtain ⟨hstat, hgenerated, hidx'', hended''⟩ := checkStat_counted dev world n hdispatch
    refine .inr ⟨by simpa using hlast, ?_, ?_, ?_, released', hstat, ?_⟩
    · exact hended''.trans (hended'.trans hended)
    · rw [hgenerated, hlen]
    · exact hidx''.trans hidx'
    · rw [hzero, SimDevice.Bursts, hstall]
      rfl

theorem round_some (world : World limit)
    (hpackets : ∀ pkt ∈ dev.packets, 1 ≤ pkt.length ∧ pkt.length ≤ 65523)
    (n : ℕ) (hidx : s.idx < dev.packets.length) (hended : s.ended = false) :
    ∃ s', dev.round world n s = some s' := by
  obtain ⟨stallUntil, nextStall, hstall⟩ := checkStall_kept dev (world.now n) s
  obtain ⟨⟨wire, self'⟩, hnext⟩ := nextAudioFrame_some hpackets hidx s.self
  rw [SimDevice.round, hended]
  simp only [Bool.false_eq_true, if_false, hstall, hnext, Option.map_some]
  exact ⟨_, rfl⟩

end Counters

section Runs

variable {dev : SimDevice} {limit : ℕ} (world : World limit) {s : Session} {start : Counters}

def SimDevice.answered (dev : SimDevice) (reply : Option Bytes) (start : Counters) :
    ℕ → Option Session
  | 0 => (dev.session world start 0).map fun s ↦ { s with written := reply.toList ++ s.written }
  | n + 1 => (dev.answered reply start n).bind (dev.round world n)

theorem isAudio_auth (limit : ℕ) (body : Bytes) : isAudio limit (authPrefix ++ body) = false := by
  rw [isAudio, classify_auth_frame]
  cases parseAuth (authPrefix ++ body) <;> rfl

theorem authenticate_silent (limit : ℕ) {hmac : Hmac} {imei : Str}
    {key : Option Bytes} {data : Bytes}
    {reply : Option Bytes} (h : authenticate hmac imei key data = .ok reply) :
    ∃ payloads : List Bytes, reply.toList.flatten = payloads.flatMap encodeFrame ∧
      (∀ f ∈ payloads, f.length ≤ maxFrame) ∧ payloads.filter (isAudio limit) = [] := by
  have hnone : reply = none ∨ ∃ body : Bytes, (authPrefix ++ body).length ≤ maxFrame ∧
      reply = some (encodeFrame (authPrefix ++ body)) := by
    unfold authenticate at h
    split at h
    · exact .inl (Except.ok.inj h).symm
    split at h
    swap
    · exact .inl (Except.ok.inj h).symm
    split at h
    · exact .inl (Except.ok.inj h).symm
    next payload _ _ _ _ key =>
    cases hnonce : parseChallenge payload with
    | error e =>
      rw [hnonce] at h
      cases h
    | ok nonce =>
      rw [hnonce] at h
      cases hascii : encodeAscii (imei ++ lit ":" ++ sign hmac key nonce) with
      | error e =>
        simp only [buildAuth, hascii, Except.map, bind, Except.bind, reduceCtorEq] at h
      | ok body =>
        simp only [buildAuth, hascii, Except.map, bind, Except.bind] at h
        by_cases hfits : (authPrefix ++ body).length ≤ maxFrame
        · rw [frame_eq_ok hfits] at h
          exact .inr ⟨body, hfits, (Except.ok.inj h).symm⟩
        · rw [frame, if_pos (by omega)] at h
          cases h
  rcases hnone with rfl | ⟨body, hfits, rfl⟩
  · exact ⟨[], rfl, by simp, rfl⟩
  · refine ⟨[authPrefix ++ body], by simp, by simpa using hfits, ?_⟩
    rw [List.filter_cons, isAudio_auth]
    rfl

variable {hmac : Hmac} {key : Option Bytes} {data : Bytes} {reply : Option Bytes}
  (hreply : authenticate hmac dev.imei key data = .ok reply)

include hreply

theorem start_counted (h : dev.answered world reply start 0 = some s) :
    s.Counted limit start 0 ∧ s.audio limit = [] ∧ s.generated = [] ∧ s.idx = 0 ∧ s.held = [] ∧
    s.ended = false := by
  obtain ⟨s₀, hs₀, rfl⟩ := Option.map_eq_some_iff.mp h
  obtain ⟨greeting, hgreeting, rfl⟩ := Option.map_eq_some_iff.mp hs₀
  obtain ⟨answers, hanswers, hfits, hsilent⟩ := authenticate_silent limit hreply
  obtain ⟨hellos, -, hflat, hfits', hsilent', -⟩ :=
    greeting_heard hgreeting limit (fun _ _ ↦ true) 0
  have hread : iterFrames (reply.toList ++ greeting).flatten = (answers ++ hellos, []) := by
    rw [List.flatten_append, hanswers, hflat, ← List.flatMap_append]
    apply iterFrames_flatMap
    intro f hf
    rcases List.mem_append.mp hf with hf | hf
    · exact hfits f hf
    · exact hfits' f hf
  have haudio (s : Session) (hwritten : s.written = reply.toList ++ greeting) :
      s.audio limit = [] := by
    rw [Session.audio, hwritten, hread, List.filter_append, hsilent, hsilent']
    rfl
  refine ⟨⟨⟨by rw [hread], by simp⟩, ?_, ?_, Nat.le_refl _⟩, haudio _ rfl, rfl, rfl, rfl, rfl⟩
  · rw [haudio _ rfl]
    simp
  · rw [haudio _ rfl]
    simp

/-- In a device that repeats its clip the counters balance after a round if and only if no backlog
was released up to then: a burst of many frames counts as one. -/
theorem counters_balance_iff (hloop : dev.loop = true) {n : ℕ}
    (h : dev.answered world reply start n = some s) :
    (s.self.sentFrames + s.self.dropped + s.held.length =
        s.generated.length + (start.sentFrames + start.dropped) ∧
      s.self.sentFrames = (s.audio limit).length + start.sentFrames) ↔
    ∀ m s', m < n → dev.answered world reply start m = some s' → ¬dev.Bursts world m s' := by
  suffices hinv : s.ended = false ∧ ∃ released, s.Counted limit start released ∧ (released = 0 ↔
      ∀ m s', m < n → dev.answered world reply start m = some s' → ¬dev.Bursts world m s') by
    obtain ⟨-, released, hcounted, hzero⟩ := hinv
    have hsent := hcounted.sent
    have hmade := hcounted.made
    rw [← hzero]
    constructor
    · intro hbalance
      omega
    · intro hnone
      omega
  induction n generalizing s with
  | zero =>
    obtain ⟨hstart, -, -, -, -, hended⟩ := start_counted world hreply h
    exact ⟨hended, 0, hstart, by simp⟩
  | succ n ih =>
    obtain ⟨m, hm, hround⟩ := Option.bind_eq_some_iff.mp h
    obtain ⟨hended, released, hcounted, hzero⟩ := ih hm
    rcases round_counted hcounted hended hround with ⟨-, -, hlast, -⟩ | ⟨-, hended', -, -,
      released', hcounted', hzero'⟩
    · simp [hloop] at hlast
    · refine ⟨hended', released', hcounted', ?_⟩
      rw [hzero', hzero]
      constructor
      · intro ⟨hbefore, hnow⟩ k s' hk hs'
        rcases Nat.lt_succ_iff_lt_or_eq.mp hk with hk | rfl
        · exact hbefore k s' hk hs'
        · obtain rfl := Option.some.inj (hm.symm.trans hs')
          exact hnow
      · intro hall
        exact ⟨fun k s' hk ↦ hall k s' (Nat.lt_succ_of_lt hk), hall n m n.lt_succ_self hm⟩

theorem once_counted (hloop : dev.loop = false) (hne : dev.packets ≠ []) {n : ℕ}
    (h : dev.answered world reply start n = some s) :
    (∃ released, s.Counted limit start released) ∧ s.generated.length < dev.packets.length ∧
      (s.ended = false → s.idx = s.generated.length) := by
  induction n generalizing s with
  | zero =>
    obtain ⟨hstart, -, hgenerated, hidx, -, -⟩ := start_counted world hreply h
    rw [hgenerated, hidx]
    exact ⟨⟨0, hstart⟩, List.length_pos_of_ne_nil hne, fun _ ↦ rfl⟩
  | succ n ih =>
    obtain ⟨m, hm, hround⟩ := Option.bind_eq_some_iff.mp h
    obtain ⟨⟨released, hcounted⟩, hlen, hidx⟩ := ih hm
    cases hended : m.ended with
    | true =>
      rw [SimDevice.round, hended, if_pos rfl] at hround
      obtain rfl := Option.some.inj hround
      exact ⟨⟨released, hcounted⟩, hlen, hidx⟩
    | false =>
      have hidx := hidx hended
      rcases round_counted hcounted hended hround with
        ⟨-, -, -, hended', hgenerated, hcounted'⟩ | ⟨hmore, -, hlen', hidx',
          released', hcounted', -⟩
      · rw [hgenerated]
        refine ⟨⟨released, hcounted'⟩, hlen, fun hnot ↦ ?_⟩
        rw [hended'] at hnot
        cases hnot
      · have hroom : s.idx = m.idx + 1 ∧ m.idx + 1 < dev.packets.length := by
          have hlt : ¬dev.packets.length ≤ m.idx + 1 := fun hle ↦ hmore ⟨hle, hloop⟩
          rw [hidx', SimDevice.advance, if_neg hlt]
          exact ⟨rfl, by omega⟩
        exact ⟨⟨released', hcounted'⟩, by omega, fun _ ↦ by omega⟩

/-- A device that plays its clip once comes to the end of it. -/
theorem once_returns (hpackets : ∀ pkt ∈ dev.packets, 1 ≤ pkt.length ∧ pkt.length ≤ 65523)
    (hloop : dev.loop = false) (hne : dev.packets ≠ []) (hgreeting : dev.greeting.isSome = true) :
    ∃ s, dev.answered world reply start dev.packets.length = some s ∧ s.ended = true := by
  have hnext {n : ℕ} {m : Session} (hm : dev.answered world reply start n =
    some m) (hidx : m.idx = n)
      (hended : m.ended = false) (hn : n < dev.packets.length) :
      ∃ s', dev.answered world reply start (n + 1) = some s' ∧
        (n + 1 < dev.packets.length → s'.idx = n + 1 ∧ s'.ended = false) ∧
        (dev.packets.length ≤ n + 1 → s'.ended = true) := by
    obtain ⟨s', hs'⟩ := round_some world hpackets n (hidx ▸ hn) hended
    obtain ⟨⟨released, hcounted⟩, -, -⟩ := once_counted world hreply hloop hne hm
    refine ⟨s', by rw [SimDevice.answered, hm]; exact hs', ?_⟩
    rcases round_counted hcounted hended hs' with ⟨hlast, -, -, hended', -⟩ | ⟨hmore,
      hended', -, hidx', -⟩
    · exact ⟨fun hlt ↦ by omega, fun _ ↦ hended'⟩
    · have hlt : ¬dev.packets.length ≤ m.idx + 1 := fun hle ↦ hmore ⟨hle, hloop⟩
      rw [SimDevice.advance, if_neg hlt, hidx] at hidx'
      exact ⟨fun _ ↦ ⟨hidx', hended'⟩, fun hle ↦ by omega⟩
  have hbefore (n : ℕ) (hn : n < dev.packets.length) :
      ∃ s, dev.answered world reply start n = some s ∧ s.idx = n ∧ s.ended = false := by
    induction n with
    | zero =>
      obtain ⟨greeting, hg⟩ := Option.isSome_iff_exists.mp hgreeting
      exact ⟨_, by rw [SimDevice.answered, SimDevice.session, hg]; rfl, rfl, rfl⟩
    | succ n ih =>
      obtain ⟨m, hm, hidx, hended⟩ := ih (by omega)
      obtain ⟨s', hs', hmore, -⟩ := hnext hm hidx hended (by omega)
      exact ⟨s', hs', hmore hn⟩
  obtain ⟨n, hn⟩ := Nat.exists_eq_succ_of_ne_zero (List.length_pos_of_ne_nil hne).ne'
  obtain ⟨m, hm, hidx, hended⟩ := hbefore n (by omega)
  obtain ⟨s', hs', -, hlast⟩ := hnext hm hidx hended (by omega)
  exact ⟨s', hn ▸ hs', hlast hn.le⟩

/-- A device that plays its clip once comes to the end of it and has never sent all of it: the last
frame is made but not sent, and what is held is left behind. -/
theorem once_never_whole (hloop : dev.loop = false) (hne : dev.packets ≠ []) :
    ((∀ pkt ∈ dev.packets, 1 ≤ pkt.length ∧ pkt.length ≤ 65523) → dev.greeting.isSome = true →
      ∃ s, dev.answered world reply start dev.packets.length = some s ∧ s.ended = true) ∧
    ∀ n s, dev.answered world reply start n = some s → s.audio limit ≠
      dev.packets.mapIdx fun i pkt ↦
        buildAudio pkt ((i % 2 ^ 16 : ℕ) : ℤ) ((960 * i % 2 ^ 32 : ℕ) : ℤ) dev.ssrc := by
  refine ⟨fun hpackets hgreeting ↦ once_returns world hreply hpackets hloop hne hgreeting, ?_⟩
  intro n s hs hwhole
  obtain ⟨⟨released, hcounted⟩, hlen, -⟩ := once_counted world hreply hloop hne hs
  have hmade := hcounted.made
  have hdropped := hcounted.dropped
  rw [hwhole, List.length_mapIdx] at hmade
  omega

end Runs

section Clips

def steady : SimDevice := { stalling with loss := .finite 0 }

def once : SimDevice := { lossy with loss := .finite 0, loop := false }

/-- Rounds at 4.0 and 4.1 seconds: to the doubles the outage is over in the second, though the sum
of the two numbers is larger. -/
def tenths : World 1000 where
  start := .finite 0
  now n := .finite (if n = 0 then 4 else 2308094809027379 / 2 ^ 49)
  draw _ := .finite 1
  report _ := emptyReport

/-- The frame of round 0 is held and goes out with that of round 1: two frames in one write. -/
theorem burst_counts_once :
    (steady.answered tenths none ⟨0, 0, 0, 0, 0⟩ 2).map (fun s ↦
      (s.self.sentFrames, s.self.dropped, s.held.length, s.generated.length,
        (s.audio 1000).length)) = some (1, 0, 0, 2, 2) := by
  decide +kernel

theorem unchallenged (imei : Str) : authenticate .echo imei none [] = .ok none := rfl

/-- While the outage lasts the counters balance, and not once it is over. -/
theorem counters_balance_iff_first :
    (∃ s, steady.answered tenths none ⟨0, 0, 0, 0, 0⟩ 1 = some s ∧ s.held.length = 1 ∧
      s.self.sentFrames + s.self.dropped + s.held.length = s.generated.length + (0 + 0) ∧
      s.self.sentFrames = (s.audio 1000).length + 0) ∧
    ∃ s, steady.answered tenths none ⟨0, 0, 0, 0, 0⟩ 2 = some s ∧
      ¬(s.self.sentFrames + s.self.dropped + s.held.length = s.generated.length + (0 + 0) ∧
        s.self.sentFrames = (s.audio 1000).length + 0) := by
  have hreply := unchallenged steady.imei
  have hfirst : (steady.answered tenths none ⟨0, 0, 0, 0, 0⟩ 1).map (fun s ↦ s.held.length) =
      some 1 := by decide +kernel
  have hsecond : (steady.answered tenths none ⟨0, 0, 0, 0, 0⟩ 2).isSome = true := by decide +kernel
  obtain ⟨s, hs, hheld⟩ := Option.map_eq_some_iff.mp hfirst
  obtain ⟨s', hs'⟩ := Option.isSome_iff_exists.mp hsecond
  refine ⟨⟨s, hs, hheld, (counters_balance_iff tenths hreply rfl hs).mpr ?_⟩, s', hs',
    fun hbalance ↦ ?_⟩
  · intro m s₀ hm hs₀ hburst
    obtain rfl := Nat.lt_one_iff.mp hm
    obtain ⟨-, -, -, -, hnone, -⟩ := start_counted tenths hreply hs₀
    exact hburst.1 hnone
  · refine (counters_balance_iff tenths hreply rfl hs').mp hbalance 1 s Nat.one_lt_two hs ⟨?_, ?_⟩
    · exact List.ne_nil_of_length_eq_add_one hheld
    · have hover : (steady.answered tenths none ⟨0, 0, 0, 0, 0⟩ 1).map (fun s ↦
          (tenths.now 1).lt (steady.checkStall (tenths.now 1) s).stallUntil) = some false := by
        decide +kernel
      rw [hs, Option.map_some, Option.some.injEq] at hover
      exact ⟨by decide, by rw [hover]; decide⟩

/-- A clip of one packet is played without one audio frame. -/
theorem once_sends_nothing :
    (once.answered tenths none ⟨0, 0, 0, 0, 0⟩ 1).map (fun s ↦ (s.ended, s.audio 1000)) =
      some (true, []) := by
  decide +kernel

theorem once_never_whole_short :
    (∃ s, once.answered tenths none ⟨0, 0, 0, 0, 0⟩ 1 = some s ∧ s.ended = true) ∧
    ∀ n s, once.answered tenths none ⟨0, 0, 0, 0, 0⟩ n = some s → s.audio 1000 ≠
      once.packets.mapIdx fun i pkt ↦
        buildAudio pkt ((i % 2 ^ 16 : ℕ) : ℤ) ((960 * i % 2 ^ 32 : ℕ) : ℤ) once.ssrc := by
  have hreply := unchallenged once.imei
  refine ⟨(once_never_whole tenths hreply rfl (by decide)).1 (by decide) (by decide +kernel), ?_⟩
  exact (once_never_whole tenths hreply rfl (by decide)).2

end Clips

end OpusFleet.Sim
