import OpusFleet.Sim.Recorded

namespace OpusFleet.Sim

open Python Library Server Server.Protocol Library.Serial

/-- `run`: session after session, each with the counters that the one before it left. A session is
given by its world and by the number of its rounds, after which its connection breaks off. -/
def SimDevice.run (dev : SimDevice) {limit : ℕ} :
    Counters → List (World limit × ℕ) → Option (List Session)
  | _, [] => some []
  | self, (world, n) :: plan =>
    (dev.session world self n).bind fun s ↦
      if dev.loop then (run dev s.self plan).map (s :: ·) else some [s]

def serve (limit : ℕ) (decodes : Sink.Decoder) (sink : Sink)
    (conns : List (Ending × List Bytes)) : Sink :=
  conns.foldl (fun sink conn ↦ (sink.handle limit decodes conn.1 conn.2).1) sink

/-- The chunks of a connection hold what was written in the session, up to
where the connection broke off. -/
def Carries (s : Session) (conn : Ending × List Bytes) : Prop :=
  (∀ chunk ∈ conn.2, chunk ≠ []) ∧ conn.2.flatten <+: s.written.flatten

def landed : ℕ → List (Bytes × Fate) → List Bool
  | _, [] => []
  | 0, _ :: gs => false :: landed 0 gs
  | m + 1, g :: gs => if isSent g then true :: landed m gs else false :: landed (m + 1) gs

/-- Which of the frames made in a session arrive over its connection. -/
def arrivals (limit : ℕ) (s : Session) (conn : Ending × List Bytes) : List Bool :=
  landed (((iterFrames conn.2.flatten).1.filter (isAudio limit)).length) s.generated

section Landed

theorem landed_length (m : ℕ) (gs : List (Bytes × Fate)) : (landed m gs).length = gs.length := by
  induction gs generalizing m with
  | nil => cases m <;> rfl
  | cons g gs ih =>
    cases m with
    | zero => simp [landed, ih]
    | succ m =>
      rw [landed]
      split
      · simp [ih]
      · simp [ih]

theorem landed_zero (half q : ℕ) (gs : List (Bytes × Fate)) :
    arriving half id q (landed 0 gs) = [] := by
  refine arriving_none half id q fun b hb ↦ ?_
  induction gs with
  | nil => cases hb
  | cons g gs ih =>
    rcases List.mem_cons.mp hb with rfl | hb
    · rfl
    · exact ih hb

theorem arriving_landed (half m q : ℕ) (gs : List (Bytes × Fate)) :
    arriving half id q (landed m gs) = (arriving half isSent q gs).take m := by
  induction gs generalizing m q with
  | nil => cases m <;> rfl
  | cons g gs ih =>
    cases m with
    | zero => rw [landed_zero, List.take_zero]
    | succ m =>
      rw [landed, arriving]
      split
      · rw [List.take_succ_cons, ← ih]
        rfl
      · rw [← ih]
        rfl

end Landed

section Receiver

variable {dev : SimDevice} {limit : ℕ} {q : ℕ} {greeting : List Bytes} {s : Session}

theorem seqOf_count {frames : List Bytes} (h : ∀ f ∈ frames, Spoken dev limit f) :
    (frames.filterMap (seqOf limit)).length = (frames.filter (isAudio limit)).length := by
  induction frames with
  | nil => rfl
  | cons f frames ih =>
    obtain ⟨hf, hrest⟩ := List.forall_mem_cons.mp h
    have hrest := ih hrest
    rcases hf.2 with ⟨value, hkind⟩ | ⟨opus, seq, ts, hne, rfl⟩
    · have hnone : seqOf limit f = none := by rw [seqOf, hkind]
      rw [List.filterMap_cons, hnone, List.filter_cons, isAudio_stat hkind]
      exact hrest
    · rw [List.filterMap_cons, seqOf_buildAudio hne, List.filter_cons,
        isAudio_buildAudio, if_pos rfl, List.length_cons, List.length_cons, hrest]

theorem greeting_met (limit : ℕ) (hgreeting : dev.greeting = some greeting) {payloads : List Bytes}
    {bytes : Bytes} (hfits : ∀ f ∈ payloads, f.length ≤ maxFrame)
    (hpart : bytes <+: greeting.flatten ++ payloads.flatMap encodeFrame) (decodes : Sink.Decoder)
    (sink : Sink) :
    ∃ p frames, frames <+: payloads ∧ Sink.Settled p ∧ p.2.imei = dev.filedAs ∧
      p.1.stats dev.filedAs = sink.stats dev.filedAs ∧
      (iterFrames bytes).1.filter (isAudio limit) = frames.filter (isAudio limit) ∧
      (Sink.frameLoop limit decodes (sink, .init) (iterFrames bytes).1).1.1.stats dev.filedAs =
        (Sink.frameLoop limit decodes p frames).1.1.stats dev.filedAs := by
  by_cases hhello : dev.sendHello = true
  · obtain ⟨first, hfirst, hflat, hkind⟩ := greeting_hello hhello hgreeting limit
    have hsettled : Sink.Settled (sink.dev dev.filedAs, ⟨dev.filedAs, some dev.filedAs, []⟩) := by
      intro imei hd
      obtain rfl := Option.some.inj hd
      exact ⟨rfl, dev_known⟩
    rw [hflat] at hpart
    obtain hnone | ⟨frames, hframes, hmore⟩ := frames_arrived hfirst hfits rfl hpart
    · refine ⟨_, [], List.nil_prefix, hsettled, rfl, dev_stats _, by rw [hnone], ?_⟩
      rw [hnone]
      exact (dev_stats _).symm
    · refine ⟨_, frames, hmore, hsettled, rfl, dev_stats _, ?_, ?_⟩
      · rw [hframes, List.filter_cons, isAudio, hkind]
        rfl
      · rw [hframes, Sink.frameLoop, Sink.dispatch, hkind]
        rfl
  · obtain rfl : [] = greeting := by
      rw [SimDevice.greeting, if_neg hhello] at hgreeting
      exact Option.some.inj hgreeting
    have hname : dev.filedAs = lit "unknown" := by simp [SimDevice.filedAs, hhello]
    exact ⟨(sink, .init), _, iterFrames_part hfits hpart, settled_init _, hname.symm, rfl, rfl, rfl⟩

theorem frameLoop_frames (decodes : Sink.Decoder) (payloads : List Bytes)
    (hspoken : ∀ f ∈ payloads, Spoken dev limit f)
    {p : Sink × Sink.Socket} (h : Sink.Settled p) :
    ((Sink.frameLoop limit decodes p payloads).1.1.stats p.2.imei).frames =
      (p.1.stats p.2.imei).frames + (payloads.filter (isAudio limit)).length := by
  induction payloads generalizing p with
  | nil => rfl
  | cons f payloads ih =>
    obtain ⟨hf, hrest⟩ := List.forall_mem_cons.mp hspoken
    have hstep (kind : Kind) (hkind : classify limit f =
      .ok kind) (hname : named limit p.2.imei f = p.2.imei) :
        ((Sink.frameLoop limit decodes p (f :: payloads)).1.1.stats p.2.imei).frames =
          (p.1.stats p.2.imei).frames + (gain limit f).1 +
          (payloads.filter (isAudio limit)).length := by
      obtain ⟨hsettled, himei, htally⟩ := take_tally limit decodes h hkind
      have hrest := ih hrest hsettled
      rw [himei, hname] at hrest
      have hfirst := congrArg Prod.fst (htally p.2.imei)
      rw [hname, if_pos rfl] at hfirst
      rw [Sink.frameLoop, Sink.dispatch, hkind]
      exact hrest.trans (congrArg (· + _) hfirst)
    rcases hf.2 with ⟨value, hkind⟩ | ⟨opus, seq, ts, hne, rfl⟩
    · rw [hstep _ hkind (by rw [named, hkind]), gain, hkind, List.filter_cons, isAudio_stat hkind]
      rfl
    · have hkind := classify_audio_frame limit opus seq ts dev.ssrc
      rw [hstep _ hkind (by rw [named, hkind]), gain, hkind, List.filter_cons,
        isAudio_buildAudio, if_pos rfl, List.length_cons]
      dsimp only
      omega

theorem numbers_arrived (hfaithful : Faithful dev limit q greeting s) {payloads frames : List Bytes}
    (hspoken : ∀ f ∈ payloads, Spoken dev limit f)
    (hsent : (payloads.filter (isAudio limit)).map encodeFrame = s.fated .sent)
    (hmore : frames <+: payloads) {conn : Ending × List Bytes}
    (hcount : (iterFrames conn.2.flatten).1.filter (isAudio limit) =
      frames.filter (isAudio limit)) :
    frames.filterMap (seqOf limit) = arriving 0x8000 id q (arrivals limit s conn) := by
  have hheard : ∀ f ∈ frames, Spoken dev limit f := fun f hf ↦ hspoken f (hmore.subset hf)
  have hnumbers : payloads.filterMap (seqOf limit) = arriving 0x8000 isSent q s.generated := by
    rw [filterMap_audio, hsent]
    exact sent_numbers (k := 0) fun i wire fate hi ↦ by
      rw [Nat.zero_add]
      exact hfaithful.numbered i wire fate hi
  rw [arrivals, arriving_landed, hcount, ← seqOf_count hheard, ← hnumbers]
  exact List.prefix_iff_eq_take.mp (hmore.filterMap _)

/-- Over any connection of a session the receiver counts the frames that
arrive and notes their numbers. -/
theorem handle_receives (hfaithful : Faithful dev limit q greeting s)
    (hgreeting : dev.greeting = some greeting)
    (decodes : Sink.Decoder) {conn : Ending × List Bytes} (hconn : Carries s conn) (sink : Sink) :
    ((sink.handle limit decodes conn.1 conn.2).1.stats dev.filedAs).frames =
        (sink.stats dev.filedAs).frames + (arriving 0x8000 id q (arrivals limit s conn)).length ∧
      receiver ((sink.handle limit decodes conn.1 conn.2).1.stats dev.filedAs) =
        (arriving 0x8000 id q (arrivals limit s conn)).foldl (Receiver.note 0x8000)
          (receiver (sink.stats dev.filedAs)) := by
  obtain ⟨payloads, hwritten, hspoken, hsent⟩ := hfaithful.written
  obtain ⟨hchunks, hpart⟩ := hconn
  rw [hwritten] at hpart
  obtain ⟨p, frames, hmore, hsettled, himei, hfresh, hcount, hloop⟩ :=
    greeting_met limit hgreeting (fun f hf ↦ (hspoken f hf).1) hpart decodes
      { sink with connections := sink.connections + 1 }
  have hheard : ∀ f ∈ frames, Spoken dev limit f := fun f hf ↦ hspoken f (hmore.subset hf)
  have hfirst := numbers_arrived hfaithful hspoken hsent hmore hcount
  have hreceived := frameLoop_receiver decodes frames hheard hsettled
  have hframes := frameLoop_frames decodes frames hheard hsettled
  rw [himei, hfresh] at hreceived hframes
  rw [sink_handle_eq limit decodes conn.1 conn.2 hchunks, hloop, hreceived, hframes,
    hfirst, ← hfirst, seqOf_count hheard]
  exact ⟨rfl, rfl⟩

end Receiver

section Reconnects

variable {dev : SimDevice} {limit : ℕ}

def arrived (limit : ℕ) (ss : List Session) (conns : List (Ending × List Bytes)) : List Bool :=
  (List.zipWith (arrivals limit) ss conns).flatten

theorem arriving_id_length (half q : ℕ) (bs : List Bool) :
    (arriving half id q bs).length = bs.count true := by
  induction bs generalizing q with
  | nil => rfl
  | cons b bs ih => cases b <;> simp [arriving, ih]

/-- The numbers go on from session to session, and so does what the receiver makes of them. -/
theorem run_receives (hpackets : ∀ pkt ∈ dev.packets, 1 ≤ pkt.length ∧ pkt.length ≤ 65523)
    (hloop : dev.loop = true)
    (decodes : Sink.Decoder) {plan : List (World limit × ℕ)} {ss : List Session}
    {conns : List (Ending × List Bytes)} (hconns : List.Forall₂ Carries ss conns) {self : Counters}
    (hrun : dev.run self plan = some ss) {q : ℕ}
    (hq : self.seq % 2 ^ 16 = q % 2 ^ 16) (sink : Sink) :
    ((serve limit decodes sink conns).stats dev.filedAs).frames =
        (sink.stats dev.filedAs).frames + (arriving 0x8000 id q (arrived limit ss conns)).length ∧
      receiver ((serve limit decodes sink conns).stats dev.filedAs) =
        (arriving 0x8000 id q (arrived limit ss conns)).foldl (Receiver.note 0x8000)
          (receiver (sink.stats dev.filedAs)) := by
  induction hconns generalizing self plan q sink with
  | nil => exact ⟨rfl, rfl⟩
  | @cons s conn ss conns hconn _ ih =>
    cases plan with
    | nil => cases hrun
    | cons session plan =>
      obtain ⟨world, n⟩ := session
      obtain ⟨s', hsession, hrest⟩ := Option.bind_eq_some_iff.mp hrun
      rw [if_pos hloop] at hrest
      obtain ⟨ss', hmore, hcons⟩ := Option.map_eq_some_iff.mp hrest
      obtain ⟨rfl, rfl⟩ := List.cons.inj hcons
      obtain ⟨greeting, hgreeting, hsteady⟩ := session_steady hpackets hloop hsession
      have hnext : s'.self.seq % 2 ^ 16 = (q + (arrivals limit s' conn).length) % 2 ^ 16 := by
        rw [arrivals, landed_length, hsteady.seq]
        omega
      obtain ⟨hframes, hreceiver⟩ := handle_receives hsteady.faithful hgreeting decodes hconn sink
      obtain ⟨hframes', hreceiver'⟩ := ih hmore hnext (sink.handle limit decodes conn.1 conn.2).1
      rw [hframes] at hframes'
      rw [hreceiver] at hreceiver'
      rw [arrived, List.zipWith_cons_cons, List.flatten_cons, arriving_append, List.length_append,
        List.foldl_append, ← arriving_congr 0x8000 id hq, ← Nat.add_assoc]
      exact ⟨hframes', hreceiver'⟩

/-- Loss accounting survives reconnects. However often the connection of a device breaks off, at
whatever byte, and whatever is lost, held back or cut off on the way: after all its connections
the receiver has counted the frames that arrived, and as lost just those made between the first of
them and the last that did not. -/
theorem reconnects_accounted (hpackets : ∀ pkt ∈ dev.packets, 1 ≤ pkt.length ∧ pkt.length ≤ 65523)
    (hloop : dev.loop = true) {self : Counters} {plan : List (World limit × ℕ)} {ss : List Session}
    (hrun : dev.run self plan = some ss) {conns : List (Ending × List Bytes)}
    (hconns : List.Forall₂ Carries ss conns)
    (hgaps : ∀ gap, gap <:+: arrived limit ss conns → (∀ b ∈ gap, b = false) → gap.length < 32768)
    (decodes : Sink.Decoder) :
    let d := (serve limit decodes .init conns).stats dev.filedAs
    d.frames = (arrived limit ss conns).count true ∧
      d.lost = (trimmed id (arrived limit ss conns)).count false ∧ d.reordered = 0 := by
  obtain ⟨hframes, hreceiver⟩ := run_receives hpackets hloop decodes hconns hrun rfl .init
  have hbridged : Bridged 0x8000 id (trimmed id (arrived limit ss conns)) := fun gap hgap hnone ↦
    hgaps gap (hgap.trans (trimmed_within id _)) hnone
  obtain ⟨hlost, hreordered⟩ := receive_exact self.seq hbridged
  have hfresh : receiver (Sink.init.stats dev.filedAs) = .init := rfl
  rw [hfresh] at hreceiver
  rw [← hreceiver] at hlost hreordered
  rw [arriving_id_length] at hframes
  refine ⟨hframes.trans (Nat.zero_add _), hlost.trans (List.countP_congr fun b _ ↦ ?_), hreordered⟩
  cases b <;> decide

theorem lossy_sessions : ∃ s s', lossy.run ⟨65535, 0, 0, 0, 0⟩
    [(wrapping, 3), (wrapping, 1)] = some [s, s'] ∧
    (s.written.flatten = aired ∧ s.generated =
    [(encodeFrame (buildAudio [7] 65535 0 rtpSsrc), .sent),
      (encodeFrame (buildAudio [7] 0 960 rtpSsrc), .dropped),
      (encodeFrame (buildAudio [7] 1 1920 rtpSsrc), .sent)]) ∧
    s'.written.flatten = [ascii "HELLO:A", buildAudio [7] 2 2880 rtpSsrc].flatMap encodeFrame ∧
      s'.generated = [(encodeFrame (buildAudio [7] 2 2880 rtpSsrc), .sent)] := by
  have hsessions : (lossy.run ⟨65535, 0, 0, 0, 0⟩ [(wrapping, 3), (wrapping, 1)]).map
      (List.map fun s ↦ (s.written.flatten, s.generated)) =
      some [(aired, [(encodeFrame (buildAudio [7] 65535 0 rtpSsrc), .sent),
          (encodeFrame (buildAudio [7] 0 960 rtpSsrc), .dropped),
            (encodeFrame (buildAudio [7] 1 1920 rtpSsrc), .sent)]),
        ([ascii "HELLO:A", buildAudio [7] 2 2880 rtpSsrc].flatMap encodeFrame,
          [(encodeFrame (buildAudio [7] 2 2880 rtpSsrc), .sent)])] := by decide +kernel
  obtain ⟨ss, hrun, heq⟩ := Option.map_eq_some_iff.mp hsessions
  obtain ⟨s, rest, rfl, hs, hrest⟩ := List.map_eq_cons_iff.mp heq
  obtain ⟨s', rest, rfl, hs', hnil⟩ := List.map_eq_cons_iff.mp hrest
  obtain rfl := List.map_eq_nil_iff.mp hnil
  exact ⟨s, s', hrun, Prod.mk.inj hs, Prod.mk.inj hs'⟩

/-- The first connection breaks off within the last frame of its session. -/
def broken : List (Ending × List Bytes) :=
  [(.eof, [aired.take 30]),
    (.eof, [[ascii "HELLO:A", buildAudio [7] 2 2880 rtpSsrc].flatMap encodeFrame])]

theorem reconnects_accounted_broken :
    ∃ ss, lossy.run ⟨65535, 0, 0, 0, 0⟩ [(wrapping, 3), (wrapping, 1)] = some ss ∧
    arrived 1000 ss broken = [true, false, false, true] ∧
    let d := (serve 1000 (fun _ _ ↦ true) .init broken).stats (lit "A")
    d.frames = 2 ∧ d.lost = 2 ∧ d.reordered = 0 := by
  obtain ⟨s, s', hrun, ⟨hwritten, hgenerated⟩, hwritten', hgenerated'⟩ := lossy_sessions
  have hconns : List.Forall₂ Carries [s, s'] broken := by
    refine .cons ⟨by decide +kernel, ?_⟩ (.cons ⟨by decide +kernel, ?_⟩ .nil)
    · rw [hwritten]
      simpa using List.take_prefix 30 aired
    · rw [hwritten']
      simp
  have harrived : arrived 1000 [s, s'] broken = [true, false, false, true] := by
    simp only [arrived, broken, List.zipWith_cons_cons, List.zipWith_nil_left, arrivals,
      hgenerated, hgenerated']
    decide +kernel
  have hlost :=
    reconnects_accounted (by decide) rfl hrun hconns (fun gap hgap _ ↦ ?_) fun _ _ ↦ true
  · rw [harrived] at hlost
    exact ⟨_, hrun, harrived, hlost⟩
  · have hlen := hgap.length_le
    rw [harrived] at hlen
    simp at hlen
    omega

end Reconnects

end OpusFleet.Sim
