import OpusFleet.Library.Serial
import OpusFleet.Server.Baseline
import OpusFleet.Server.Messages
import OpusFleet.Sim.Device

namespace OpusFleet.Sim

open Python Library Server Server.Protocol Library.Serial

section Session

variable {dev : SimDevice} {limit : ℕ} {world : World limit} {q : ℕ} {s s' : Session}

def Session.fated (s : Session) (fate : Fate) : List Bytes :=
  (s.generated.filter fun g ↦ g.2 = fate).map Prod.fst

/-- The frame number `k` of a device whose first one has the sequence number `q`. -/
def Numbered (dev : SimDevice) (q k : ℕ) (wire : Bytes) : Prop :=
  ∃ (opus : Bytes) (seq : ℕ) (ts : ℤ), opus ≠ [] ∧ opus.length ≤ 65523 ∧
    seq % 2 ^ 16 = (q + k) % 2 ^ 16 ∧
    wire = encodeFrame (buildAudio opus seq ts dev.ssrc)

def Spoken (dev : SimDevice) (limit : ℕ) (payload : Bytes) : Prop :=
  payload.length ≤ maxFrame ∧ ((∃ value, classify limit payload = .ok (.stat value)) ∨
    ∃ (opus : Bytes) (seq : ℕ) (ts : ℤ), opus ≠ [] ∧ payload = buildAudio opus seq ts dev.ssrc)

/-- What is written and what is held, against what was made: nothing is held from before
the last frame that was sent. -/
structure Faithful (dev : SimDevice) (limit q : ℕ) (greeting : List Bytes) (s : Session) :
    Prop where
  numbered : ∀ k wire fate, s.generated[k]? = some (wire, fate) → Numbered dev q k wire
  held : s.held = s.fated .held
  order : ∃ past later, s.generated = past ++ later ∧ (∀ g ∈ past, g.2 ≠ .held) ∧
    ∀ g ∈ later, g.2 ≠ .sent
  written : ∃ payloads : List Bytes, s.written.flatten =
    greeting.flatten ++ payloads.flatMap encodeFrame ∧
    (∀ f ∈ payloads, Spoken dev limit f) ∧
      (payloads.filter (isAudio limit)).map encodeFrame = s.fated .sent

variable {greeting : List Bytes}

theorem isAudio_buildAudio (limit : ℕ) (opus : Bytes) (seq ts ssrc : ℤ) :
    isAudio limit (buildAudio opus seq ts ssrc) = true := by
  rw [isAudio, classify_audio_frame]

theorem buildAudio_length (opus : Bytes) (seq ts ssrc : ℤ) :
    (buildAudio opus seq ts ssrc).length = 12 + opus.length := by
  simp [buildAudio, rtpHeader]
  omega

theorem spoken_audio {opus : Bytes} (hne : opus ≠ []) (hlen : opus.length ≤ 65523)
    (seq : ℕ) (ts : ℤ) :
    Spoken dev limit (buildAudio opus seq ts dev.ssrc) := by
  refine ⟨?_, .inr ⟨opus, seq, ts, hne, rfl⟩⟩
  rw [buildAudio_length, maxFrame]
  omega

theorem nextAudioFrame_numbered
    (hpackets : ∀ pkt ∈ dev.packets, 1 ≤ pkt.length ∧ pkt.length ≤ 65523)
    {self self' : Counters} {idx k : ℕ} {wire : Bytes} (hseq : self.seq % 2 ^ 16 = (q + k) % 2 ^ 16)
    (h : dev.nextAudioFrame self idx = some (wire, self')) :
    Numbered dev q k wire ∧ self'.seq % 2 ^ 16 = (q + (k + 1)) % 2 ^ 16 := by
  obtain ⟨pkt, hpkt, h⟩ := Option.bind_eq_some_iff.mp h
  obtain ⟨wire', hwire, h⟩ := Option.bind_eq_some_iff.mp h
  obtain ⟨rfl, rfl⟩ : wire' = wire ∧ _ = self' := by simpa using h
  obtain ⟨hpos, hlen⟩ := hpackets pkt (List.mem_of_getElem? hpkt)
  have hfits : (buildAudio pkt self.seq self.ts dev.ssrc).length ≤ maxFrame := by
    rw [buildAudio_length, maxFrame]
    omega
  rw [frame_eq_ok hfits] at hwire
  refine ⟨⟨pkt, self.seq, self.ts, List.ne_nil_of_length_pos hpos, hlen, hseq, ?_⟩, ?_⟩
  · exact (Option.some.inj hwire).symm
  · dsimp only
    omega

theorem fated_append (s : Session) (g : Bytes × Fate) (fate : Fate) :
    ((s.generated ++ [g]).filter fun g ↦ g.2 = fate).map Prod.fst =
      s.fated fate ++ if g.2 = fate then [g.1] else [] := by
  rw [List.filter_append, List.map_append, Session.fated]
  by_cases h : g.2 = fate
  · simp [h]
  · simp [h]

theorem numbered_append {gs : List (Bytes × Fate)} {g : Bytes × Fate}
    (h : ∀ k wire fate, gs[k]? = some (wire, fate) → Numbered dev q k wire)
    (hg : Numbered dev q gs.length g.1) (k : ℕ) (wire : Bytes) (fate : Fate)
    (hk : (gs ++ [g])[k]? = some (wire, fate)) : Numbered dev q k wire := by
  rw [List.getElem?_append] at hk
  split at hk
  · exact h k wire fate hk
  · next hlt =>
    obtain ⟨hlen, he⟩ := List.getElem?_eq_some_iff.mp hk
    rw [List.length_singleton] at hlen
    obtain rfl : k = gs.length := by omega
    simp at he
    rw [he] at hg
    exact hg

variable {wire : Bytes}

theorem Faithful.keep (h : Faithful dev limit q greeting s)
    (hnext : Numbered dev q s.generated.length wire)
    {fate : Fate} (hfate : fate ≠ .sent) (hgenerated : s'.generated = s.generated ++ [(wire, fate)])
    (hwritten : s'.written = s.written)
    (hheld : s'.held = s.held ++ if fate = .held then [wire] else []) :
    Faithful dev limit q greeting s' := by
  obtain ⟨past, later, hsplit, hpast, hlater⟩ := h.order
  have hfated (fate' : Fate) : s'.fated fate' = s.fated fate' ++ if fate = fate'
      then [wire] else [] := by
    rw [Session.fated, hgenerated, fated_append]
  refine ⟨?_, ?_, ⟨past, later ++ [(wire, fate)], ?_, hpast, ?_⟩, ?_⟩
  · rw [hgenerated]
    exact numbered_append h.numbered hnext
  · rw [hheld, hfated, h.held]
  · rw [hgenerated, hsplit, List.append_assoc]
  · intro g hg
    rcases List.mem_append.mp hg with hg | hg
    · exact hlater g hg
    · rw [List.mem_singleton.mp hg]
      exact hfate
  · rw [hwritten, hfated, if_neg hfate, List.append_nil]
    exact h.written

theorem release_cases (g : Bytes × Fate) : (Session.release g).1 = g.1 ∧
    ((Session.release g).2 = .sent ↔ g.2 ≠ .dropped) ∧ (Session.release g).2 ≠ .held := by
  rcases g with ⟨wire, fate⟩
  cases fate <;> simp [Session.release]

theorem Fate.of_not_held {fate : Fate} (h : fate ≠ .held) : fate ≠ .dropped ↔ fate = .sent := by
  cases fate with
  | held => exact absurd rfl h
  | dropped | sent => simp

theorem Fate.of_not_sent {fate : Fate} (h : fate ≠ .sent) : fate ≠ .dropped ↔ fate = .held := by
  cases fate with
  | sent => exact absurd rfl h
  | dropped | held => simp

theorem filter_fate_nil {gs : List (Bytes × Fate)} {fate : Fate} (h : ∀ g ∈ gs, g.2 ≠ fate) :
    (gs.filter fun g ↦ g.2 = fate).map Prod.fst = [] := by
  rw [List.map_eq_nil_iff, List.filter_eq_nil_iff]
  intro g hg
  simpa using h g hg

theorem filter_release {gs : List (Bytes × Fate)} {fate : Fate}
    (h : ∀ g ∈ gs, g.2 ≠ .dropped ↔ g.2 = fate) :
    ((gs.map Session.release).filter fun g ↦ g.2 = .sent).map Prod.fst =
      (gs.filter fun g ↦ g.2 = fate).map Prod.fst := by
  induction gs with
  | nil => rfl
  | cons g gs ih =>
    have hrest := ih fun x hx ↦ h x (List.mem_cons_of_mem g hx)
    obtain ⟨hfst, hsent, -⟩ := release_cases g
    have hg : ((Session.release g).2 = .sent) ↔ g.2 = fate := hsent.trans (h g List.mem_cons_self)
    rw [List.map_cons, List.filter_cons, List.filter_cons]
    simp only [hg]
    split
    · rw [List.map_cons, List.map_cons, hfst, hrest]
    · exact hrest

theorem release_sent (h : ∃ past later, s.generated = past ++ later ∧ (∀ g ∈ past, g.2 ≠ .held) ∧
      ∀ g ∈ later, g.2 ≠ .sent) :
    ((s.generated.map Session.release).filter fun g ↦ g.2 = .sent).map Prod.fst =
      s.fated .sent ++ s.fated .held := by
  obtain ⟨past, later, hsplit, hpast, hlater⟩ := h
  have hsent : (s.generated.filter fun g ↦ g.2 = .sent).map Prod.fst =
      (past.filter fun g ↦ g.2 = .sent).map Prod.fst := by
    rw [hsplit, List.filter_append, List.map_append, filter_fate_nil hlater, List.append_nil]
  have hheld : (s.generated.filter fun g ↦ g.2 = .held).map Prod.fst =
      (later.filter fun g ↦ g.2 = .held).map Prod.fst := by
    rw [hsplit, List.filter_append, List.map_append, filter_fate_nil hpast, List.nil_append]
  rw [Session.fated, Session.fated, hsent, hheld, hsplit, List.map_append, List.filter_append,
    List.map_append, filter_release fun g hg ↦ Fate.of_not_held (hpast g hg),
    filter_release fun g hg ↦ Fate.of_not_sent (hlater g hg)]

theorem flatten_encodeFrame {wires : List Bytes}
    (h : ∀ wire ∈ wires, ∃ payload, Spoken dev limit payload ∧
      isAudio limit payload = true ∧ wire = encodeFrame payload) :
    ∃ payloads : List Bytes, wires.flatten = payloads.flatMap encodeFrame ∧
      (∀ f ∈ payloads, Spoken dev limit f ∧ isAudio limit f = true) ∧
      payloads.map encodeFrame = wires := by
  induction wires with
  | nil => exact ⟨[], rfl, by simp, rfl⟩
  | cons wire wires ih =>
    obtain ⟨payload, hspoken, haudio, rfl⟩ := h wire (by simp)
    obtain ⟨payloads, hflat, hall, hmap⟩ := ih fun w hw ↦ h w (by simp [hw])
    refine ⟨payload :: payloads, by rw [List.flatten_cons, hflat, List.flatMap_cons], ?_,
      by rw [List.map_cons, hmap]⟩
    intro f hf
    rcases List.mem_cons.mp hf with rfl | hf
    · exact ⟨hspoken, haudio⟩
    · exact hall f hf

theorem Numbered.spoken {k : ℕ} (h : Numbered dev q k wire) :
    ∃ payload, Spoken dev limit payload ∧ isAudio limit payload = true ∧
      wire = encodeFrame payload := by
  obtain ⟨opus, seq, ts, hne, hlen, -, rfl⟩ := h
  exact ⟨_, spoken_audio hne hlen seq ts, isAudio_buildAudio limit opus seq ts dev.ssrc, rfl⟩

theorem send_faithful (h : Faithful dev limit q greeting s)
    (hnext : Numbered dev q s.generated.length wire) :
    Faithful dev limit q greeting (s.send wire) := by
  obtain ⟨payloads, hwritten, hspoken, hsent⟩ := h.written
  have hwires : ∀ w ∈ s.held ++ [wire], ∃ payload, Spoken dev limit payload ∧
    isAudio limit payload = true ∧
      w = encodeFrame payload := by
    intro w hw
    rcases List.mem_append.mp hw with hw | hw
    · rw [h.held, Session.fated] at hw
      obtain ⟨⟨w', fate⟩, hg, rfl⟩ := List.mem_map.mp hw
      obtain ⟨k, hk⟩ := List.mem_iff_getElem?.mp (List.mem_of_mem_filter hg)
      exact (h.numbered k _ _ hk).spoken
    · rw [List.mem_singleton.mp hw]
      exact hnext.spoken
  obtain ⟨burst, hflat, hburst, hmap⟩ := flatten_encodeFrame hwires
  have hfated : (s.send wire).fated .sent = s.fated .sent ++ (s.held ++ [wire]) := by
    rw [Session.fated, Session.send, List.filter_append, List.map_append,
      release_sent h.order, ← h.held]
    simp
  have hnone : ∀ g ∈ (s.send wire).generated, g.2 ≠ .held := by
    intro g hg
    rcases List.mem_append.mp hg with hg | hg
    · obtain ⟨g', -, rfl⟩ := List.mem_map.mp hg
      exact (release_cases g').2.2
    · rw [List.mem_singleton.mp hg]
      simp
  refine ⟨?_, ?_, ⟨(s.send wire).generated, [], by simp, hnone, by simp⟩,
    payloads ++ burst, ?_, ?_, ?_⟩
  · apply numbered_append
    · intro k w fate hk
      rw [List.getElem?_map, Option.map_eq_some_iff] at hk
      obtain ⟨⟨w', fate'⟩, hk', hrelease⟩ := hk
      obtain rfl : w' = w := (release_cases (w', fate')).1.symm.trans (congrArg Prod.fst hrelease)
      exact h.numbered k _ _ hk'
    · rw [List.length_map]
      exact hnext
  · have hfilter : (s.send wire).generated.filter (fun g ↦ g.2 = Fate.held) = [] :=
      List.filter_eq_nil_iff.mpr fun g hg ↦ by simpa using hnone g hg
    rw [Session.fated, hfilter]
    rfl
  · simp only [Session.send, List.flatten_append, hwritten, List.flatMap_append,
      List.append_assoc, ← hflat]
    simp
  · intro f hf
    rcases List.mem_append.mp hf with hf | hf
    · exact hspoken f hf
    · exact (hburst f hf).1
  · have hall : burst.filter (isAudio limit) = burst :=
      List.filter_eq_self.mpr fun f hf ↦ (hburst f hf).2
    rw [List.filter_append, List.map_append, hsent, hall, hmap, hfated]

theorem Faithful.congr (h : Faithful dev limit q greeting s)
    (hgenerated : s'.generated = s.generated)
    (hheld : s'.held = s.held) (hwritten : s'.written = s.written) :
    Faithful dev limit q greeting s' := by
  have hfated (fate : Fate) : s'.fated fate = s.fated fate := by
    rw [Session.fated, hgenerated, Session.fated]
  refine ⟨?_, ?_, ?_, ?_⟩
  · rw [hgenerated]
    exact h.numbered
  · rw [hheld, hfated, h.held]
  · rw [hgenerated]
    exact h.order
  · rw [hwritten, hfated]
    exact h.written

theorem dispatch_faithful (world : World limit) (n : ℕ) (h : Faithful dev limit q greeting s)
    (hnext : Numbered dev q s.generated.length wire) :
    Faithful dev limit q greeting (dev.dispatch world n wire s) ∧
      (dev.dispatch world n wire s).generated.length = s.generated.length + 1 ∧
      (dev.dispatch world n wire s).self.seq = s.self.seq ∧
      (dev.dispatch world n wire s).ended = s.ended := by
  rw [SimDevice.dispatch]
  split
  · refine ⟨h.keep hnext (by decide) rfl rfl ?_, by simp [Session.drop], rfl, rfl⟩
    simp [Session.drop]
  · split
    · exact ⟨h.keep hnext (by decide) rfl rfl rfl, by simp [Session.hold], rfl, rfl⟩
    · exact ⟨send_faithful h hnext, by simp [Session.send], rfl, rfl⟩

theorem isAudio_stat {payload : Bytes} {value : Value}
    (h : classify limit payload = .ok (.stat value)) :
    isAudio limit payload = false := by rw [isAudio, h]

theorem checkStat_faithful (world : World limit) (n : ℕ) (h : Faithful dev limit q greeting s) :
    Faithful dev limit q greeting (dev.checkStat world n s) ∧
      (dev.checkStat world n s).generated = s.generated ∧ (dev.checkStat world n s).self = s.self ∧
      (dev.checkStat world n s).ended = s.ended := by
  rw [SimDevice.checkStat]
  split
  · split
    · refine ⟨⟨h.numbered, h.held, h.order, ?_⟩, rfl, rfl, rfl⟩
      obtain ⟨payloads, hwritten, hspoken, hsent⟩ := h.written
      obtain ⟨value, hvalue⟩ := (world.report n).stat
      refine ⟨payloads ++ [(world.report n).payload], ?_, ?_, ?_⟩
      · simp [hwritten]
      · intro f hf
        rcases List.mem_append.mp hf with hf | hf
        · exact hspoken f hf
        · rw [List.mem_singleton.mp hf]
          exact ⟨(world.report n).fits, .inl ⟨value, hvalue⟩⟩
      · rw [List.filter_append, List.filter_cons, isAudio_stat hvalue]
        exact (congrArg (List.map encodeFrame) (List.append_nil _)).trans hsent
    · exact ⟨h.congr rfl rfl rfl, rfl, rfl, rfl⟩
  · exact ⟨h, rfl, rfl, rfl⟩

structure Steady (dev : SimDevice) (limit q : ℕ) (greeting : List Bytes) (s : Session) : Prop where
  faithful : Faithful dev limit q greeting s
  seq : s.self.seq % 2 ^ 16 = (q + s.generated.length) % 2 ^ 16
  ended : s.ended = false

theorem round_steady (hpackets : ∀ pkt ∈ dev.packets, 1 ≤ pkt.length ∧ pkt.length ≤ 65523)
    (hloop : dev.loop = true) {n : ℕ} (h : Steady dev limit q greeting s)
    (hround : dev.round world n s = some s') : Steady dev limit q greeting s' := by
  have hstall : Steady dev limit q greeting (dev.checkStall (world.now n) s) := by
    rw [SimDevice.checkStall]
    split
    · exact ⟨h.faithful.congr rfl rfl rfl, h.seq, h.ended⟩
    · exact h
  rw [SimDevice.round, h.ended] at hround
  simp only [Bool.false_eq_true, if_false, hloop, not_true_eq_false, and_false] at hround
  generalize dev.checkStall (world.now n) s = s₁ at hstall hround
  obtain ⟨⟨wire, self⟩, hwire, rfl⟩ := Option.map_eq_some_iff.mp hround
  obtain ⟨hnext, hseq⟩ := nextAudioFrame_numbered hpackets hstall.seq hwire
  have hmade : Faithful dev limit q greeting { s₁ with self := self, idx := dev.advance s₁.idx } :=
    hstall.faithful.congr rfl rfl rfl
  obtain ⟨hdispatch, hlen, hself, hover⟩ := dispatch_faithful world n hmade hnext
  obtain ⟨hstat, hgenerated, hself', hover'⟩ := checkStat_faithful world n hdispatch
  refine ⟨hstat, ?_, ?_⟩
  · rw [hgenerated, hself', hself, hlen]
    exact hseq
  · rw [hover', hover]
    exact hstall.ended

theorem session_steady (hpackets : ∀ pkt ∈ dev.packets, 1 ≤ pkt.length ∧ pkt.length ≤ 65523)
    (hloop : dev.loop = true) {self : Counters} {n : ℕ} (h : dev.session world self n = some s) :
    ∃ greeting, dev.greeting = some greeting ∧ Steady dev limit self.seq greeting s := by
  induction n generalizing s with
  | zero =>
    obtain ⟨greeting, hgreeting, rfl⟩ := Option.map_eq_some_iff.mp h
    refine ⟨greeting, hgreeting, ⟨?_, rfl, ⟨[], [], rfl, by simp, by simp⟩, [], ?_, by simp, rfl⟩,
      rfl, rfl⟩
    · simp
    · simp
  | succ n ih =>
    obtain ⟨m, hm, hround⟩ := Option.bind_eq_some_iff.mp h
    obtain ⟨greeting, hgreeting, hsteady⟩ := ih hm
    exact ⟨greeting, hgreeting, round_steady hpackets hloop hsteady hround⟩

end Session

section Receiver

variable {dev : SimDevice} {limit : ℕ}

/-- The receiver of numbered packets that `note_seq` is. -/
def receiver (d : DeviceStats) : Receiver := ⟨d.lastSeq, d.lost, d.reordered⟩

theorem noteSeq_receiver (d : DeviceStats) (seq : ℕ) :
    receiver (d.noteSeq seq) = (receiver d).note 0x8000 seq := by
  rcases d with ⟨imei, frames, bytes, statsRx, decodeErrors, lost, reordered, _ | last, lastStat⟩
  · rfl
  · have hgap : gap 0x8000 seq last = DeviceStats.gap seq last := rfl
    simp only [DeviceStats.noteSeq, Receiver.note, receiver, hgap]
    split
    · next hzero => simp [hzero]
    · split
      · rfl
      · rfl

theorem audio_receiver {s : Sink} {imei : Str} (h : (s.devices.get imei).isSome = true)
    (decoded : List Bytes)
    {payload : Bytes} {frame : Audio} (hparse : parseAudio payload = .ok frame) :
    receiver ((s.audio decodes imei decoded payload).1.stats imei) =
      (receiver (s.stats imei)).note 0x8000 frame.seq := by
  have hnote := update_known (fun d ↦ d.noteFrame payload) h
  have hseq := update_known (fun d ↦ d.noteSeq frame.seq) hnote
  have hnoted : receiver (((s.update imei fun d ↦ d.noteFrame payload).update imei fun d ↦
      d.noteSeq frame.seq).stats imei) = (receiver (s.stats imei)).note 0x8000 frame.seq := by
    rw [update_stats _ _ hnote, if_pos rfl, noteSeq_receiver, update_stats _ _ h, if_pos rfl]
    rfl
  rw [Sink.audio, hparse]
  dsimp only
  split
  · exact hnoted
  · rw [update_stats _ _ hseq, if_pos rfl]
    exact hnoted

def seqOf (limit : ℕ) (payload : Bytes) : Option ℕ :=
  match classify limit payload with
  | .ok (.audio _) => (parseAudio payload).toOption.map Audio.seq
  | _ => none

theorem seqOf_buildAudio {opus : Bytes} (hne : opus ≠ []) (seq : ℕ) (ts ssrc : ℤ) :
    seqOf limit (buildAudio opus seq ts ssrc) = some (seq % 2 ^ 16) := by
  rw [seqOf, classify_audio_frame, parseAudio_buildAudio hne]
  simp only [Except.toOption, Option.map_some, Option.some.injEq]
  omega

theorem take_spoken (decodes : Sink.Decoder) {p : Sink × Sink.Socket} (h : Sink.Settled p)
    {payload : Bytes}
    (hspoken : Spoken dev limit payload) : ∃ p', Sink.dispatch limit decodes p payload = .ok p' ∧
      Sink.Settled p' ∧ p'.2.imei = p.2.imei ∧ receiver (p'.1.stats p.2.imei) =
        (seqOf limit payload).toList.foldl (Receiver.note 0x8000)
          (receiver (p.1.stats p.2.imei)) := by
  obtain ⟨hid, hknown, hsame⟩ := refer_spec h
  rcases hspoken.2 with ⟨value, hkind⟩ | ⟨opus, seq, ts, hne, rfl⟩
  · obtain ⟨hsettled, himei, -⟩ := take_tally limit decodes h hkind
    refine ⟨_, by rw [Sink.dispatch, hkind]; rfl, hsettled, ?_, ?_⟩
    · rw [himei, named, hkind]
    · rw [seqOf, hkind]
      simp only [Sink.take, hid, Option.toList_none, List.foldl_nil]
      rw [update_stats _ _ hknown, if_pos rfl, hsame]
      rfl
  · have hkind := classify_audio_frame limit opus seq ts dev.ssrc
    obtain ⟨hsettled, himei, -⟩ := take_tally limit decodes h hkind
    refine ⟨_, by rw [Sink.dispatch, hkind]; rfl, hsettled, ?_, ?_⟩
    · rw [himei, named, hkind]
    · simp only [Sink.take, hid]
      rw [audio_receiver hknown _ (parseAudio_buildAudio hne _ _ _), hsame, seqOf_buildAudio hne]
      simp only [Option.toList_some, List.foldl_cons, List.foldl_nil]
      congr 1

theorem frameLoop_receiver (decodes : Sink.Decoder) (payloads : List Bytes)
    (hspoken : ∀ f ∈ payloads, Spoken dev limit f) {p : Sink × Sink.Socket} (h : Sink.Settled p) :
    receiver ((Sink.frameLoop limit decodes p payloads).1.1.stats p.2.imei) =
      (payloads.filterMap (seqOf limit)).foldl (Receiver.note 0x8000)
        (receiver (p.1.stats p.2.imei)) := by
  induction payloads generalizing p with
  | nil => rfl
  | cons f payloads ih =>
    obtain ⟨p', hdispatch, hsettled, himei, hreceiver⟩ :=
      take_spoken decodes h (hspoken f (by simp))
    have hrest := ih (fun g hg ↦ hspoken g (by simp [hg])) hsettled
    rw [himei] at hrest
    simp only [Sink.frameLoop, hdispatch]
    rw [hrest, hreceiver, List.filterMap_cons]
    cases seqOf limit f <;> rfl

end Receiver

section Numbers

variable {dev : SimDevice} {limit q : ℕ}

def isSent (g : Bytes × Fate) : Bool := g.2 = .sent

theorem drop_encodeFrame (payload : Bytes) : (encodeFrame payload).drop 2 = payload := by
  obtain ⟨hi, lo, he, -⟩ := encodeFrame_cons payload
  rw [he]
  rfl

theorem sent_numbers {gs : List (Bytes × Fate)} {k : ℕ}
    (h : ∀ i wire fate, gs[i]? = some (wire, fate) → Numbered dev q (k + i) wire) :
    ((gs.filter isSent).map Prod.fst).filterMap (fun wire ↦ seqOf limit (wire.drop 2)) =
      arriving 0x8000 isSent (q + k) gs := by
  induction gs generalizing k with
  | nil => rfl
  | cons g gs ih =>
    have hrest := ih (k := k + 1) fun i wire fate hi ↦ by
      have hnumbered := h (i + 1) wire fate hi
      rwa [show k + 1 + i = k + (i + 1) by omega]
    rw [arriving, List.filter_cons]
    split
    · obtain ⟨opus, seq, ts, hne, -, hseq, hwire⟩ := h 0 g.1 g.2 rfl
      have hnumber : seqOf limit (g.1.drop 2) = some ((q + k) % (2 * 0x8000)) := by
        rw [hwire, drop_encodeFrame, seqOf_buildAudio hne]
        exact congrArg some hseq
      rw [List.map_cons, List.filterMap_cons, hnumber, hrest]
      rfl
    · exact hrest

theorem isAudio_of_seqOf {payload : Bytes} {n : ℕ} (h : seqOf limit payload = some n) :
    isAudio limit payload = true := by
  rw [seqOf] at h
  split at h
  · next hkind => simp [isAudio, hkind]
  · cases h

theorem filterMap_audio (payloads : List Bytes) :
    payloads.filterMap (seqOf limit) =
      ((payloads.filter (isAudio limit)).map encodeFrame).filterMap
        (fun wire ↦ seqOf limit (wire.drop 2)) := by
  induction payloads with
  | nil => rfl
  | cons f payloads ih =>
    rw [List.filterMap_cons, ih, List.filter_cons]
    split
    · next hnone =>
      split
      · simp [drop_encodeFrame, hnone]
      · rfl
    · next n hsome =>
      simp [isAudio_of_seqOf hsome, drop_encodeFrame, hsome]

end Numbers

section Accounts

variable {limit : ℕ} (dev : SimDevice) (world : World limit)

/-- How many frames were dropped between the first one that was sent and the last. -/
def Session.missing (s : Session) : ℕ := (trimmed isSent s.generated).countP fun g ↦ g.2 = .dropped

/-- The id under which the receiver files the device. -/
def SimDevice.filedAs : Str :=
  if dev.sendHello ∧ strip dev.imei ≠ [] then strip dev.imei else lit "unknown"

variable {dev}

theorem greeting_heard {greeting : List Bytes} (h : dev.greeting = some greeting) (limit : ℕ)
    (decodes : Sink.Decoder) (connections : ℕ) :
    ∃ (hellos : List Bytes) (p : Sink × Sink.Socket),
      greeting.flatten = hellos.flatMap encodeFrame ∧
      (∀ f ∈ hellos, f.length ≤ maxFrame) ∧ hellos.filter (isAudio limit) = [] ∧
      Sink.frameLoop limit decodes (⟨.empty, connections⟩, .init) hellos = (p, none) ∧
      Sink.Settled p ∧
      p.2.imei = dev.filedAs ∧ receiver (p.1.stats dev.filedAs) = .init := by
  rw [SimDevice.greeting] at h
  split at h
  · next hhello =>
    obtain ⟨wire, hwire, rfl⟩ := Option.map_eq_some_iff.mp h
    by_cases hascii : Ascii dev.imei
    · rw [buildHello, encodeAscii_eq hascii] at hwire
      by_cases hfits : (helloPrefix ++ dev.imei.map UInt8.ofNat).length ≤ maxFrame
      · have hframe : frame (helloPrefix ++ dev.imei.map UInt8.ofNat) =
            .ok (encodeFrame (helloPrefix ++ dev.imei.map UInt8.ofNat)) := frame_eq_ok hfits
        have hkind := classify_hello_frame limit hascii
        have hname : (if strip dev.imei = [] then lit "unknown" else strip dev.imei) =
            dev.filedAs := by
          rw [SimDevice.filedAs, hhello]
          by_cases hstrip : strip dev.imei = [] <;> simp [hstrip]
        rw [hname] at hkind
        have hdispatch : Sink.dispatch limit decodes (⟨.empty, connections⟩, .init)
            (helloPrefix ++ dev.imei.map UInt8.ofNat) =
              .ok (Sink.dev ⟨.empty, connections⟩ dev.filedAs,
                ⟨dev.filedAs, some dev.filedAs, []⟩) := by
          rw [Sink.dispatch, hkind]
          rfl
        refine ⟨[helloPrefix ++ dev.imei.map UInt8.ofNat],
          (Sink.dev ⟨.empty, connections⟩ dev.filedAs,
          ⟨dev.filedAs, some dev.filedAs, []⟩), ?_, ?_, ?_, ?_, ?_, rfl, ?_⟩
        · simp only [Except.map, Except.bind, bind, hframe, Except.toOption,
            Option.some.injEq] at hwire
          simp [← hwire]
        · simpa using hfits
        · simp [isAudio, hkind]
        · rw [Sink.frameLoop, hdispatch]
          rfl
        · intro imei hd
          obtain rfl := Option.some.inj hd
          exact ⟨rfl, dev_known⟩
        · rw [dev_stats]
          rfl
      · have hframe : frame (helloPrefix ++ dev.imei.map UInt8.ofNat) = .error _ :=
          if_pos (by omega)
        simp [Except.map, bind, Except.bind, hframe, Except.toOption] at hwire
    · rw [buildHello, encodeAscii_error hascii] at hwire
      simp [Except.map, bind, Except.bind, Except.toOption] at hwire
  · next hhello =>
    obtain rfl : [] = greeting := Option.some.inj h
    have hname : dev.filedAs = lit "unknown" := by simp [SimDevice.filedAs, hhello]
    refine ⟨[], _, rfl, by simp, rfl, rfl, settled_init _, hname.symm, ?_⟩
    rfl

namespace Faithful

variable {q : ℕ} {greeting : List Bytes} {s : Session}

theorem between (h : Faithful dev limit q greeting s) {g : Bytes × Fate}
    (hg : g ∈ trimmed isSent s.generated) : (! isSent g) = decide (g.2 = .dropped) := by
  obtain ⟨past, later, hsplit, hpast, hlater⟩ := h.order
  have hnone : ∀ g ∈ later, isSent g = false := fun g hg ↦ decide_eq_false (hlater g hg)
  rw [hsplit, trimmed_append_none isSent past hnone] at hg
  have hsent := Fate.of_not_held (hpast g ((trimmed_within isSent past).subset hg))
  rw [isSent, ← decide_not, decide_eq_decide, ← hsent, not_not]

theorem bridged (h : Faithful dev limit q greeting s)
    (hdrops : ∀ drops, drops <:+: s.generated → (∀ g ∈ drops, g.2 = .dropped) →
      drops.length < 32768) :
    Bridged 0x8000 isSent (trimmed isSent s.generated) := by
  intro run hrun hnone
  apply hdrops run (hrun.trans (trimmed_within isSent _))
  intro g hg
  have hdropped := h.between (hrun.subset hg)
  rw [hnone g hg] at hdropped
  exact of_decide_eq_true hdropped.symm

theorem missing_eq (h : Faithful dev limit q greeting s) :
    (trimmed isSent s.generated).countP (! isSent ·) = s.missing :=
  List.countP_congr fun g hg ↦ by rw [h.between hg]

theorem frames (h : Faithful dev limit q greeting s) (hgreeting : dev.greeting = some greeting) :
    ∃ payloads : List Bytes, (∀ f ∈ payloads, Spoken dev limit f) ∧
      (payloads.filter (isAudio limit)).map encodeFrame = s.fated .sent ∧
      ∀ (decodes : Sink.Decoder) (connections : ℕ), ∃ hellos p,
        iterFrames s.written.flatten = (hellos ++ payloads, []) ∧
        hellos.filter (isAudio limit) = [] ∧
        Sink.frameLoop limit decodes (⟨.empty, connections⟩, .init) hellos = (p, none) ∧
        Sink.Settled p ∧
        p.2.imei = dev.filedAs ∧ receiver (p.1.stats dev.filedAs) = .init := by
  obtain ⟨payloads, hwritten, hspoken, hsent⟩ := h.written
  refine ⟨payloads, hspoken, hsent, fun decodes connections ↦ ?_⟩
  obtain ⟨hellos, p, hflat, hlen, hsilent, hloop, hsettled, himei, hfresh⟩ :=
    greeting_heard hgreeting limit decodes connections
  refine ⟨hellos, p, ?_, hsilent, hloop, hsettled, himei, hfresh⟩
  apply iterFrames_eq
  refine ⟨?_, ?_, .inl (by simp)⟩
  · rw [hwritten, hflat, List.flatMap_append, List.append_nil]
  · intro f hf
    rcases List.mem_append.mp hf with hf | hf
    · exact hlen f hf
    · exact (hspoken f hf).1

/-- The receiver notes the numbers of what was sent, in the order in which it was made. -/
theorem received (h : Faithful dev limit q greeting s) (hgreeting : dev.greeting = some greeting)
    (decodes : Sink.Decoder) (ending : Ending) {chunks : List Bytes}
    (hchunks : ∀ c ∈ chunks, c ≠ []) (hflatten : chunks.flatten = s.written.flatten) :
    receiver ((Sink.init.handle limit decodes ending chunks).1.stats dev.filedAs) =
      (arriving 0x8000 isSent q s.generated).foldl (Receiver.note 0x8000) .init := by
  obtain ⟨payloads, hspoken, hsent, hframes⟩ := h.frames hgreeting
  obtain ⟨hellos, p, hiter, -, hhello, hsettled, himei, hfresh⟩ := hframes decodes 1
  have hnumbers : payloads.filterMap (seqOf limit) = arriving 0x8000 isSent q s.generated := by
    rw [filterMap_audio, hsent]
    exact sent_numbers (k := 0) fun i wire fate hi ↦ by
      rw [Nat.zero_add]
      exact h.numbered i wire fate hi
  have hrest := frameLoop_receiver decodes payloads hspoken hsettled
  rw [himei, hfresh, hnumbers] at hrest
  rw [sink_handle_eq limit decodes ending chunks hchunks, hflatten, hiter]
  change receiver ((Sink.frameLoop limit decodes (⟨.empty, 1⟩,
    .init) (hellos ++ payloads)).1.1.stats _) = _
  rw [sink_frameLoop_append, hhello]
  exact hrest

end Faithful

/-- What goes over the wire is what was made, less what was dropped and what is
still held, in order; and the receiver finds nothing out of order, and exactly the
drops between two frames missing. -/
theorem losses_accounted (hpackets : ∀ pkt ∈ dev.packets, 1 ≤ pkt.length ∧ pkt.length ≤ 65523)
    (hloop : dev.loop = true) {self : Counters} {n : ℕ} {s : Session}
    (h : dev.session world self n = some s) :
    (iterFrames s.written.flatten).2 = [] ∧
    ((iterFrames s.written.flatten).1.filter (isAudio limit)).map encodeFrame = s.fated .sent ∧
    s.held = s.fated .held ∧
    ((∀ drops, drops <:+: s.generated → (∀ g ∈ drops, g.2 = .dropped) → drops.length < 32768) →
      ∀ decodes ending chunks, (∀ c ∈ chunks, c ≠ []) → chunks.flatten = s.written.flatten →
        let d := (Sink.init.handle limit decodes ending chunks).1.stats dev.filedAs
        d.reordered = 0 ∧ d.lost = s.missing) := by
  obtain ⟨greeting, hgreeting, hsteady⟩ := session_steady hpackets hloop h
  obtain ⟨payloads, -, hsent, hframes⟩ := hsteady.faithful.frames hgreeting
  obtain ⟨hellos, -, hiter, hsilent, -⟩ := hframes (fun _ _ ↦ true) 0
  refine ⟨by rw [hiter], ?_, hsteady.faithful.held, ?_⟩
  · rw [hiter, List.filter_append, hsilent, List.nil_append, hsent]
  · intro hdrops decodes ending chunks hchunks hflatten
    have hseen := hsteady.faithful.received hgreeting decodes ending hchunks hflatten
    obtain ⟨hlost, hreordered⟩ := receive_exact self.seq (hsteady.faithful.bridged hdrops)
    rw [← hseen] at hlost hreordered
    exact ⟨hreordered, hlost.trans hsteady.faithful.missing_eq⟩

def Live (dev : SimDevice) (s : Session) : Prop := s.idx < dev.packets.length ∧ s.ended = false

theorem checkStall_live {s : Session} (h : Live dev s) (now : PyFloat) :
    Live dev (dev.checkStall now s) := by
  rw [SimDevice.checkStall]
  split
  · exact h
  · exact h

theorem dispatch_live {s : Session} (h : Live dev s) (n : ℕ) (wire : Bytes) :
    Live dev (dev.dispatch world n wire s) := by
  rw [SimDevice.dispatch]
  split
  · exact h
  · split
    · exact h
    · exact h

theorem checkStat_live {s : Session} (h : Live dev s) (n : ℕ) :
    Live dev (dev.checkStat world n s) := by
  rw [SimDevice.checkStat]
  split
  · split
    · exact h
    · exact h
  · exact h

theorem nextAudioFrame_some (hpackets : ∀ pkt ∈ dev.packets, 1 ≤ pkt.length ∧ pkt.length ≤ 65523)
    {idx : ℕ} (hidx : idx < dev.packets.length) (self : Counters) :
    ∃ p, dev.nextAudioFrame self idx = some p := by
  have hpkt : dev.packets[idx]? = some dev.packets[idx] := List.getElem?_eq_getElem hidx
  obtain ⟨-, hlen⟩ := hpackets _ (List.getElem_mem hidx)
  have hfits : (buildAudio dev.packets[idx] self.seq self.ts dev.ssrc).length ≤ maxFrame := by
    rw [buildAudio_length, maxFrame]
    omega
  have hwire : (frame (buildAudio dev.packets[idx] self.seq self.ts dev.ssrc)).toOption =
      some (encodeFrame (buildAudio dev.packets[idx] self.seq self.ts dev.ssrc)) := by
    rw [frame_eq_ok hfits]
    rfl
  simp only [SimDevice.nextAudioFrame, bind, hpkt, Option.bind_some, hwire]
  exact ⟨_, rfl⟩

theorem session_goes_on (hpackets : ∀ pkt ∈ dev.packets, 1 ≤ pkt.length ∧ pkt.length ≤ 65523)
    (hne : dev.packets ≠ []) (hloop : dev.loop = true) (hgreeting : dev.greeting.isSome = true)
    (self : Counters) (n : ℕ) : ∃ s, dev.session world self n = some s ∧ Live dev s := by
  have hpos : 0 < dev.packets.length := List.length_pos_of_ne_nil hne
  induction n with
  | zero =>
    obtain ⟨greeting, hg⟩ := Option.isSome_iff_exists.mp hgreeting
    exact ⟨_, by rw [SimDevice.session, hg]; rfl, hpos, rfl⟩
  | succ n ih =>
    obtain ⟨s, hs, hlive⟩ := ih
    have hstall := checkStall_live hlive (world.now n)
    obtain ⟨⟨wire, self'⟩, hnext⟩ := nextAudioFrame_some hpackets hstall.1
      (dev.checkStall (world.now n) s).self
    have hadvance : dev.advance (dev.checkStall (world.now n) s).idx < dev.packets.length := by
      rw [SimDevice.advance]
      split
      · exact hpos
      · omega
    rw [SimDevice.session, hs, Option.bind_some, SimDevice.round, hlive.2]
    simp only [Bool.false_eq_true, if_false, hnext, Option.map_some, hloop,
      not_true_eq_false, and_false]
    refine ⟨_, rfl, checkStat_live world (dispatch_live world ?_ n wire) n⟩
    exact ⟨hadvance, hstall.2⟩

def emptyReport : Report 1000 where
  payload := buildStat DeviceMessage.emptyDumps (.dict [])
  fits := by decide
  stat := by
    have hloads := DeviceMessage.loads_empty 999
    exact ⟨.dict [], by
      rw [buildStat, classify_stat_frame,
        DeviceMessage.parseStat_dumps DeviceMessage.emptyDumps 1000 hloads]
      rfl⟩

def lossy : SimDevice where
  imei := lit "A"
  packets := [[7]]
  loss := .finite (1 / 2)
  stall := .finite 0
  stallEvery := .finite 0
  loop := true
  sendHello := true
  statInterval := .finite 30
  ssrc := rtpSsrc

/-- The draws take the second frame, the one with which the sequence number wraps. -/
def wrapping : World 1000 where
  start := .finite 0
  now n := .finite n
  draw n := .finite (if n = 1 then 0 else 1)
  report _ := emptyReport

/-- Every second there is an outage of 0.1 seconds, as a double. -/
def stalling : SimDevice :=
  { lossy with stall := .finite (3602879701896397 / 2 ^ 55), stallEvery := .finite 1 }

def outage : World 1000 where
  start := .finite 0
  now n := .finite (if n < 2 then 4 else 2308094809027379 / 2 ^ 49)
  draw n := .finite (if n = 1 then 0 else 1)
  report _ := emptyReport

/-- The first frame is held in an outage, the second lost, and the third ends the outage: the
two kept go out in one burst. -/
theorem losses_accounted_wrap : ∃ s, stalling.session outage ⟨65535, 0, 0, 0, 0⟩ 3 = some s ∧
    s.self.sentFrames = 1 ∧ s.fated .dropped = [encodeFrame (buildAudio [7] 0 960 rtpSsrc)] ∧
    ∀ decodes ending chunks, (∀ c ∈ chunks, c ≠ []) → chunks.flatten = s.written.flatten →
      let d := (Sink.init.handle 1000 decodes ending chunks).1.stats (lit "A")
      d.reordered = 0 ∧ d.lost = 1 := by
  have hgenerated : (stalling.session outage ⟨65535, 0, 0, 0, 0⟩ 3).map
      (fun s ↦ (s.self.sentFrames, s.generated)) =
      some (1, [(encodeFrame (buildAudio [7] 65535 0 rtpSsrc), .sent),
        (encodeFrame (buildAudio [7] 0 960 rtpSsrc), .dropped),
        (encodeFrame (buildAudio [7] 1 1920 rtpSsrc), .sent)]) := by decide +kernel
  obtain ⟨s, hs, hmade⟩ := Option.map_eq_some_iff.mp hgenerated
  obtain ⟨hsent, hfates⟩ := Prod.mk.inj hmade
  refine ⟨s, hs, hsent, by rw [Session.fated, hfates]; rfl, ?_⟩
  obtain ⟨-, -, -, haccounts⟩ :=
    losses_accounted outage (by decide) (show stalling.loop = true from rfl) hs
  have hmissing : s.missing = 1 := by
    rw [Session.missing, hfates]
    decide
  rw [hmissing] at haccounts
  apply haccounts
  intro drops hdrops _
  have hlen := hdrops.length_le
  rw [hfates] at hlen
  simp at hlen
  omega

end Accounts

end OpusFleet.Sim
