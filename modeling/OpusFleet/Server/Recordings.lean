import OpusFleet.Server.Baseline
import OpusFleet.Server.Broker
import OpusFleet.Server.Endurance
import OpusFleet.Server.Isolation
import OpusFleet.Server.Objects

namespace OpusFleet.Server

open Python Library

/-- The audio messages of a device that the broker took. -/
def published (id : Str) (queue : List Message) : List Bytes :=
  (queue.filter fun m ↦ m.topic = .audio ∧ m.key = encode id).map fun m ↦ m.value.bytes

def packetOf (payload : Bytes) : Option Bytes :=
  match Protocol.parseAudio payload with
  | .ok audio => some audio.opus
  | .error _ => none

section Speech

variable {limit : ℕ} {peer : Peer} {id : Str}

end Speech

theorem packetOf_length {payload opus : Bytes} (h : packetOf payload = some opus) :
    payload.length = Protocol.rtpHeaderLen + opus.length := by
  rw [packetOf, Protocol.parseAudio] at h
  split at h
  · next audio haudio =>
    split at haudio
    · cases haudio
    · next hlong =>
      obtain rfl := Except.ok.inj haudio
      obtain rfl := Option.some.inj h
      rw [List.length_drop]
      omega
  · cases h

namespace Segmenter

section Heard

def names (imei : Str) (r : Option Bytes × Bytes) : Bool :=
  match keyText r.1 with
  | .ok imei' => imei' = imei
  | .error _ => false

theorem heard_polled (imei : Str) (es : List Event) :
    heard imei es = ((polled es).filter (names imei)).filterMap fun r ↦ packetOf r.2 := by
  induction es with
  | nil => rfl
  | cons e es ih =>
    have hcons : heard imei (e :: es) = heard imei [e] ++ heard imei es := heard_append imei [e] es
    rw [hcons, ih]
    cases e with
    | idle | error | interrupt => rfl
    | message key value =>
      have hpolled : polled (.message key value :: es) = (key, value) :: polled es := rfl
      rw [hpolled, heard, List.flatMap_singleton, opusOf, List.filter_cons]
      cases hkey : keyText key with
      | error e => simp [names, hkey]
      | ok imei' =>
        by_cases h : imei' = imei
        · cases hparse : Protocol.parseAudio value <;> simp [names, hkey, h, packetOf, hparse]
        · cases hparse : Protocol.parseAudio value <;> simp [names, hkey, h]

variable {κ : Type} [DecidableEq κ] {part : Bytes → κ} {queue : List Message} {es : List Event}

theorem heard_published (hfed : Fed part .audio queue es)
    (hkeys : ∀ m ∈ queue, ∃ id, m.key = encode id ∧ Ascii id ∧ id ≠ []) {id : Str}
    (hid : Ascii id) :
    heard id es = (published id queue).filterMap packetOf := by
  have hsame : (polled es).filter (names id) = (polled es).filter fun r ↦ r.1 =
      some (encode id) := by
    apply List.filter_congr
    intro r hr
    obtain ⟨m, hm, -, rfl⟩ := hfed.mem.mp hr
    obtain ⟨id', hkey, hascii, hne⟩ := hkeys m hm
    simp only [names, Message.record, hkey, keyText_encode hascii hne, Option.some.injEq]
    congr 1
    refine propext ⟨fun h ↦ h ▸ rfl, fun h ↦ ?_⟩
    have hdecode := congrArg decode h
    rw [decode_encode hascii, decode_encode hid] at hdecode
    exact Option.some.inj hdecode
  rw [heard_polled, hsame, hfed.key, published, List.filterMap_map, List.filterMap_map]
  rfl

end Heard

section Recordings

open Runs

variable {κ : Type} [DecidableEq κ] {part : Bytes → κ} {env : Server.Env} {c : Env}

/-- The segmenter has stored all that the broker took once it has been told to stop. -/
theorem run_recorded {maxConcurrent maxPerMinute : ℤ} {events : List Server.Event} {s : System}
    (hrun : run (System.step env) (.init maxConcurrent maxPerMinute) events = some s)
    (hsize : ∀ m ∈ s.ing.queue, m.topic = .audio →
      m.value.bytes.length ≤ 65024 + Protocol.rtpHeaderLen)
    {es : List Event} (hfed : Fed part .audio s.ing.queue es) (hgoes : .interrupt ∉ es)
    (hpps : packetsPerSegment c < 2 ^ 32 - 2) :
    ∃ t, run (step c) .init (es ++ [.interrupt]) = some t ∧ t.status = .stopped ∧
      ∀ id, Ascii id → sent id t = (published id s.ing.queue).filterMap packetOf := by
  have hkeys := run_keys hrun
  have hingested : ∀ e ∈ es, Ingested e := by
    intro e he
    cases e with
    | idle | error => trivial
    | interrupt => exact absurd he hgoes
    | message key value =>
      have hpolled : (key, value) ∈ polled es := List.mem_filterMap.mpr ⟨_, he, rfl⟩
      obtain ⟨m, hm, -, hrecord⟩ := hfed.mem.mp hpolled
      obtain ⟨id, hkey, hascii, hne⟩ := hkeys m hm
      obtain ⟨rfl, -⟩ := Prod.mk.inj hrecord
      exact ⟨id, hkey ▸ keyText_encode hascii hne⟩
  have hsmall : Small es := by
    intro imei opus hopus
    rw [heard_polled] at hopus
    obtain ⟨r, hr, hpacket⟩ := List.mem_filterMap.mp hopus
    obtain ⟨m, hm, htopic, rfl⟩ := hfed.mem.mp (List.mem_filter.mp hr).1
    have hlen := packetOf_length hpacket
    have hbound := hsize m hm htopic
    simp only [Message.record] at hlen
    omega
  obtain ⟨m, hm, -, t, ht, hstopped, -⟩ := survives_of_small (c := c) hingested hsmall (.inl hpps)
  have hend := run_snoc hm ht
  refine ⟨t, hend, hstopped, fun id hid ↦ ?_⟩
  have hconserves := run_conserves hend id
  have hcleared := end_clears hend hsmall.interrupt (.inl hpps) (by simp [hstopped]) id
  rw [hcleared, List.append_nil, heard_interrupt, heard_published hfed hkeys hid] at hconserves
  exact hconserves

/-- Every recording is what the broker took, bit by bit. However many connections ingest serves and
however they interleave, however the broker spreads the keys over partitions and these are read, and
wherever idle ticks and errors fall in between: the segmenter stops cleanly when it is told to, a
demultiplexer reads every object in the bucket, and where the uploads were in order the objects of
each device hold just the Opus packets of its audio messages, each once and in order. -/
theorem recordings_exact {maxConcurrent maxPerMinute : ℤ} {events : List Server.Event} {s : System}
    (hrun : run (System.step env) (.init maxConcurrent maxPerMinute) events = some s)
    (hsize : ∀ m ∈ s.ing.queue, m.topic = .audio →
      m.value.bytes.length ≤ 65024 + Protocol.rtpHeaderLen)
    {es : List Event} (hfed : Fed part .audio s.ing.queue es) (hgoes : .interrupt ∉ es)
    (hpps : packetsPerSegment c < 2 ^ 32 - 2) :
    ∃ t, run (step c) .init (es ++ [.interrupt]) = some t ∧ t.status = .stopped ∧
      (∀ key data, t.store.get key = some data → ∃ head tags packets,
        OggOpus.opusHead Protocol.channels OggOpus.preSkip 48000 0 = .ok head ∧
        OggOpus.opusTags (ascii "opusfleet") = .ok tags ∧
        Ogg.demux OggOpus.oggCrc32 data = some (head :: tags :: packets)) ∧
      ∀ id, Ascii id → Orderly c id t →
        Keeps t.store id ((published id s.ing.queue).filterMap packetOf) := by
  obtain ⟨t, ht, hstopped, hsent⟩ := run_recorded hrun hsize hfed hgoes hpps
  refine ⟨t, ht, hstopped, fun key data hget ↦ run_objects ht hpps hget, fun id hid horderly ↦ ?_⟩
  rw [← hsent id hid]
  exact keeps_sent ht hpps horderly

section Devices

variable {maxConcurrent maxPerMinute : ℤ} {events : List Server.Event} {s : System} {id : Str}

end Devices

section Examples

def word : Bytes := Protocol.buildAudio [7] 0 0 0

def reply : Bytes := Protocol.buildAudio [8] 1 0 0

/-- Two sockets at once: A says hello, then two words, and the other one says a word of nobody. -/
def overheard : List Server.Event :=
  [.accept 0 (Link.lone []).peer (Link.lone []).nonce,
    .accept 1 (Link.lone []).peer (Link.lone []).nonce,
    .wake 0 (.recv (Protocol.encodeFrame (ascii "HELLO:A")) Registry.none),
    .wake 1 (.recv (Protocol.encodeFrame word) Registry.none),
    .wake 0 (.recv (Protocol.encodeFrame word) Registry.none),
    .wake 0 (.recv (Protocol.encodeFrame reply) Registry.none), .wake 0 (.ended .eof)]

structure Transcribed where
  audio : List (Bytes × Bytes)
  log : List (ℕ × Topic × Str)
  phase : Option Phase
  deriving DecidableEq

def transcribed (s : System) : Transcribed where
  audio := (s.ing.queue.filter fun m ↦ m.topic = .audio).map fun m ↦ (m.key, m.value.bytes)
  log := s.log.map fun p ↦ (p.1, p.2.topic, p.2.key)
  phase := (s.conns 0).map Connection.phase

def expected : Transcribed where
  audio := [(ascii "unknown", word), (ascii "A", word), (ascii "A", reply)]
  log := [(0, .events, lit "A"), (1, .audio, lit "unknown"), (0, .audio, lit "A"),
    (0, .audio, lit "A"), (0, .events, lit "A")]
  phase := some .closed

theorem overheard_runs : ∃ s, run (System.step (Env.calm .disabled))
    (.init 64 120) overheard = some s ∧
    transcribed s = expected :=
  Option.map_eq_some_iff.mp (by decide +kernel)

variable {s : System} {script : Transcribed}

theorem transcribed_small (h : transcribed s = script)
    (hall : ∀ p ∈ script.audio, p.2.length ≤ 65024 + Protocol.rtpHeaderLen) :
    ∀ m ∈ s.ing.queue, m.topic = .audio → m.value.bytes.length ≤ 65024 + Protocol.rtpHeaderLen := by
  intro m hm htopic
  have hmem : (m.key, m.value.bytes) ∈ script.audio := by
    rw [← h]
    exact List.mem_map.mpr ⟨m, List.mem_filter.mpr ⟨hm, by simpa using htopic⟩, rfl⟩
  exact hall _ hmem

theorem replay_goes (queue : List Message) : .interrupt ∉ replay .audio queue := by simp [replay]

theorem replay_transcribed (h : transcribed s = script) :
    replay .audio s.ing.queue = script.audio.map fun p ↦ .message (some p.1) p.2 := by
  rw [← h]
  simp [replay, transcribed]

theorem overheard_uploads (h : transcribed s = expected) : ∃ t,
    run (step everyPacket) .init (replay .audio s.ing.queue ++ [.interrupt]) = some t ∧
      t.puts.map (fun p ↦ (p.seg.imei, p.seg.startedAt)) =
        [(lit "unknown", 1700000001), (lit "A", 1700000005), (lit "A", 1700000007)] ∧
      (recordings everyPacket (lit "A") t).map (fun p ↦ (p.seg.startedAt, p.key)) =
        [(1700000005, lit "A/2023-11-14/221325_0s.opus"),
          (1700000007, lit "A/2023-11-14/221327_0s.opus")] := by
  obtain ⟨t, ht, hputs⟩ : ∃ t, run (step everyPacket) .init
    (replay .audio s.ing.queue ++ [.interrupt]) = some t ∧
      (t.puts.map (fun p ↦ (p.seg.imei, p.seg.startedAt)),
        (recordings everyPacket (lit "A") t).map fun p ↦ (p.seg.startedAt, p.key)) =
        ([(lit "unknown", 1700000001), (lit "A", 1700000005), (lit "A", 1700000007)],
          [(1700000005, lit "A/2023-11-14/221325_0s.opus"),
            (1700000007, lit "A/2023-11-14/221327_0s.opus")]) := by
    rw [replay_transcribed h]
    exact Option.map_eq_some_iff.mp (by decide +kernel)
  exact ⟨t, ht, Prod.mk.inj hputs⟩

theorem overheard_orderly (h : transcribed s = expected) {t : State}
    (ht : run (step everyPacket) .init (replay .audio s.ing.queue ++ [.interrupt]) = some t) :
    Orderly everyPacket (lit "A") t := by
  obtain ⟨t', ht', -, hkeys⟩ := overheard_uploads h
  obtain rfl : t = t' := Option.some.inj (ht.symm.trans ht')
  refine ⟨fun _ _ ↦ rfl, ?_⟩
  have hkeys := congrArg (List.map Prod.snd) hkeys
  rw [List.map_map] at hkeys
  exact (show (recordings everyPacket (lit "A") t).map Put.key = _ from hkeys) ▸ by decide

theorem recordings_exact_overheard : ∃ s t,
    run (System.step (Env.calm .disabled)) (.init 64 120) overheard = some s ∧
    run (step everyPacket) .init (replay .audio s.ing.queue ++ [.interrupt]) = some t ∧
    Keeps t.store (lit "A") ((published (lit "A") s.ing.queue).filterMap packetOf) := by
  obtain ⟨s, hs, heq⟩ := overheard_runs
  obtain ⟨t, ht, -, -, hkeeps⟩ :=
    recordings_exact (c := everyPacket) hs (transcribed_small heq (by decide))
      (fed_replay .audio s.ing.queue) (replay_goes _) (by decide)
  exact ⟨s, t, hs, ht, hkeeps _ (by decide) (overheard_orderly heq ht)⟩

end Examples

end Recordings

end Segmenter

end OpusFleet.Server
