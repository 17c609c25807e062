import OpusFleet.Library.Runs
import OpusFleet.Library.Shuffle
import OpusFleet.Server.Baseline

namespace OpusFleet.Server

open Python Library Protocol Library.Runs

inductive Mark
  | frame (payload : Bytes)
  | seq (n : ℕ)
  | error
  | stat (value : Value)

def DeviceStats.mark (d : DeviceStats) : Mark → DeviceStats
  | .frame payload => d.noteFrame payload
  | .seq n => d.noteSeq n
  | .error => d.noteError
  | .stat value => d.noteStat value

/-- The numbers of a device that do not depend on the order of its frames. -/
def DeviceStats.counts (d : DeviceStats) : Tally × ℕ := (d.tally, d.decodeErrors)

def Mark.weight : Mark → Tally × ℕ
  | .frame payload => ((1, payload.length, 0), 0)
  | .seq _ => 0
  | .error => (0, 1)
  | .stat _ => ((0, 0, 1), 0)

theorem counts_mark (d : DeviceStats) (m : Mark) : (d.mark m).counts = d.counts + m.weight := by
  cases m with
  | frame payload => rfl
  | error => rfl
  | stat value => rfl
  | seq n =>
    rw [DeviceStats.mark, DeviceStats.noteSeq]
    split
    · rfl
    · split
      · rfl
      · split <;> rfl

namespace Sink

section Voices

variable (limit : ℕ) (decodes : Decoder)

/-- What of a socket decides what its frames change. -/
structure Voice where
  imei : Str
  decoded : List Bytes

def Voice.init : Voice := ⟨lit "unknown", []⟩

def Socket.voice (socket : Socket) : Voice := ⟨socket.imei, socket.decoded⟩

def audioMarks (decoded : List Bytes) (payload : Bytes) : List Mark × List Bytes :=
  match parseAudio payload with
  | .error _ => ([.frame payload, .error], decoded)
  | .ok frame =>
    (.frame payload :: .seq frame.seq :: if decodes decoded frame.opus then [] else [.error],
      decoded ++ [frame.opus])

/-- What a frame changes, and the voice after it, if it does not end the connection. -/
def hear (v : Voice) (payload : Bytes) : Option (List (Str × Mark) × Voice) :=
  match classify limit payload with
  | .error _ => none
  | .ok (.hello value) => some ([], ⟨value, v.decoded⟩)
  | .ok (.stat value) => some ([(v.imei, .stat value)], v)
  | .ok (.auth _ _) | .ok (.audio _) =>
    some ((audioMarks decodes v.decoded payload).1.map (v.imei, ·),
      ⟨v.imei, (audioMarks decodes v.decoded payload).2⟩)

def listen : Voice → List Bytes → List (Str × Mark) × Option Voice
  | v, [] => ([], some v)
  | v, payload :: frames =>
    match hear limit decodes v payload with
    | none => ([], none)
    | some (marks, v) => (marks ++ (listen v frames).1, (listen v frames).2)

theorem listen_append (v : Voice) (fs gs : List Bytes) : listen limit decodes v (fs ++ gs) =
    match listen limit decodes v fs with
    | (marks, none) => (marks, none)
    | (marks, some v) =>
      (marks ++ (listen limit decodes v gs).1, (listen limit decodes v gs).2) := by
  induction fs generalizing v with
  | nil => rfl
  | cons f fs ih =>
    rw [List.cons_append, listen, listen]
    cases hear limit decodes v f with
    | none => rfl
    | some r =>
      obtain ⟨marks, v⟩ := r
      simp only [ih]
      rcases listen limit decodes v fs with ⟨more, _ | v⟩
      · rfl
      · simp only [List.append_assoc]

def marked (marks : List (Str × Mark)) (id : Str) (d : DeviceStats) : DeviceStats :=
  ((marks.filter fun m ↦ m.1 = id).map Prod.snd).foldl .mark d

theorem marked_append (marks more : List (Str × Mark)) (id : Str) (d : DeviceStats) :
    marked (marks ++ more) id d = marked more id (marked marks id d) := by
  rw [marked, List.filter_append, List.map_append, List.foldl_append]
  rfl

theorem marked_own (ms : List Mark) (imei id : Str) (d : DeviceStats) :
    marked (ms.map (imei, ·)) id d = if id = imei then ms.foldl .mark d else d := by
  rw [marked, List.filter_map, List.map_map]
  split
  · next h =>
    subst h
    have hall : ms.filter ((fun m : Str × Mark ↦ decide (m.1 = id)) ∘ fun m ↦ (id, m)) = ms :=
      List.filter_eq_self.mpr fun m _ ↦ by simp
    have hid : ms.map (Prod.snd ∘ fun m ↦ (id, m)) = ms := List.map_id _
    rw [hall, hid]
  · next h =>
    have hnone : ms.filter ((fun m : Str × Mark ↦ decide (m.1 = id)) ∘ fun m ↦ (imei, m)) = [] :=
      List.filter_eq_nil_iff.mpr fun m _ ↦ by simpa using Ne.symm h
    rw [hnone]
    rfl

end Voices

section Spec

variable {s : Sink} {imei : Str}

def Known (s : Sink) (imei : Str) : Prop := (s.devices.get imei).isSome = true

theorem known_dev {x : Str} (h : Known s x) (imei : Str) : Known (s.dev imei) x := by
  rw [Sink.dev]
  split
  · exact h
  · rw [Known, Dict.get_set]
    split
    · rfl
    · exact h

theorem known_update {x : Str} (h : Known s x) (imei : Str) (f : DeviceStats → DeviceStats) :
    Known (s.update imei f) x := by
  rw [Sink.update]
  split
  · rw [Known, Dict.get_set]
    split
    · rfl
    · exact h
  · exact h

theorem known_refer {x : Str} (h : Known s x) (socket : Socket) : Known (s.refer socket).1 x := by
  rw [Sink.refer]
  split
  · exact h
  · exact known_dev h _

variable (limit : ℕ) (decodes : Decoder)

theorem known_audio {x : Str} (h : Known s x) (imei : Str) (decoded : List Bytes)
    (payload : Bytes) :
    Known (s.audio decodes imei decoded payload).1 x := by
  rw [Sink.audio]
  split
  · exact known_update (known_update h _ _) _ _
  · dsimp only
    split
    · exact known_update (known_update h _ _) _ _
    · exact known_update (known_update (known_update h _ _) _ _) _ _

theorem audio_marks (h : Known s imei) (decoded : List Bytes) (payload : Bytes) :
    (s.audio decodes imei decoded payload).2 = (audioMarks decodes decoded payload).2 ∧
      ∀ x, (s.audio decodes imei decoded payload).1.stats x =
        marked ((audioMarks decodes decoded payload).1.map (imei, ·)) x (s.stats x) := by
  have hnote : Known (s.update imei fun d ↦ d.noteFrame payload) imei := known_update h _ _
  rw [Sink.audio, audioMarks]
  cases parseAudio payload with
  | error e =>
    refine ⟨rfl, fun x ↦ ?_⟩
    rw [marked_own, update_stats _ x hnote, update_stats _ x h, update_stats _ imei h, if_pos rfl]
    split
    · next hx => rw [hx]; rfl
    · rfl
  | ok frame =>
    have hseq : Known ((s.update imei fun d ↦ d.noteFrame payload).update imei fun d ↦
        d.noteSeq frame.seq) imei :=
      known_update hnote _ _
    dsimp only
    refine ⟨rfl, fun x ↦ ?_⟩
    rw [marked_own]
    split
    · rw [update_stats _ x hnote, update_stats _ x h, update_stats _ imei h, if_pos rfl]
      split
      · next hx => rw [hx]; rfl
      · rfl
    · rw [update_stats _ x hseq, update_stats _ x hnote, update_stats _ imei hnote,
        update_stats _ x h, update_stats _ imei h, if_pos rfl, if_pos rfl]
      split
      · next hx => rw [hx]; rfl
      · rfl

/-- Nothing but these changes was made. -/
structure Hears (p : Sink × Socket) (marks : List (Str × Mark)) (p' : Sink × Socket) : Prop where
  settled : Settled p'
  stats : ∀ x, p'.1.stats x = marked marks x (p.1.stats x)
  known : ∀ x, Known p.1 x → Known p'.1 x
  connections : p'.1.connections = p.1.connections

theorem Hears.refl {p : Sink × Socket} (h : Settled p) : Hears p [] p :=
  ⟨h, fun _ ↦ rfl, fun _ ↦ id, rfl⟩

theorem Hears.trans {p q r : Sink × Socket} {marks more : List (Str × Mark)} (h : Hears p marks q)
    (h' : Hears q more r) : Hears p (marks ++ more) r := by
  refine ⟨h'.settled, fun x ↦ ?_, fun x hx ↦ h'.known x (h.known x hx),
    h'.connections.trans h.connections⟩
  rw [h'.stats, h.stats, marked_append]

theorem connections_dev (imei : Str) : (s.dev imei).connections = s.connections := by
  rw [Sink.dev]
  split <;> rfl

theorem connections_update (imei : Str) (f : DeviceStats → DeviceStats) :
    (s.update imei f).connections = s.connections := by
  rw [Sink.update]
  split <;> rfl

theorem connections_refer (socket : Socket) : (s.refer socket).1.connections = s.connections := by
  rw [Sink.refer]
  split
  · rfl
  · exact connections_dev _

theorem connections_audio (imei : Str) (decoded : List Bytes) (payload : Bytes) :
    (s.audio decodes imei decoded payload).1.connections = s.connections := by
  rw [Sink.audio]
  split
  · rw [connections_update, connections_update]
  · dsimp only
    split
    · rw [connections_update, connections_update]
    · rw [connections_update, connections_update, connections_update]

variable {p : Sink × Socket}

theorem take_hello (p : Sink × Socket) (payload : Bytes) (value : Str) :
    Hears p [] (take decodes payload p (.hello value)) := by
  refine ⟨?_, fun x ↦ dev_stats x, fun x hx ↦ known_dev hx value, connections_dev value⟩
  intro imei hd
  obtain rfl : value = imei := Option.some.inj hd
  exact ⟨rfl, dev_known⟩

theorem take_stat (h : Settled p) (payload : Bytes) (value : Value) :
    Hears p [(p.2.imei, .stat value)] (take decodes payload p (.stat value)) := by
  obtain ⟨href, hknown, hstats⟩ := refer_spec h
  rw [take]
  dsimp only
  rw [href]
  refine ⟨?_, fun x ↦ ?_, fun x hx ↦ known_update (known_refer hx _) _ _, ?_⟩
  · intro imei hd
    obtain rfl : p.2.imei = imei := Option.some.inj hd
    exact ⟨rfl, known_update hknown _ _⟩
  · have hown := marked_own [.stat value] p.2.imei x (p.1.stats x)
    rw [List.map_singleton] at hown
    rw [hown, update_stats _ x hknown, hstats, hstats]
    split
    · next hx => rw [hx]; rfl
    · rfl
  · exact (connections_update _ _).trans (connections_refer _)

theorem take_audio (h : Settled p) (payload : Bytes) {kind : Kind}
    (hkind : ∀ value, kind ≠ .hello value) (hkind' : ∀ value, kind ≠ .stat value) :
    Hears p ((audioMarks decodes p.2.decoded payload).1.map (p.2.imei, ·))
      (take decodes payload p kind) ∧
      (take decodes payload p kind).2.voice =
        ⟨p.2.imei, (audioMarks decodes p.2.decoded payload).2⟩ := by
  obtain ⟨href, hknown, hstats⟩ := refer_spec h
  obtain ⟨hdecoded, hmarks⟩ := audio_marks decodes hknown p.2.decoded payload
  have htake : take decodes payload p kind =
      (((p.1.refer p.2).1.audio decodes p.2.imei p.2.decoded payload).1,
        ⟨p.2.imei, some p.2.imei, (audioMarks decodes p.2.decoded payload).2⟩) := by
    cases kind with
    | hello value => exact absurd rfl (hkind value)
    | stat value => exact absurd rfl (hkind' value)
    | auth imei mac =>
      rw [take]
      dsimp only
      rw [href, hdecoded]
    | audio payload' =>
      rw [take]
      dsimp only
      rw [href, hdecoded]
  rw [htake]
  refine ⟨⟨?_, fun x ↦ ?_, fun x hx ↦ known_audio decodes (known_refer hx _) _ _ _, ?_⟩, rfl⟩
  · intro imei hd
    obtain rfl : p.2.imei = imei := Option.some.inj hd
    exact ⟨rfl, known_audio decodes hknown _ _ _⟩
  · rw [hmarks, hstats]
  · exact (connections_audio decodes _ _ _).trans (connections_refer _)

/-- What a frame changes is what it makes heard. -/
theorem dispatch_hear (h : Settled p) (payload : Bytes) :
    match hear limit decodes p.2.voice payload with
    | none => ∃ e, dispatch limit decodes p payload = .error e
    | some (marks, v) => ∃ p', dispatch limit decodes p payload = .ok p' ∧ Hears p marks p' ∧
    p'.2.voice = v := by
  rw [hear, dispatch]
  cases hkind : classify limit payload with
  | error e => exact ⟨e, rfl⟩
  | ok kind =>
    cases kind with
    | hello value => exact ⟨_, rfl, take_hello decodes p payload value, rfl⟩
    | stat value => exact ⟨_, rfl, take_stat decodes h payload value, rfl⟩
    | auth imei mac => exact ⟨_, rfl, take_audio decodes h payload (by simp) (by simp)⟩
    | audio payload' => exact ⟨_, rfl, take_audio decodes h payload (by simp) (by simp)⟩

theorem frameLoop_listen (h : Settled p) (frames : List Bytes) :
    Hears p (listen limit decodes p.2.voice frames).1 (frameLoop limit decodes p frames).1 ∧
      (listen limit decodes p.2.voice frames).2 =
        if (frameLoop limit decodes p frames).2.isNone then
          some (frameLoop limit decodes p frames).1.2.voice
        else none := by
  induction frames generalizing p with
  | nil => exact ⟨.refl h, rfl⟩
  | cons f frames ih =>
    have hf := dispatch_hear limit decodes h f
    rw [listen, frameLoop]
    cases hhear : hear limit decodes p.2.voice f with
    | none =>
      rw [hhear] at hf
      obtain ⟨e, he⟩ := hf
      rw [he]
      exact ⟨.refl h, rfl⟩
    | some heard =>
      obtain ⟨marks, v⟩ := heard
      rw [hhear] at hf
      obtain ⟨p', hp', hmarks, rfl⟩ := hf
      obtain ⟨hrest, hvoice⟩ := ih hmarks.settled
      rw [hp']
      exact ⟨hmarks.trans hrest, hvoice⟩

theorem handle_listen (ending : Ending) {chunks : List Bytes} (hchunks : ∀ c ∈ chunks, c ≠ [])
    (s : Sink) (id : Str) :
    (s.handle limit decodes ending chunks).1.stats id =
      marked (listen limit decodes .init (iterFrames chunks.flatten).1).1 id (s.stats id) := by
  rw [sink_handle_eq limit decodes ending chunks hchunks]
  exact (frameLoop_listen limit decodes (settled_init _) _).1.stats id

end Spec

structure Conn where
  socket : Socket
  buf : Bytes
  reading : Bool

/-- A connection comes in, a read gives bytes, or the reading ends: at the end of the stream, after
the time-out or with an error of the socket. -/
inductive Event
  | accept (c : ℕ)
  | recv (c : ℕ) (chunk : Bytes)
  | ended (c : ℕ)

structure Serving where
  sink : Sink
  conns : ℕ → Option Conn

section Serving

variable (limit : ℕ) (decodes : Decoder)

/-- What a connection does from one read to the next. -/
def resume (sink : Sink) (conn : Conn) (chunk : Bytes) : Sink × Conn :=
  let (frames, buf) := iterFrames (conn.buf ++ chunk)
  let (p, raised) := frameLoop limit decodes (sink, conn.socket) frames
  (p.1, ⟨p.2, buf, raised.isNone⟩)

def Serving.init : Serving := ⟨.init, fun _ ↦ none⟩

def Serving.settle (s : Serving) (c : ℕ) (p : Sink × Conn) : Serving :=
  ⟨p.1, Function.update s.conns c (some p.2)⟩

def Serving.step (s : Serving) : Event → Option Serving
  | .accept c =>
    match s.conns c with
    | some _ => none
    | none => some (s.settle c ({ s.sink with connections := s.sink.connections + 1 },
      ⟨.init, [], true⟩))
  | .recv c chunk =>
    match s.conns c with
    | some conn =>
      if conn.reading ∧ chunk ≠ [] then some (s.settle c (resume limit decodes s.sink conn chunk))
      else none
    | none => none
  | .ended c =>
    match s.conns c with
    | some conn => if conn.reading then some (s.settle c (s.sink, { conn with reading := false }))
      else none
    | none => none

def accepted (es : List Event) : List ℕ :=
  es.filterMap fun
    | .accept c => some c
    | _ => none

def chunks (c : ℕ) (es : List Event) : List Bytes :=
  es.filterMap fun
    | .recv c' chunk => if c' = c then some chunk else none
    | _ => none

/-- The changes that the bytes of connection `c` call for. -/
def marksOf (c : ℕ) (es : List Event) : List (Str × Mark) :=
  (listen limit decodes .init (iterFrames (chunks c es).flatten).1).1

/-- The changes that an event completes, each with its connection. -/
def news (before : List Event) : Event → List (ℕ × Str × Mark)
  | .recv c chunk =>
    ((marksOf limit decodes c (before ++ [.recv c chunk])).drop
      (marksOf limit decodes c before).length).map (c, ·)
  | _ => []

/-- The changes in the order in which the reads complete them. -/
def annals (before : List Event) : List Event → List (ℕ × Str × Mark)
  | [] => []
  | e :: es => news limit decodes before e ++ annals (before ++ [e]) es

theorem annals_concat (before es : List Event) (e : Event) :
    annals limit decodes before (es ++ [e]) =
    annals limit decodes before es ++ news limit decodes (before ++ es) e := by
  induction es generalizing before with
  | nil => simp [annals]
  | cons x es ih =>
    rw [List.cons_append, annals, annals, ih, List.append_assoc, List.append_assoc,
      List.singleton_append]

theorem chunks_recv (c : ℕ) (chunk : Bytes) (es : List Event) :
    chunks c (es ++ [.recv c chunk]) = chunks c es ++ [chunk] := by simp [chunks]

theorem chunks_other {c : ℕ} {e : Event} (h : ∀ chunk, e ≠ .recv c chunk) (es : List Event) :
    chunks c (es ++ [e]) = chunks c es := by
  cases e with
  | accept c' => simp [chunks]
  | ended c' => simp [chunks]
  | recv c' chunk =>
    have hne : c' ≠ c := by
      rintro rfl
      exact h chunk rfl
    simp [chunks, hne]

theorem marksOf_grow (c : ℕ) (es : List Event) (e : Event) :
    marksOf limit decodes c es <+: marksOf limit decodes c (es ++ [e]) := by
  by_cases he : ∃ chunk, e = .recv c chunk
  · obtain ⟨chunk, rfl⟩ := he
    rw [marksOf, marksOf, chunks_recv, List.flatten_append, List.flatten_singleton,
      iterFrames_resumable.resume, listen_append]
    rcases listen limit decodes .init (iterFrames (chunks c es).flatten).1 with ⟨marks, _ | v⟩
    · exact List.prefix_rfl
    · exact List.prefix_append _ _
  · rw [marksOf, marksOf, chunks_other fun chunk h ↦ he ⟨chunk, h⟩]

/-- The annals merge the connections. -/
theorem annals_merge (es : List Event) :
    Shuffle (fun c ↦ marksOf limit decodes c es) (annals limit decodes [] es) := by
  induction es using List.reverseRecOn with
  | nil => exact fun c ↦ rfl
  | append_singleton es e ih =>
    intro c
    rw [annals_concat, List.nil_append, List.filter_append, List.map_append, ih c]
    by_cases he : ∃ chunk, e = .recv c chunk
    · obtain ⟨chunk, rfl⟩ := he
      obtain ⟨more, hmore⟩ := marksOf_grow limit decodes c es (.recv c chunk)
      dsimp only
      rw [news, ← hmore, List.drop_left]
      simp [List.filter_map, Function.comp_def]
    · have hmarks : marksOf limit decodes c (es ++ [e]) = marksOf limit decodes c es := by
        rw [marksOf, marksOf, chunks_other fun chunk h ↦ he ⟨chunk, h⟩]
      have hnone : (news limit decodes es e).filter (fun x ↦ x.1 = c) = [] := by
        cases e with
        | accept c' => rfl
        | ended c' => rfl
        | recv c' chunk =>
          have hne : c' ≠ c := by
            rintro rfl
            exact he ⟨chunk, rfl⟩
          refine List.filter_eq_nil_iff.mpr fun x hx ↦ ?_
          obtain ⟨m, -, rfl⟩ := List.mem_map.mp hx
          simpa using hne
      dsimp only
      rw [hnone, hmarks]
      simp

variable {limit decodes} {s s' : Serving} {es : List Event}

theorem step_cases {e : Event} (h : s.step limit decodes e = some s') :
    (∃ c, e = .accept c ∧ s.conns c = none ∧
      s' = s.settle c ({ s.sink with connections := s.sink.connections + 1 }, ⟨.init, [], true⟩)) ∨
    (∃ c chunk conn, e = .recv c chunk ∧ chunk ≠ [] ∧ s.conns c = some conn ∧ conn.reading = true ∧
      s' = s.settle c (resume limit decodes s.sink conn chunk)) ∨
    (∃ c conn, e = .ended c ∧ s.conns c = some conn ∧ conn.reading = true ∧
      s' = s.settle c (s.sink, { conn with reading := false })) := by
  cases e with
  | accept c =>
    rw [Serving.step] at h
    split at h
    · cases h
    · next hc => exact .inl ⟨c, rfl, hc, (Option.some.inj h).symm⟩
  | recv c chunk =>
    rw [Serving.step] at h
    split at h
    · next conn hc =>
      split at h
      · next hread =>
          exact .inr (.inl ⟨c, chunk, conn, rfl, hread.2, hc, hread.1, (Option.some.inj h).symm⟩)
      · cases h
    · cases h
  | ended c =>
    rw [Serving.step] at h
    split at h
    · next conn hc =>
      split at h
      · next hread => exact .inr (.inr ⟨c, conn, rfl, hc, hread, (Option.some.inj h).symm⟩)
      · cases h
    · cases h

structure Abreast (limit : ℕ) (decodes : Decoder) (read : List Bytes) (p : Sink × Conn) : Prop where
  settled : Settled (p.1, p.2.socket)
  buf : (iterFrames read.flatten).2 = p.2.buf
  voice : (listen limit decodes .init (iterFrames read.flatten).1).2 = some p.2.socket.voice

/-- What each connection that still reads has heard, and what all of them have changed. -/
structure Served (limit : ℕ) (decodes : Decoder) (es : List Event) (s : Serving) : Prop where
  unborn : ∀ c, s.conns c = none → chunks c es = []
  reading : ∀ c conn, s.conns c = some conn → conn.reading = true →
    Abreast limit decodes (chunks c es) (s.sink, conn)
  stats : ∀ id, s.sink.stats id = marked ((annals limit decodes [] es).map Prod.snd) id (.new id)
  connections : s.sink.connections = (accepted es).length

theorem served_init : Served limit decodes [] .init := by
  refine ⟨fun c _ ↦ rfl, ?_, fun id ↦ rfl, rfl⟩
  intro c conn h
  simp [Serving.init] at h

theorem settle_conns (s : Serving) (c : ℕ) (p : Sink × Conn) :
    (s.settle c p).conns = Function.update s.conns c (some p.2) := rfl

theorem Served.settle {c : ℕ} {e : Event} {p : Sink × Conn} (h : Served limit decodes es s)
    (he : ∀ x ≠ c, ∀ chunk, e ≠ .recv x chunk) (hknown : ∀ x, Known s.sink x → Known p.1 x)
    (hown : p.2.reading = true → Abreast limit decodes (chunks c (es ++ [e])) p)
    (hstats : ∀ id, p.1.stats id =
      marked ((news limit decodes es e).map Prod.snd) id (s.sink.stats id))
    (hconnections : p.1.connections = s.sink.connections + (accepted [e]).length) :
    Served limit decodes (es ++ [e]) (s.settle c p) := by
  refine ⟨fun x hx ↦ ?_, fun x conn hx hread ↦ ?_, fun id ↦ ?_, ?_⟩
  · rw [settle_conns] at hx
    have hxc : x ≠ c := by
      rintro rfl
      simp at hx
    rw [Function.update_of_ne hxc] at hx
    rw [chunks_other (he x hxc), h.unborn x hx]
  · rw [settle_conns] at hx
    by_cases hxc : x = c
    · subst hxc
      obtain rfl := Option.some.inj ((Function.update_self x _ _).symm.trans hx)
      exact hown hread
    · rw [Function.update_of_ne hxc] at hx
      obtain ⟨hsettled, hbuf, hvoice⟩ := h.reading x conn hx hread
      rw [chunks_other (he x hxc)]
      exact ⟨fun imei hd ↦ ⟨(hsettled imei hd).1, hknown imei (hsettled imei hd).2⟩, hbuf, hvoice⟩
  · rw [annals_concat, List.nil_append, List.map_append, marked_append, ← h.stats]
    exact hstats id
  · rw [accepted, List.filterMap_append, List.length_append, ← accepted, ← h.connections]
    exact hconnections

theorem Served.recv {c : ℕ} {chunk : Bytes} {conn : Conn} (h : Served limit decodes es s)
    (hconn : s.conns c = some conn) (hread : conn.reading = true) :
    Served limit decodes (es ++ [.recv c chunk])
      (s.settle c (resume limit decodes s.sink conn chunk)) := by
  obtain ⟨hsettled, hbuf, hvoice⟩ := h.reading c conn hconn hread
  obtain ⟨hheard, hmore⟩ :=
    frameLoop_listen limit decodes hsettled (iterFrames (conn.buf ++ chunk)).1
  have hframes : iterFrames (chunks c (es ++ [.recv c chunk])).flatten =
      ((iterFrames (chunks c es).flatten).1 ++ (iterFrames (conn.buf ++ chunk)).1,
        (iterFrames (conn.buf ++ chunk)).2) := by
    rw [chunks_recv, List.flatten_append, List.flatten_singleton, iterFrames_resumable.resume, hbuf]
  have hlisten : listen limit decodes .init
    (iterFrames (chunks c (es ++ [.recv c chunk])).flatten).1 =
      (marksOf limit decodes c es ++
        (listen limit decodes conn.socket.voice (iterFrames (conn.buf ++ chunk)).1).1,
        (listen limit decodes conn.socket.voice (iterFrames (conn.buf ++ chunk)).1).2) := by
    rw [hframes, listen_append, marksOf]
    rcases hl : listen limit decodes .init (iterFrames (chunks c es).flatten).1 with ⟨marks, v⟩
    rw [hl] at hvoice
    obtain rfl : v = some conn.socket.voice := hvoice
    rfl
  have hnews : (news limit decodes es (.recv c chunk)).map Prod.snd =
      (listen limit decodes conn.socket.voice (iterFrames (conn.buf ++ chunk)).1).1 := by
    rw [news, marksOf.eq_def limit decodes c (es ++ _), hlisten, List.drop_left, List.map_map]
    exact List.map_id _
  refine h.settle ?_ hheard.known ?_ ?_ hheard.connections
  · rintro x hx chunk' he
    obtain ⟨rfl, -⟩ := Event.recv.inj he
    exact hx rfl
  · intro hread'
    refine ⟨hheard.settled, by rw [hframes]; rfl, ?_⟩
    rw [hlisten]
    exact hmore.trans (if_pos hread')
  · intro id
    rw [hnews]
    exact hheard.stats id

theorem served_run (hrun : run (Serving.step limit decodes) .init es = some s) :
    Served limit decodes es s := by
  refine run_induction (I := Served limit decodes) served_init ?_ (throughout_true es) hrun
  intro es m e m' _ h _ hs
  obtain ⟨c, rfl, hfresh, rfl⟩ | ⟨c, chunk, conn, rfl, -, hconn, hread, rfl⟩ | ⟨c, conn, rfl,
      hconn, -, rfl⟩ :=
    step_cases hs
  · refine h.settle (by simp) (fun x ↦ id) (fun _ ↦ ?_) (fun _ ↦ rfl) rfl
    rw [chunks_other (by simp), h.unborn c hfresh]
    exact ⟨settled_init _, rfl, rfl⟩
  · exact h.recv hconn hread
  · exact h.settle (by simp) (fun x ↦ id) (by simp) (fun _ ↦ rfl) rfl

end Serving

section Sums

variable {limit : ℕ} {decodes : Decoder} {s : Serving} {es : List Event}

def weightUnder (id : Str) (m : Str × Mark) : Tally × ℕ := if m.1 = id then m.2.weight else 0

theorem counts_marked (marks : List (Str × Mark)) (id : Str) (d : DeviceStats) :
    (marked marks id d).counts = d.counts + (marks.map (weightUnder id)).sum := by
  induction marks generalizing d with
  | nil => rfl
  | cons m marks ih =>
    rw [← List.singleton_append, marked_append, ih, List.map_append, List.sum_append, ← add_assoc]
    congr 1
    by_cases hm : m.1 = id
    · have hone : marked [m] id d = d.mark m.2 := by simp [marked, hm]
      rw [hone, counts_mark]
      simp [weightUnder, hm]
    · have hnone : marked [m] id d = d := by simp [marked, hm]
      rw [hnone]
      simp [weightUnder, hm]

theorem run_accepted (hrun : run (Serving.step limit decodes) .init es = some s) :
    (accepted es).Nodup ∧ (∀ c, c ∈ accepted es ↔ s.conns c ≠ none) ∧
    ∀ c, ∀ chunk ∈ chunks c es, chunk ≠ [] := by
  refine run_induction (I := fun es s ↦ (accepted es).Nodup ∧
    (∀ c, c ∈ accepted es ↔ s.conns c ≠ none) ∧
    ∀ c, ∀ chunk ∈ chunks c es, chunk ≠ []) ?_ ?_ (throughout_true es) hrun
  · exact ⟨List.nodup_nil, by simp [accepted, Serving.init], by simp [chunks]⟩
  intro es m e m' _ ⟨hnodup, hmem, hne⟩ _ hs
  obtain ⟨c, rfl, hfresh, rfl⟩ | ⟨c, chunk, conn, rfl, hchunk, hconn, -, rfl⟩ | ⟨c, conn, rfl,
      hconn, -, rfl⟩ :=
    step_cases hs
  · have hacc : accepted (es ++ [.accept c]) = accepted es ++ [c] := by simp [accepted]
    rw [hacc, settle_conns]
    refine ⟨hnodup.append (List.nodup_singleton c) ?_, fun x ↦ ?_, fun x chunk hx ↦ ?_⟩
    · simpa [hmem] using hfresh
    · by_cases hx : x = c
      · simp [hx]
      · simp [hx, hmem]
    · rw [chunks_other (by simp)] at hx
      exact hne x chunk hx
  · have hacc : accepted (es ++ [.recv c chunk]) = accepted es := by simp [accepted]
    rw [hacc, settle_conns]
    refine ⟨hnodup, fun x ↦ ?_, fun x chunk' hx ↦ ?_⟩
    · by_cases hx : x = c
      · simp [hx, hmem, hconn]
      · simp [hx, hmem]
    · by_cases hxc : x = c
      · subst hxc
        rw [chunks_recv] at hx
        rcases List.mem_append.mp hx with hx | hx
        · exact hne x chunk' hx
        · rwa [List.mem_singleton.mp hx]
      · rw [chunks_other (by simpa using Ne.symm hxc)] at hx
        exact hne x chunk' hx
  · have hacc : accepted (es ++ [.ended c]) = accepted es := by simp [accepted]
    rw [hacc, settle_conns]
    refine ⟨hnodup, fun x ↦ ?_, fun x chunk hx ↦ ?_⟩
    · by_cases hx : x = c
      · simp [hx, hmem, hconn]
      · simp [hx, hmem]
    · rw [chunks_other (by simp)] at hx
      exact hne x chunk hx

theorem annals_accepted (hrun : run (Serving.step limit decodes) .init es = some s) :
    ∀ x ∈ annals limit decodes [] es, x.1 ∈ accepted es := by
  obtain ⟨-, hmem, -⟩ := run_accepted hrun
  intro x hx
  rw [hmem]
  intro hnone
  have hlog := (annals_merge limit decodes es).mem.mp (show (x.1, x.2) ∈ _ from hx)
  rw [marksOf, (served_run hrun).unborn x.1 hnone] at hlog
  cases hlog

/-- Interleaving decides the order of the changes and nothing else. After any run the numbers of a
device come from some merge of what each connection would change on its own, and those that do not
depend on an order are the sums over the connections. -/
theorem served_as_alone (hrun : run (Serving.step limit decodes) .init es = some s) :
    s.sink.connections = (accepted es).length ∧
    (∃ xs, Shuffle (fun c ↦ marksOf limit decodes c es) xs ∧
      ∀ id, s.sink.stats id = marked (xs.map Prod.snd) id (.new id)) ∧
    ∀ ending id,
      (∀ c, (Sink.init.handle limit decodes ending (chunks c es)).1.stats id =
        marked (marksOf limit decodes c es) id (.new id)) ∧
      (s.sink.stats id).counts =
        ((accepted es).map fun c ↦
          ((Sink.init.handle limit decodes ending (chunks c es)).1.stats id).counts).sum := by
  obtain ⟨hnodup, -, hne⟩ := run_accepted hrun
  have hserved := served_run hrun
  have hmerge := annals_merge limit decodes es
  refine ⟨hserved.connections, ⟨_, hmerge, hserved.stats⟩, fun ending id ↦ ?_⟩
  have halone (c : ℕ) : (Sink.init.handle limit decodes ending (chunks c es)).1.stats id =
      marked (marksOf limit decodes c es) id (.new id) :=
        handle_listen limit decodes ending (hne c) .init id
  refine ⟨halone, ?_⟩
  have hnew : (DeviceStats.new id).counts = 0 := rfl
  rw [hserved.stats, counts_marked, hnew, zero_add,
    hmerge.sum_map (weightUnder id) hnodup (annals_accepted hrun)]
  refine congrArg List.sum (List.map_congr_left fun c _ ↦ ?_)
  rw [halone, counts_marked, hnew, zero_add]

/-- Device A is back on a second connection while its first one is still read. -/
def overlapped : List Event :=
  [.accept 0, .recv 0 [0],
    .recv 0 ([ascii "HELLO:A", buildAudio [7] 1 960 rtpSsrc].flatMap encodeFrame).tail,
    .accept 1, .recv 1 ([ascii "HELLO:A", buildAudio [7] 3 2880 rtpSsrc].flatMap encodeFrame),
    .recv 0 (encodeFrame (buildAudio [7] 2 1920 rtpSsrc)), .ended 0]

theorem served_as_alone_overlapped :
    ∃ s, run (Serving.step 1000 fun _ _ ↦ true) .init overlapped = some s ∧
    s.sink.connections = 2 ∧ (s.sink.stats (lit "A")).counts = ((3, 39, 0), 0) := by
  have hsome : (run (Serving.step 1000 fun _ _ ↦ true) .init overlapped).isSome = true := by
    decide +kernel
  obtain ⟨s, hs⟩ := Option.isSome_iff_exists.mp hsome
  obtain ⟨hconnections, -, hsums⟩ := served_as_alone hs
  refine ⟨s, hs, hconnections, (hsums .eof (lit "A")).2.trans ?_⟩
  decide +kernel

end Sums

end Sink

end OpusFleet.Server
