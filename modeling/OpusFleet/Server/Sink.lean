import OpusFleet.Server.Framing
import OpusFleet.Server.Ingest

namespace OpusFleet.Server

open Python Library Protocol

/-- What the reference receiver counts for a device. Its level meter and its two
wall-clock times are left out. -/
structure DeviceStats where
  imei : Str
  frames : ℕ
  bytes : ℕ
  statsRx : ℕ
  decodeErrors : ℕ
  lost : ℕ
  reordered : ℕ
  lastSeq : Option ℕ
  lastStat : Option Value

namespace DeviceStats

def new (imei : Str) : DeviceStats where
  imei := imei
  frames := 0
  bytes := 0
  statsRx := 0
  decodeErrors := 0
  lost := 0
  reordered := 0
  lastSeq := none
  lastStat := none

def gap (seq last : ℕ) : ℕ := (((seq : ℤ) - last - 1) % 2 ^ 16).toNat

def noteSeq (d : DeviceStats) (seq : ℕ) : DeviceStats :=
  match d.lastSeq with
  | none => { d with lastSeq := some seq }
  | some last =>
    if gap seq last = 0 then { d with lastSeq := some seq }
    else if gap seq last < 0x8000 then { d with lost := d.lost + gap seq last, lastSeq := some seq }
    else { d with reordered := d.reordered + 1 }

def noteFrame (d : DeviceStats) (payload : Bytes) : DeviceStats :=
  { d with frames := d.frames + 1, bytes := d.bytes + payload.length }

def noteStat (d : DeviceStats) (value : Value) : DeviceStats :=
  { d with statsRx := d.statsRx + 1, lastStat := some value }

def noteError (d : DeviceStats) : DeviceStats := { d with decodeErrors := d.decodeErrors + 1 }

end DeviceStats

structure Sink where
  devices : Dict Str DeviceStats
  connections : ℕ

/-- The local variables of `Sink.handle`: `d` is the id of the device they refer to, and `decoded`
the packets that the socket's decoder has been given. -/
structure Sink.Socket where
  imei : Str
  d : Option Str
  decoded : List Bytes

namespace Sink

def init : Sink := ⟨.empty, 0⟩

def Socket.init : Socket := ⟨lit "unknown", none, []⟩

def stats (s : Sink) (imei : Str) : DeviceStats := (s.devices.get imei).getD (.new imei)

def dev (s : Sink) (imei : Str) : Sink :=
  match s.devices.get imei with
  | some _ => s
  | none => { s with devices := s.devices.set imei (.new imei) }

def update (s : Sink) (imei : Str) (f : DeviceStats → DeviceStats) : Sink :=
  match s.devices.get imei with
  | some d => { s with devices := s.devices.set imei (f d) }
  | none => s

def refer (s : Sink) (socket : Socket) : Sink × Str :=
  match socket.d with
  | some imei => (s, imei)
  | none => (s.dev socket.imei, socket.imei)

/-- `decodes packets opus`: whether a decoder that was given `packets` decodes `opus` next. -/
abbrev Decoder := List Bytes → Bytes → Bool

variable (limit : ℕ) (decodes : Decoder)

def audio (s : Sink) (imei : Str) (decoded : List Bytes) (payload : Bytes) : Sink × List Bytes :=
  let s := s.update imei (·.noteFrame payload)
  match parseAudio payload with
  | .error _ => (s.update imei .noteError, decoded)
  | .ok frame =>
    let s := s.update imei (·.noteSeq frame.seq)
    (if decodes decoded frame.opus then s else s.update imei .noteError, decoded ++ [frame.opus])

/-- The body of the frame loop on a payload of a kind. An AUTH frame is taken for audio. -/
def take (payload : Bytes) (p : Sink × Socket) : Kind → Sink × Socket
  | .hello value => (p.1.dev value, { p.2 with imei := value, d := some value })
  | .stat value =>
    let (s, imei) := p.1.refer p.2
    (s.update imei (·.noteStat value), { p.2 with d := some imei })
  | .auth _ _ | .audio _ =>
    let (s, imei) := p.1.refer p.2
    let (s, decoded) := s.audio decodes imei p.2.decoded payload
    (s, { p.2 with d := some imei, decoded := decoded })

def dispatch (p : Sink × Socket) (payload : Bytes) : Except Exc (Sink × Socket) :=
  (classify limit payload).map (take decodes payload p)

def frameLoop : Sink × Socket → List Bytes → (Sink × Socket) × Option Exc
  | p, [] => (p, none)
  | p, payload :: frames =>
    match dispatch limit decodes p payload with
    | .ok p => frameLoop p frames
    | .error e => (p, some e)

def mainLoop (ending : Ending) : Sink × Socket → Bytes → List Bytes → (Sink × Socket) × Option Exc
  | p, _, [] => (p, ending.raised)
  | p, buf, chunk :: chunks =>
    if chunk = [] then (p, none)
    else
      match frameLoop limit decodes p (iterFrames (buf ++ chunk)).1 with
      | (p, none) => mainLoop ending p (iterFrames (buf ++ chunk)).2 chunks
      | (p, some e) => (p, some e)

def handle (ending : Ending) (chunks : List Bytes) (s : Sink) : Sink × Option Exc :=
  let (p, raised) :=
    mainLoop limit decodes ending ({ s with connections := s.connections + 1 }, .init) [] chunks
  (p.1, raised.filter (! Ingest.swallows ·))

end Sink

section Tables

variable {s : Sink} {imei : Str} (f : DeviceStats → DeviceStats) (x : Str)

theorem dev_known : ((s.dev imei).devices.get imei).isSome = true := by
  rw [Sink.dev]
  split
  · next h => simp [h]
  · simp

@[simp] theorem dev_stats : (s.dev imei).stats x = s.stats x := by
  rw [Sink.dev]
  split
  · rfl
  · next h =>
    by_cases hx : x = imei
    · subst hx
      simp [Sink.stats, h]
    · simp [Sink.stats, hx]

theorem update_stats (h : (s.devices.get imei).isSome = true) :
    (s.update imei f).stats x = if x = imei then f (s.stats imei) else s.stats x := by
  obtain ⟨d, hd⟩ := Option.isSome_iff_exists.mp h
  rw [Sink.update, hd]
  by_cases hx : x = imei
  · subst hx
    simp [Sink.stats, hd]
  · simp [Sink.stats, hx]

theorem update_known (h : (s.devices.get imei).isSome = true) :
    ((s.update imei f).devices.get imei).isSome = true := by
  obtain ⟨d, hd⟩ := Option.isSome_iff_exists.mp h
  rw [Sink.update, hd]
  simp

/-- A device that a socket refers to is in the table, and it is the one the socket names. -/
def Sink.Settled (p : Sink × Sink.Socket) : Prop :=
  ∀ imei, p.2.d = some imei → imei = p.2.imei ∧ (p.1.devices.get imei).isSome = true

theorem settled_init (s : Sink) : Sink.Settled (s, .init) := by
  simp [Sink.Settled, Sink.Socket.init]

theorem refer_spec {p : Sink × Sink.Socket} (h : Sink.Settled p) :
    (p.1.refer p.2).2 = p.2.imei ∧ ((p.1.refer p.2).1.devices.get p.2.imei).isSome = true ∧
      ∀ x, (p.1.refer p.2).1.stats x = p.1.stats x := by
  rw [Sink.refer]
  split
  · next imei hd =>
    obtain ⟨rfl, hknown⟩ := h imei hd
    exact ⟨rfl, hknown, fun _ ↦ rfl⟩
  · exact ⟨rfl, dev_known, dev_stats⟩

end Tables

section Loops

open Library.Incremental

variable (limit : ℕ) (decodes : Sink.Decoder)

theorem sink_frameLoop_append (fs gs : List Bytes) (p : Sink × Sink.Socket) :
    Sink.frameLoop limit decodes p (fs ++ gs) =
      match Sink.frameLoop limit decodes p fs with
      | (p, none) => Sink.frameLoop limit decodes p gs
      | (p, some e) => (p, some e) := by
  induction fs generalizing p with
  | nil => rfl
  | cons f fs ih =>
    simp only [List.cons_append, Sink.frameLoop]
    cases Sink.dispatch limit decodes p f with
    | error e => rfl
    | ok q => exact ih q

theorem sink_mainLoop_eq (ending : Ending) (chunks : List Bytes) (hchunks : ∀ c ∈ chunks, c ≠ [])
    (p : Sink × Sink.Socket) (buf : Bytes) :
    (Sink.mainLoop limit decodes ending p buf chunks).1 =
      (Sink.frameLoop limit decodes p (feed iterFrames buf chunks).1).1 := by
  induction chunks generalizing p buf with
  | nil => rfl
  | cons chunk chunks ih =>
    have hc : chunk ≠ [] := hchunks chunk (by simp)
    have hrest : ∀ c ∈ chunks, c ≠ [] := fun c h ↦ hchunks c (by simp [h])
    simp only [Sink.mainLoop, if_neg hc, feed_cons, sink_frameLoop_append]
    rcases Sink.frameLoop limit decodes p (iterFrames (buf ++ chunk)).1 with ⟨q, _ | e⟩
    · exact ih hrest q _
    · rfl

theorem sink_handle_eq (ending : Ending) (chunks : List Bytes)
    (hchunks : ∀ c ∈ chunks, c ≠ []) (s : Sink) :
    (s.handle limit decodes ending chunks).1 = (Sink.frameLoop limit decodes
      ({ s with connections := s.connections + 1 }, .init) (iterFrames chunks.flatten).1).1.1 := by
  have hloop := sink_mainLoop_eq limit decodes ending chunks hchunks
    ({ s with connections := s.connections + 1 }, .init) []
  rw [iterFrames_resumable.feed_settled [] rfl, List.nil_append] at hloop
  exact congrArg Prod.fst hloop

end Loops

end OpusFleet.Server
