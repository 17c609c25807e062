import OpusFleet.Library.Dict
import OpusFleet.Library.Runs
import OpusFleet.Python.Floats
import OpusFleet.Server.OggOpus
import OpusFleet.Server.Storage

namespace OpusFleet.Server.Segmenter

open Python Library

/-- The configuration and what comes from outside: the clock at the moments when it is
read or `poll` returns, `hash` of a device and a time, and whether the store and the
producer take what they are given. -/
structure Env where
  segmentSeconds : ℤ
  clock : ℕ → ℚ≥0
  hash : Str → ℚ≥0 → ℤ
  stores : ℕ → Bool
  takes : ℕ → Bool

def packetsPerSegment (env : Env) : ℤ := (env.segmentSeconds * 1000).tdiv Protocol.frameMs

structure DeviceSegment where
  imei : Str
  startedAt : ℚ≥0
  packets : List Bytes
  serial : ℤ

namespace DeviceSegment

def fresh (env : Env) (imei : Str) (now : ℚ≥0) : DeviceSegment where
  imei := imei
  startedAt := now
  packets := []
  serial := if env.hash imei now % 2 ^ 31 = 0 then 1 else env.hash imei now % 2 ^ 31

def add (seg : DeviceSegment) (opusPacket : Bytes) : DeviceSegment :=
  { seg with packets := seg.packets ++ [opusPacket] }

def full (env : Env) (seg : DeviceSegment) : Bool := packetsPerSegment env ≤ seg.packets.length

/-- `seg.started_at < cutoff`, with the cutoff taken at the time `now`. -/
def overdue (env : Env) (now : ℚ≥0) (seg : DeviceSegment) : Bool :=
  PyFloat.lt (.finite seg.startedAt) (.sub (.finite now) (.rounded (env.segmentSeconds * 2)))

def buildOpus (seg : DeviceSegment) : Except Exc (Bytes × ℚ) :=
  OggOpus.mux seg.serial Protocol.channels Protocol.frameSamples OggOpus.preSkip seg.packets

end DeviceSegment

structure Put where
  seg : DeviceSegment
  data : Bytes
  duration : ℚ

def Put.key (p : Put) : Str := Storage.keyFor p.seg.imei p.seg.startedAt p.duration (lit "opus")

structure Landed where
  imei : Str
  key : Str
  bytes : ℕ
  duration : ℚ
  time : ℚ≥0

inductive Status
  | running
  | stopped
  | raised (e : Exc)
  deriving DecidableEq

/-- `ticks` counts the moments gone by; `puts` and `landed` are the calls of `put_segment` and the
messages that the producer took, `store` is the bucket. -/
structure State where
  ticks : ℕ
  segments : Dict Str DeviceSegment
  puts : List Put
  uploaded : ℕ
  store : Dict Str Bytes
  landed : List Landed
  status : Status

def State.init : State := ⟨0, Dict.empty, [], 0, Dict.empty, [], .running⟩

section Flush

variable (env : Env)

def State.tick (s : State) : State := { s with ticks := s.ticks + 1 }

def State.reset (s : State) (imei : Str) : State :=
  { s with
    ticks := s.ticks + 1,
    segments := s.segments.set imei (.fresh env imei (env.clock s.ticks)) }

/-- The `try` block of `flush`. -/
def State.upload (s : State) (p : Put) : State :=
  if env.stores s.puts.length then
    { s with
      ticks := s.ticks + 1,
      puts := s.puts ++ [p],
      uploaded := s.uploaded + 1,
      store := s.store.set p.key p.data,
      landed := if env.takes s.uploaded then
          s.landed ++ [⟨p.seg.imei, p.key, p.data.length, p.duration, env.clock s.ticks⟩]
        else s.landed }
  else { s with puts := s.puts ++ [p] }

def flush (s : State) (seg : DeviceSegment) : State × Option Exc :=
  if seg.packets = [] then (s, none)
  else match seg.buildOpus with
    | .error e => (s, some e)
    | .ok (data, duration) => ((s.upload env ⟨seg, data, duration⟩).reset env seg.imei, none)

/-- `for seg in segments.values(): if close(seg): flush(seg)`. A segment is an object: what is
flushed is its content when its turn comes. -/
def flushEach (close : DeviceSegment → Bool) : List Str → State → State × Option Exc
  | [], s => (s, none)
  | imei :: rest, s =>
    match s.segments.get imei with
    | none => flushEach close rest s
    | some seg =>
      if close seg then
        match flush env s seg with
        | (s, none) => flushEach close rest s
        | (s, some e) => (s, some e)
      else flushEach close rest s

end Flush

section Loop

variable (env : Env)

/-- What `poll` gives: nothing within its second, an error, a message, or it is interrupted. -/
inductive Event
  | idle
  | error
  | message (key : Option Bytes) (value : Bytes)
  | interrupt
  deriving DecidableEq

/-- `msg.key().decode() if msg.key() else "unknown"`. -/
def keyText : Option Bytes → Except Exc Str
  | none => .ok (lit "unknown")
  | some [] => .ok (lit "unknown")
  | some (b :: bs) => match decode (b :: bs) with
    | none => .error .unicode
    | some imei => .ok imei

def State.segment (s : State) (imei : Str) : State × DeviceSegment :=
  match s.segments.get imei with
  | some seg => (s, seg)
  | none => (s.reset env imei, .fresh env imei (env.clock s.ticks))

def consume (s : State) (key : Option Bytes) (value : Bytes) : State × Option Exc :=
  match keyText key with
  | .error e => (s, some e)
  | .ok imei => match Protocol.parseAudio value with
    | .error (.protocol _) => (s, none)
    | .error e => (s, some e)
    | .ok audio =>
      let (s, seg) := s.segment env imei
      let seg := seg.add audio.opus
      let s := { s with segments := s.segments.set imei seg }
      if seg.full env then flush env s seg else (s, none)

def idleTick (s : State) : State × Option Exc :=
  flushEach env (fun seg ↦ seg.packets ≠ [] ∧ seg.overdue env (env.clock s.ticks))
    s.segments.keys s.tick

def Status.ofExc : Option Exc → Status
  | some e => .raised e
  | none => .stopped

def shutdown (s : State) (exc : Option Exc) : State :=
  let (s, exc') := flushEach env (fun _ ↦ true) s.segments.keys s
  { s with status := .ofExc (exc'.or exc) }

def turn (s : State) : Event → State × Option Exc
  | .idle => idleTick env s
  | .error => (s, none)
  | .message key value => consume env s key value
  | .interrupt => (s, none)

def conclude : State × Option Exc → State
  | (s, none) => s
  | (s, some exc) => shutdown env s (some exc)

@[simp] theorem conclude_none (s : State) : conclude env (s, none) = s := rfl

def step (s : State) (e : Event) : Option State :=
  if s.status = .running then
    some (if e = .interrupt then shutdown env s.tick none else conclude env (turn env s.tick e))
  else none

end Loop

end OpusFleet.Server.Segmenter
