import OpusFleet.Server.Auth

namespace OpusFleet.Sim

open Python Server Server.Protocol Server.Auth

def authenticate (hmac : Hmac) (imei : Str) (key : Option Bytes) (data : Bytes) :
    Except Exc (Option Bytes) :=
  match (iterFrames data).1 with
  | [] => .ok none
  | payload :: _ =>
    if startsWith payload challengePrefix then
      match key with
      | none => .ok none
      | some key => do
        let nonce ← parseChallenge payload
        let auth ← buildAuth imei (sign hmac key nonce)
        let wire ← frame auth
        return some wire
    else .ok none

/-- The settings of a simulated device that its session with a receiver depends on. -/
structure SimDevice where
  imei : Str
  packets : List Bytes
  loss : PyFloat
  stall : PyFloat
  stallEvery : PyFloat
  loop : Bool
  sendHello : Bool
  statInterval : PyFloat
  ssrc : ℤ

structure Counters where
  seq : ℕ
  ts : ℕ
  sentFrames : ℕ
  sentBytes : ℕ
  dropped : ℕ

/-- The payload of a STAT frame that fits into a frame and that the receiver understands. -/
structure Report (limit : ℕ) where
  payload : Bytes
  fits : payload.length ≤ maxFrame
  stat : ∃ value, classify limit payload = .ok (.stat value)

/-- What a session meets: the clock before its loop and in round `n`, the draw for the frame of
round `n`, and the report that round `n` would send. -/
structure World (limit : ℕ) where
  start : PyFloat
  now : ℕ → PyFloat
  draw : ℕ → PyFloat
  report : ℕ → Report limit

inductive Fate
  | dropped
  | held
  | sent
  deriving DecidableEq

/-- The counters and the local variables of `_session`. `written` and `generated` are history: what
was written to the socket, and each frame made with what has become of it. -/
structure Session where
  self : Counters
  idx : ℕ
  held : List Bytes
  nextStat : PyFloat
  stallUntil : PyFloat
  nextStall : PyFloat
  ended : Bool
  written : List Bytes
  generated : List (Bytes × Fate)

namespace SimDevice

variable (dev : SimDevice)

def nextAudioFrame (self : Counters) (idx : ℕ) : Option (Bytes × Counters) := do
  let pkt ← dev.packets[idx]?
  let wire ← (frame (buildAudio pkt self.seq self.ts dev.ssrc)).toOption
  return (wire, { self with seq := (self.seq + 1) % 2 ^ 16, ts :=
    (self.ts + frameSamples) % 2 ^ 32 })

def greeting : Option (List Bytes) :=
  if dev.sendHello then ((buildHello dev.imei >>= frame).toOption).map ([·]) else some []

def checkStall (now : PyFloat) (s : Session) : Session :=
  if dev.stallEvery.truth ∧ s.nextStall.le now then
    { s with stallUntil := now.add dev.stall, nextStall := now.add dev.stallEvery }
  else s

end SimDevice

namespace Session

def drop (wire : Bytes) (s : Session) : Session :=
  { s with
    self := { s.self with dropped := s.self.dropped + 1 }
    generated := s.generated ++ [(wire, .dropped)] }

def hold (wire : Bytes) (s : Session) : Session :=
  { s with held := s.held ++ [wire], generated := s.generated ++ [(wire, .held)] }

def release : Bytes × Fate → Bytes × Fate
  | (wire, .held) => (wire, .sent)
  | g => g

def send (wire : Bytes) (s : Session) : Session :=
  { s with
    self := { s.self with
      sentFrames := s.self.sentFrames + 1
      sentBytes := s.self.sentBytes + (s.held.flatten ++ wire).length }
    held := []
    written := s.written ++ [s.held.flatten ++ wire]
    generated := s.generated.map release ++ [(wire, .sent)] }

end Session

namespace SimDevice

variable (dev : SimDevice) {limit : ℕ} (world : World limit)

def advance (idx : ℕ) : ℕ := if dev.packets.length ≤ idx + 1 then 0 else idx + 1

def dispatch (n : ℕ) (wire : Bytes) (s : Session) : Session :=
  if dev.loss.truth ∧ (world.draw n).lt dev.loss then s.drop wire
  else if (world.now n).lt s.stallUntil then s.hold wire
  else s.send wire

def checkStat (n : ℕ) (s : Session) : Session :=
  if s.nextStat.le (world.now n) then
    if s.stallUntil.le (world.now n) then
      { s with
        nextStat := (world.now n).add dev.statInterval
        written := s.written ++ [encodeFrame (world.report n).payload] }
    else { s with nextStat := (world.now n).add dev.statInterval }
  else s

/-- Round `n` of the loop; `none` where an exception ends the session. The pacing is left out: it
decides when the round takes place, and the clock is arbitrary. -/
def round (n : ℕ) (s : Session) : Option Session :=
  if s.ended then some s
  else
    let s := dev.checkStall (world.now n) s
    (dev.nextAudioFrame s.self s.idx).map fun (wire, self) ↦
      if dev.packets.length ≤ s.idx + 1 ∧ ¬ dev.loop
      then { s with self := self, idx := s.idx + 1, ended := true }
      else dev.checkStat world n
        (dev.dispatch world n wire { s with self := self, idx := dev.advance s.idx })

/-- A session after `n` rounds, where it may be stopped. -/
def session (self : Counters) : ℕ → Option Session
  | 0 => dev.greeting.map fun written ↦
    { self := self
      idx := 0
      held := []
      nextStat := world.start.add dev.statInterval
      stallUntil := .finite 0
      nextStall := if dev.stallEvery.truth then world.start.add dev.stallEvery else .inf false
      ended := false
      written := written
      generated := [] }
  | n + 1 => (session self n).bind (dev.round world n)

end SimDevice

end OpusFleet.Sim
