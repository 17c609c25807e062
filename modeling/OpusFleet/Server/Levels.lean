import OpusFleet.Python.Floats
import OpusFleet.Server.Confluence

namespace OpusFleet.Server.Levels

open Python Library Segmenter

section Samples

def int16 (lo hi : UInt8) : ℤ :=
  let n := lo.toNat + 256 * hi.toNat
  if n < 2 ^ 15 then n else n - 2 ^ 16

def int16s : Bytes → List ℤ
  | lo :: hi :: rest => int16 lo hi :: int16s rest
  | _ => []

def frombuffer (pcm : Bytes) : Except Exc (List ℤ) :=
  if pcm.length % 2 = 0 then .ok (int16s pcm) else .error .value

def loudest (a : List ℤ) : ℕ := a.foldr (fun x m ↦ max x.natAbs m) 0

end Samples

/-- The arithmetic of `numpy` and `math`: `np.dot(a, a)`, and the two levels as `emit` computes and
rounds them, of a sum of squares and a number of samples, and of a peak. -/
structure Numerics where
  dot : List ℤ → PyFloat
  db : PyFloat → ℕ → PyFloat
  pk : ℕ → PyFloat

structure Record where
  t : ℤ
  db : PyFloat
  pk : PyFloat
  f : ℕ

structure Meter where
  imei : Str
  sec : Option ℤ
  sumSq : PyFloat
  n : ℕ
  peak : ℕ
  frames : ℕ

namespace Meter

variable (num : Numerics)

def new (imei : Str) : Meter where
  imei := imei
  sec := none
  sumSq := .finite 0
  n := 0
  peak := 0
  frames := 0

def emit (m : Meter) (t : ℤ) : Meter × Option Record :=
  if m.n = 0 then (m, none)
  else
    ({ m with sumSq := .finite 0, n := 0, peak := 0, frames := 0 },
      some ⟨t, num.db m.sumSq m.n, num.pk (max m.peak 1), m.frames⟩)

/-- The first half of `add`: the second of the clock. -/
def turn (m : Meter) (sec : ℤ) : Meter × Option Record :=
  match m.sec with
  | none => ({ m with sec := some sec }, none)
  | some last =>
    if sec ≠ last then
      let (m, out) := m.emit num last
      ({ m with sec := some sec }, out)
    else (m, none)

def take (m : Meter) (a : List ℤ) : Meter :=
  let m := if a = [] then m else
    { m with
      sumSq := m.sumSq.add (num.dot a)
      n := m.n + a.length
      peak := max m.peak (loudest a) }
  { m with frames := m.frames + 1 }

def add (m : Meter) (pcm : Bytes) (now : ℚ) : Except Exc (Meter × Option Record) := do
  let (m, out) := m.turn num (Storage.truncate now)
  let a ← frombuffer pcm
  return (m.take num a, out)

end Meter

section Loop

/-- `decode past opus` is what a decoder that was given `past` makes of `opus`, `none` when it
raises; `takes` is whether the producer takes its n-th message. -/
structure Env where
  num : Numerics
  clock : ℕ → ℚ
  decode : List Bytes → Bytes → Option Bytes
  takes : ℕ → Bool

inductive Status
  | running
  | stopped
  | raised (e : Exc)
  | bufferError
  deriving DecidableEq

/-- `decoders` holds what each decoder was given. `decoded` lists the devices of the frames that
were decoded, `produced` the calls of `produce`. -/
structure State where
  turns : ℕ
  meters : Dict Str Meter
  decoders : Dict Str (List Bytes)
  decoded : List Str
  produced : List Call
  status : Status

def State.init : State := ⟨0, .empty, .empty, [], [], .running⟩

variable (env : Env)

def State.meter (s : State) (imei : Str) : Meter := (s.meters.get imei).getD (.new imei)

def State.past (s : State) (imei : Str) : List Bytes := (s.decoders.get imei).getD []

def produce (s : State) (call : Call) : State :=
  { s with
    produced := s.produced ++ [call]
    status := if env.takes s.produced.length then s.status else .bufferError }

def meterFrame (s : State) (imei : Str) (pcm : Bytes) : State :=
  match (s.meter imei).add env.num pcm (env.clock s.turns) with
  | .error e => { s with status := .raised e }
  | .ok (meter, rec) =>
    let s := { s with meters := s.meters.set imei meter }
    match rec with
    | none => s
    | some rec => produce env s (Api.levelRecord imei rec.t rec.db rec.pk rec.f)

def consume (s : State) (key : Option Bytes) (value : Bytes) : State :=
  match keyText key with
  | .error e => { s with status := .raised e }
  | .ok imei => match Protocol.parseAudio value with
    | .error (.protocol _) => s
    | .error e => { s with status := .raised e }
    | .ok audio =>
      let past := s.past imei
      let s := { s with decoders := s.decoders.set imei (past ++ [audio.opus]) }
      match env.decode past audio.opus with
      | none => s
      | some pcm => meterFrame env { s with decoded := s.decoded ++ [imei] } imei pcm

def step (s : State) (e : Segmenter.Event) : Option State :=
  if s.status = .running then
    let s := { s with turns := s.turns + 1 }
    some (match e with
      | .idle | .error => s
      | .interrupt => { s with status := .stopped }
      | .message key value => consume env s key value)
  else none

end Loop

end OpusFleet.Server.Levels
