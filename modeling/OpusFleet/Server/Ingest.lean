import OpusFleet.Server.Auth

namespace OpusFleet.Server

open Python Library Protocol Auth

inductive Topic
  | audio
  | stat
  | events
  | levels
  deriving DecidableEq

/-- A message value: bytes passed on as they are, or an object that `bus.jdump` writes. -/
inductive Payload
  | raw (bytes : Bytes)
  | json (value : Value)

structure Call where
  topic : Topic
  key : Str
  value : Payload

structure Message where
  topic : Topic
  key : Bytes
  value : Payload

def Call.message (c : Call) : Message := ⟨c.topic, encode c.key, c.value⟩

inductive Delivery
  | enqueued
  | bufferError
  | kafkaException
  deriving DecidableEq

/-- What the handlers find around them: `clock n` is the n-th reading of `time.time()`,
`broker n` the outcome of the n-th `producer.produce`, `limit` the recursion limit. -/
structure Env where
  mode : Mode
  hmac : Hmac
  clock : ℕ → Time
  broker : ℕ → Delivery
  limit : ℕ

def Env.calm (mode : Mode) : Env where
  mode := mode
  hmac := .echo
  clock _ := 0
  broker _ := .enqueued
  limit := 1000

/-- The shared state of the process. `calls` and `dispatched` are history: every call of
`_produce` and every payload the frame loop was handed, in order. -/
structure Ingest where
  calls : List Call
  queue : List Message
  dispatched : List Bytes
  ticks : ℕ
  connections : ℕ
  frames : ℕ
  bytes : ℕ
  dropped : ℕ
  online : Dict Str Time
  limiter : ConnectionLimiter
  denied : ℕ
  unauthenticated : ℕ

structure Peer where
  ip : Str
  text : Str

inductive Ending
  | eof
  | timeout
  | connectionError
  deriving DecidableEq

def Ending.raised : Ending → Option Exc
  | .eof => none
  | .timeout => some .timeout
  | .connectionError => some .connection

/-- One connection as the network presents it: what `read` returns, how it ends, and
whether the two `drain` calls of the handshake go through. -/
structure Link where
  peer : Peer
  nonce : Nonce
  chunks : List Bytes
  ending : Ending
  challengeDrains : Bool
  okDrains : Bool

namespace Ingest

def init (maxConcurrent maxPerMinute : ℤ) : Ingest where
  calls := []
  queue := []
  dispatched := []
  ticks := 0
  connections := 0
  frames := 0
  bytes := 0
  dropped := 0
  online := .empty
  limiter := ⟨maxConcurrent, maxPerMinute, .empty, .empty, 0⟩
  denied := 0
  unauthenticated := 0

variable (env : Env)

def produce (ing : Ingest) (topic : Topic) (key : Str) (value : Payload) : Ingest :=
  let call : Call := ⟨topic, key, value⟩
  match env.broker ing.calls.length with
  | .enqueued => { ing with calls := ing.calls ++ [call], queue := ing.queue ++ [call.message] }
  | .bufferError | .kafkaException =>
    { ing with calls := ing.calls ++ [call], dropped := ing.dropped + 1 }

def stamp (ing : Ingest) : Value := .float (.finite (env.clock ing.ticks))

def tick (ing : Ingest) : Ingest := { ing with ticks := ing.ticks + 1 }

section Dispatch

def connectEvent (imei : Str) (peer : Peer) (at' : Value) : Payload :=
  .json (.dict [(lit "imei", .str imei), (lit "event", .str (lit "connect")),
    (lit "addr", .str peer.text), (lit "at", at')])

def disconnectEvent (imei : Str) (at' : Value) : Payload :=
  .json (.dict [(lit "imei", .str imei), (lit "event", .str (lit "disconnect")), (lit "at", at')])

def statReport (imei : Str) (entries : List (Str × Value)) (at' : Value) : Payload :=
  .json (.dict (Assoc.set (Assoc.set entries (lit "at") at') (lit "imei") (.str imei)))

def hello (peer : Peer) (ing : Ingest) (imei : Str) : Ingest :=
  let ing := { ing with online := ing.online.set imei (env.clock ing.ticks) }.tick
  ing.tick.produce env .events imei (connectEvent imei peer (ing.stamp env))

def stat (ing : Ingest) (imei : Str) (entries : List (Str × Value)) : Ingest :=
  ing.tick.produce env .stat imei (statReport imei entries (ing.stamp env))

def audio (ing : Ingest) (imei : Str) (payload : Bytes) : Ingest :=
  { ing with frames := ing.frames + 1, bytes := ing.bytes + payload.length }.produce env
    .audio imei (.raw payload)

/-- The body of the frame loop on one payload: the new `imei`, or the exception raised. -/
def dispatch (peer : Peer) (authed : Bool) (ing : Ingest) (imei : Str) (payload : Bytes) :
    Ingest × Except Exc Str :=
  match classify env.limit payload with
  | .error (.protocol _) => (ing, .ok imei)
  | .error e => (ing, .error e)
  | .ok (.auth _ _) => (ing, .ok imei)
  | .ok (.hello value) =>
    if authed ∧ value ≠ imei then (ing, .ok imei) else (ing.hello env peer value, .ok value)
  | .ok (.stat (.dict entries)) => (ing.stat env imei entries, .ok imei)
  -- value["at"] = time.time() on anything but a dict: the clock is read, then TypeError
  | .ok (.stat _) => (ing.tick, .error .type)
  | .ok (.audio _) => (ing.audio env imei payload, .ok imei)

def frameLoop (peer : Peer) (authed : Bool) : Ingest → Str → List Bytes → Ingest × Str × Option Exc
  | ing, imei, [] => (ing, imei, none)
  | ing, imei, payload :: frames =>
    match dispatch env peer authed { ing with dispatched := ing.dispatched ++ [payload] } imei
      payload with
    | (ing, .ok imei) => frameLoop peer authed ing imei frames
    | (ing, .error e) => (ing, imei, some e)

/-- The main loop on the chunks still to come: each read is one round. -/
def mainLoop (peer : Peer) (authed : Bool) (ending : Ending) :
    Ingest → Str → Bytes → List Bytes → Ingest × Str × Option Exc
  | ing, imei, _, [] => (ing, imei, ending.raised)
  | ing, imei, buf, chunk :: chunks =>
    if chunk = [] then (ing, imei, none)
    else
      match frameLoop env peer authed ing imei (iterFrames (buf ++ chunk)).1 with
      | (ing, imei, none) =>
        mainLoop peer authed ending ing imei (iterFrames (buf ++ chunk)).2 chunks
      | (ing, imei, some e) => (ing, imei, some e)

end Dispatch

section Handshake

/-- The first frame of a buffer and what follows it, as `_read_frame` puts it together. -/
def firstFrame (buf : Bytes) : Option (Bytes × Except Exc Bytes) :=
  match iterFrames buf with
  | ([], _) => none
  | (payload :: frames, rest) => some (payload, (frames.mapM frame).map (rest ++ ·.flatten))

/-- `_read_frame` on the chunks to come; the last component is the chunks it leaves unread. -/
def readFrame (ending : Ending) : Bytes → List Bytes → Except Exc ((Bytes × Bytes) × List Bytes)
  | buf, chunks =>
    match firstFrame buf with
    | some (payload, leftover) => leftover.map fun rest ↦ ((payload, rest), chunks)
    | none =>
      match chunks with
      | [] => .error (ending.raised.getD (.auth (lit "connection closed during handshake")))
      | chunk :: chunks =>
        if chunk = [] then .error (.auth (lit "connection closed during handshake"))
        else readFrame ending (buf ++ chunk) chunks

structure Accepted where
  claimed : Option Str
  authed : Bool
  leftover : Bytes
  deriving DecidableEq

/-- What `_handshake` makes of the first frame: whom it lets in, or the refusal. -/
def checkFrame (registry : Registry) (nonce : Nonce) (peer : Peer) (payload leftover : Bytes) :
    Except Exc Accepted :=
  match classify env.limit payload with
  | .error e => .error e
  | .ok (.auth deviceId mac) =>
    match registry deviceId with
    | .error e => .error e
    | .ok key =>
      if verify env.hmac (key.getD []) nonce mac then .ok ⟨some deviceId, true, leftover⟩
      else .error (.auth (lit "rejected " ++ deviceId ++ lit " from " ++ peer.text ++
        lit ": bad credentials"))
  | .ok kind =>
    if env.mode = .required then
      .error (.auth (lit "rejected " ++ peer.text ++ lit ": no AUTH frame (mode=required)"))
    else
      let deviceId := match kind with
        | .hello value => some value
        | _ => none
      (frame payload).map fun first ↦ ⟨deviceId, false, first ++ leftover⟩

def challengeFrame (nonce : Nonce) : Bytes := encodeFrame (buildChallenge nonce)

def okFrame (deviceId : Str) : Except Exc Bytes := buildOk deviceId >>= frame

def denyFrame : Bytes := encodeFrame (denyPrefix ++ ascii "unauthorized")

/-- `_handshake`: the bytes it sends, and its result with the chunks left unread. -/
def handshake (registry : Registry) (link : Link) (ing : Ingest) :
    Ingest × Bytes × Except Exc (Accepted × List Bytes) :=
  if env.mode = .disabled then (ing, [], .ok (⟨none, false, []⟩, link.chunks))
  else if ¬ link.challengeDrains then (ing, challengeFrame link.nonce, .error .connection)
  else
    match readFrame link.ending [] link.chunks with
    | .error e => (ing, challengeFrame link.nonce, .error e)
    | .ok ((payload, leftover), chunks) =>
      match checkFrame env registry link.nonce link.peer payload leftover with
      | .error e => (ing, challengeFrame link.nonce, .error e)
      | .ok accepted =>
        if accepted.authed then
          match okFrame (accepted.claimed.getD []) with
          | .error e => (ing, challengeFrame link.nonce, .error e)
          | .ok reply =>
            (ing, challengeFrame link.nonce ++ reply,
              if link.okDrains then .ok (accepted, chunks) else .error .connection)
        else
          ({ ing with unauthenticated := ing.unauthenticated + 1 }, challengeFrame link.nonce,
            .ok (accepted, chunks))

end Handshake

section Handle

def refuses : Exc → Bool
  | .auth _ | .timeout | .protocol _ => true
  | _ => false

def swallows : Exc → Bool
  | .timeout | .connection => true
  | _ => false

/-- The `finally` block: the slot is released and the socket's id goes offline. -/
def cleanup (peer : Peer) (ing : Ingest) (imei : Str) : Ingest :=
  let ing := { ing with limiter := ing.limiter.release peer.ip, online := ing.online.pop imei }
  ing.tick.produce env .events imei (disconnectEvent imei (ing.stamp env))

/-- What a connection does once the handshake let it in, `finally` block included: the state
it leaves and the exception that leaves the main loop. -/
def session (peer : Peer) (authed : Bool) (ending : Ending) (ing : Ingest)
    (imei : Str) (buf : Bytes) (chunks : List Bytes) : Ingest × Option Exc :=
  let (ing, imei, raised) := mainLoop env peer authed ending ing imei buf chunks
  (cleanup env peer ing imei, raised.filter (! swallows ·))

def allow (peer : Peer) (ing : Ingest) : Ingest × Bool :=
  let (limiter, ok, _) := ing.limiter.allow peer.ip (env.clock ing.ticks)
  ({ ing with limiter := limiter, connections := ing.connections + if ok then 1 else 0 }.tick, ok)

def Accepted.imei (accepted : Accepted) : Str :=
  match accepted.claimed with
  | some (c :: cs) => c :: cs
  | _ => lit "unknown"

/-- `handle`: the final state, the bytes sent and the exception that leaves it. -/
def handle (registry : Registry) (link : Link) (ing : Ingest) : Ingest × Bytes × Option Exc :=
  let (ing, ok) := ing.allow env link.peer
  if ¬ ok then (ing, [], none)
  else
    match handshake env registry link ing with
    | (ing, sent, .ok (accepted, chunks)) =>
      let (ing, raised) := session env link.peer accepted.authed link.ending ing accepted.imei
        accepted.leftover chunks
      (ing, sent, raised)
    | (ing, sent, .error e) =>
      if refuses e then
        (cleanup env link.peer { ing with denied := ing.denied + 1 } (lit "unknown"),
          sent ++ denyFrame, none)
      else
        (cleanup env link.peer ing (lit "unknown"), sent, if swallows e then none else some e)

end Handle

end Ingest

end OpusFleet.Server
