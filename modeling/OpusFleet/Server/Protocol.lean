import OpusFleet.Python.Hex
import OpusFleet.Library.Incremental

namespace OpusFleet.Server

open Python Library.Octets

/-- The exceptions the modelled code raises, with the source's own texts where it gives them.
`connection` is a ConnectionError or any other OSError that is not a timeout. -/
inductive Exc
  | auth (text : Str)
  | protocol (text : Str)
  | timeout
  | connection
  | type
  | value
  | recursion
  | attribute
  | struct
  | unicode
  deriving DecidableEq

namespace Protocol

def frameSamples : ℕ := 960
def frameMs : ℕ := 20
def channels : ℕ := 1
def rtpHeaderLen : ℕ := 12
def rtpVersionByte : ℕ := 0x80
def rtpPayloadType : ℕ := 111
def rtpSsrc : ℕ := 0xDEADBEEF
def maxFrame : ℕ := 0xFFFF

def helloPrefix : Bytes := ascii "HELLO:"
def statPrefix : Bytes := ascii "STAT:"
def challengePrefix : Bytes := ascii "CHALLENGE:"
def authPrefix : Bytes := ascii "AUTH:"
def okPrefix : Bytes := ascii "OK:"
def denyPrefix : Bytes := ascii "DENY:"

section Framing

def encodeFrame (payload : Bytes) : Bytes := packBE 2 payload.length ++ payload

def frame (payload : Bytes) : Except Exc Bytes :=
  if maxFrame < payload.length then
    .error (.protocol (lit "payload " ++ decimal payload.length ++ lit " exceeds " ++
      decimal maxFrame ++ lit "-byte frame limit"))
  else .ok (encodeFrame payload)

def slice (buf : Bytes) (i j : ℕ) : Bytes := (buf.drop i).take (j - i)

/-- The loop of `iter_frames`, for so many rounds at most: `off` is the offset reached and
`frames` what was found so far. -/
def iterFramesLoop (buf : Bytes) : ℕ → ℕ → List Bytes → Option (List Bytes × Bytes)
  | 0, _, _ => none
  | rounds + 1, off, frames =>
    if 2 ≤ buf.length - off then
      let ln := (buf.getD off 0).toNat <<< 8 ||| (buf.getD (off + 1) 0).toNat
      if buf.length - off < 2 + ln then some (frames, buf.drop off)
      else iterFramesLoop buf rounds (off + 2 + ln) (frames ++ [slice buf (off + 2) (off + 2 + ln)])
    else some (frames, buf.drop off)

-- a round that is not the last one takes two bytes or more: `buf.length + 1` rounds are enough
def iterFrames (buf : Bytes) : List Bytes × Bytes :=
  (iterFramesLoop buf (buf.length + 1) 0 []).getD ([], buf)

end Framing

section Rtp

def rtpHeader (seq ts ssrc : ℤ) : Bytes :=
  [UInt8.ofNat rtpVersionByte, UInt8.ofNat rtpPayloadType] ++ packBE 2 (seq % 2 ^ 16).toNat ++
    packBE 4 (ts % 2 ^ 32).toNat ++ packBE 4 (ssrc % 2 ^ 32).toNat

def buildAudio (opus : Bytes) (seq ts ssrc : ℤ) : Bytes := rtpHeader seq ts ssrc ++ opus

structure Audio where
  seq : ℕ
  ts : ℕ
  ssrc : ℕ
  opus : Bytes
  deriving DecidableEq

def parseAudio (payload : Bytes) : Except Exc Audio :=
  if payload.length ≤ rtpHeaderLen then
    .error (.protocol (lit "audio frame of " ++ decimal payload.length ++
      lit " bytes has no Opus payload"))
  else .ok ⟨unpackBE (slice payload 2 4), unpackBE (slice payload 4 8),
    unpackBE (slice payload 8 12), payload.drop rtpHeaderLen⟩

end Rtp

section Control

def buildChallenge (nonce : Bytes) : Bytes := challengePrefix ++ encode (hex nonce)

/-- The raw nonce bytes of a CHALLENGE frame. The text after "bad challenge: " is left out. -/
def parseChallenge (payload : Bytes) : Except Exc Bytes :=
  match (decodeAscii (payload.drop challengePrefix.length)).bind fromHex with
  | some nonce => .ok nonce
  | none => .error (.protocol (lit "bad challenge: "))

def encodeAscii (s : Str) : Except Exc Bytes :=
  if s.all (· < 128) then .ok (s.map UInt8.ofNat) else .error .unicode

def buildAuth (deviceId macHex : Str) : Except Exc Bytes :=
  (encodeAscii (deviceId ++ lit ":" ++ macHex)).map (authPrefix ++ ·)

def parseAuth (payload : Bytes) : Except Exc (Str × Str) :=
  let body := decodeAsciiIgnore (payload.drop authPrefix.length)
  if 58 ∉ body then .error (.protocol (lit "AUTH frame missing the ':' between id and MAC"))
  else
    let deviceId := strip (splitOnce 58 body).1
    let mac := strip (splitOnce 58 body).2
    if deviceId = [] ∨ mac = [] then .error (.protocol (lit "AUTH frame has an empty id or MAC"))
    else .ok (deviceId, mac)

def buildOk (deviceId : Str) : Except Exc Bytes := (encodeAscii deviceId).map (okPrefix ++ ·)

def buildDeny (reason : Str) : Except Exc Bytes := (encodeAscii reason).map (denyPrefix ++ ·)

def buildHello (imei : Str) : Except Exc Bytes := (encodeAscii imei).map (helloPrefix ++ ·)

/-- `json.dumps` as far as this code relies on it: its text is ASCII. -/
structure Dumps where
  text : Value → Str
  text_ascii : ∀ value, Ascii (text value)

def buildStat (dumps : Dumps) (stat : Value) : Bytes := statPrefix ++ encode (dumps.text stat)

inductive Kind
  | hello (id : Str)
  | auth (deviceId mac : Str)
  | stat (value : Value)
  | audio (payload : Bytes)

/-- `json.loads(body.decode())` with the exceptions `classify` turns into a ProtocolError.
The decoder's own text after "bad STAT json: " is left out. -/
def parseStat (limit : ℕ) (body : Bytes) : Except Exc Value :=
  match decode body with
  | none => .error (.protocol (lit "bad STAT json: "))
  | some text =>
    match loads limit text with
    | .ok v => .ok v
    | .error .value => .error (.protocol (lit "bad STAT json: "))
    | .error .recursion => .error .recursion

/-- Classify a frame the way the server does. `limit` is the interpreter's recursion limit. -/
def classify (limit : ℕ) (payload : Bytes) : Except Exc Kind :=
  if startsWith payload helloPrefix then
    let id := strip (decodeAsciiIgnore (payload.drop helloPrefix.length))
    .ok (.hello (if id = [] then lit "unknown" else id))
  else if startsWith payload authPrefix then
    (parseAuth payload).map fun p ↦ .auth p.1 p.2
  else if startsWith payload statPrefix then
    (parseStat limit (payload.drop statPrefix.length)).map .stat
  else .ok (.audio payload)

end Control

end Protocol

end OpusFleet.Server
