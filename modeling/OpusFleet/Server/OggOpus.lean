import Mathlib.Data.Rat.Floor
import OpusFleet.Library.Ogg
import OpusFleet.Server.Protocol

namespace OpusFleet.Server.OggOpus

open Python Library Library.Octets

def oggCapture : Bytes := ascii "OggS"
def flagBos : ℕ := 0x02
def flagEos : ℕ := 0x04

section Crc

def crcRound (r : ℕ) : ℕ :=
  if r &&& 0x80000000 ≠ 0 then ((r <<< 1) ^^^ 0x04C11DB7) &&& 0xFFFFFFFF
  else (r <<< 1) &&& 0xFFFFFFFF

def makeCrcTable : List ℕ := (List.range 256).map fun i ↦ crcRound^[8] (i <<< 24)

def oggCrc32 (data : Bytes) : ℕ :=
  data.foldl (fun crc b ↦ ((crc <<< 8) &&& 0xFFFFFFFF) ^^^
    makeCrcTable.getD (((crc >>> 24) &&& 0xFF) ^^^ b.toNat) 0) 0

end Crc

section Pages

def packU32 (n : ℕ) : Except Exc Bytes := if n < 2 ^ 32 then .ok (packLE 4 n) else .error .struct

def packI64 (n : ℤ) : Except Exc Bytes :=
  if -2 ^ 63 ≤ n ∧ n < 2 ^ 63 then .ok (packLE 8 (n % 2 ^ 64).toNat) else .error .struct

def bytesOf (values : List ℕ) : Except Exc Bytes :=
  if values.all (· < 256) then .ok (values.map UInt8.ofNat) else .error .value

def lace (packetLen : ℕ) : List ℕ := List.replicate (packetLen / 255) 255 ++ [packetLen % 255]

def page (serial seqno : ℕ) (granule : ℤ) (flags : ℕ) (segments : List ℕ) (payload : Bytes) :
    Except Exc Bytes := do
  let start ← bytesOf [0, flags]
  let granule ← packI64 granule
  let serial ← packU32 serial
  let seqno ← packU32 seqno
  let count ← bytesOf [segments.length]
  let table ← bytesOf segments
  let header := oggCapture ++ start ++ granule ++ serial ++ seqno ++ [0, 0, 0, 0] ++ count ++ table
  let crc ← packU32 (oggCrc32 (header ++ payload))
  return header.take 22 ++ crc ++ header.drop 26 ++ payload

def packU16 (n : ℕ) : Except Exc Bytes := if n < 2 ^ 16 then .ok (packLE 2 n) else .error .struct

def packI16 (n : ℤ) : Except Exc Bytes :=
  if -2 ^ 15 ≤ n ∧ n < 2 ^ 15 then .ok (packLE 2 (n % 2 ^ 16).toNat) else .error .struct

def opusHead (channels preSkip inputRate : ℕ) (outputGain : ℤ) : Except Exc Bytes := do
  let start ← bytesOf [1, channels]
  let preSkip ← packU16 preSkip
  let inputRate ← packU32 inputRate
  let outputGain ← packI16 outputGain
  return ascii "OpusHead" ++ start ++ preSkip ++ inputRate ++ outputGain ++ [0]

def opusTags (vendor : Bytes) : Except Exc Bytes := do
  let length ← packU32 vendor.length
  let comments ← packU32 0
  return ascii "OpusTags" ++ length ++ vendor ++ comments

end Pages

def maxSegments : ℕ := 255

def preSkip : ℕ := 312

structure OggOpusWriter where
  serial : ℕ
  channels : ℕ
  frameSamples : ℤ
  preSkip : ℕ
  out : Bytes
  seqno : ℕ
  granule : ℤ
  packets : List Bytes
  segments : List ℕ
  packetCount : ℕ

namespace OggOpusWriter

def emit (w : OggOpusWriter) (packet : Bytes) (flags : ℕ) (granule : ℤ) :
    Except Exc OggOpusWriter := do
  let page ← page w.serial w.seqno granule flags (lace packet.length) packet
  return { w with out := w.out ++ page, seqno := w.seqno + 1 }

def new (serial : ℤ) (channels : ℕ) (frameSamples : ℤ) (preSkip : ℕ) :
    Except Exc OggOpusWriter := do
  let w : OggOpusWriter := {
    serial := (serial % 2 ^ 32).toNat
    channels := channels
    frameSamples := frameSamples
    preSkip := preSkip
    out := []
    seqno := 0
    granule := 0
    packets := []
    segments := []
    packetCount := 0 }
  let w ← w.emit (← opusHead channels preSkip 48000 0) flagBos 0
  w.emit (← opusTags (ascii "opusfleet")) 0 0

def flushPage (w : OggOpusWriter) (eos : Bool) : Except Exc OggOpusWriter :=
  if w.packets = [] then
    if eos then do
      let page ← page w.serial w.seqno w.granule flagEos [0] []
      return { w with out := w.out ++ page, seqno := w.seqno + 1 }
    else return w
  else do
    let page ← page w.serial w.seqno w.granule (if eos then flagEos else 0) w.segments
      w.packets.flatten
    return { w with out := w.out ++ page, seqno := w.seqno + 1, packets := [], segments := [] }

def makeRoom (w : OggOpusWriter) (n : ℕ) : Except Exc OggOpusWriter :=
  if maxSegments < w.segments.length + n then w.flushPage false else .ok w

def addPacket (w : OggOpusWriter) (packet : Bytes) : Except Exc OggOpusWriter := do
  let segs := lace packet.length
  let w ← w.makeRoom segs.length
  return { w with
    granule := w.granule + w.frameSamples
    packets := w.packets ++ [packet]
    segments := w.segments ++ segs
    packetCount := w.packetCount + 1 }

def finish (w : OggOpusWriter) : Except Exc (OggOpusWriter × Bytes) := do
  let w ← w.flushPage true
  return (w, w.out)

/-- The exact quotient; the source has it as a float. -/
def durationS (w : OggOpusWriter) : ℚ := w.packetCount * w.frameSamples / 48000

end OggOpusWriter

/-- The bytes of a whole stream, with its duration: packets added in order, then `finish`. -/
def mux (serial : ℤ) (channels : ℕ) (frameSamples : ℤ) (preSkip : ℕ) (packets : List Bytes) :
    Except Exc (Bytes × ℚ) := do
  let w ← OggOpusWriter.new serial channels frameSamples preSkip
  let w ← packets.foldlM OggOpusWriter.addPacket w
  let (w, data) ← w.finish
  return (data, w.durationS)

end OpusFleet.Server.OggOpus
