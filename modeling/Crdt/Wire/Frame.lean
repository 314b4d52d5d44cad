import Crdt.Lib.Checked
import Crdt.Lib.Uvarint

/-! The outer frame of a state or a delta.

Magic, format version, type, codec, payload and a checksum. Version 1 has the payload as it is;
version 2 says how it is encoded and may have it deflated. An `int` has 32 or 64 bits; a sum that
does not fit into it and a slice that is out of range break the computation, so that whether this
can happen is a question about the model. In the source such a sum wraps; no call that has wrapped
returns a frame, for a slice is never longer than the greatest `int`. -/
namespace Crdt.Wire

open Checked

inductive Err
  | invalidFrame
  | frameLimit
  | flate
deriving DecidableEq, Repr

inductive IntSize
  | bits32
  | bits64
deriving DecidableEq, Repr

/-- `maxIntValue` -/
def IntSize.max : IntSize → Int
  | .bits32 => 2147483647
  | .bits64 => 9223372036854775807

/-- How a stream of deflated bytes ends. -/
inductive Ended
  | eof
  | unexpectedEOF
  | corrupt
deriving DecidableEq, Repr

/-- What the frame rests on: the machine, the checksum and DEFLATE. -/
structure Env where
  intSize : IntSize
  checksum : List UInt8 → UInt32
  deflate : List UInt8 → Option (List UInt8)
  inflate : List UInt8 → List UInt8 × Ended
  inflate_deflate : ∀ payload compressed, deflate payload = some compressed →
    inflate compressed = (payload, .eof)

structure Limits where
  maxFrameBytes : Int
  maxPayload : Int
  maxCodecID : Int
  maxElements : Int
  maxTags : Int
  maxStringBytes : Int
deriving DecidableEq, Repr

def Limits.valid (l : Limits) : Bool :=
  l.maxFrameBytes > 0 && l.maxPayload > 0 && l.maxCodecID > 0 && l.maxElements > 0 && l.maxTags > 0 &&
    l.maxStringBytes > 0

/-- The default bounds; a frame has 304 bytes at most beside its payload. -/
def Limits.default : Limits where
  maxFrameBytes := 16777216
  maxPayload := 16777216 - 304
  maxCodecID := 256
  maxElements := 1048576
  maxTags := 1048576
  maxStringBytes := 1048576

structure Frame where
  typeID : UInt64
  codecID : List UInt8
  payload : List UInt8
  formatVersion : UInt64 := 0
deriving DecidableEq, Repr

def formatVersion : UInt64 := 1

def formatVersionV2 : UInt64 := 2

def Frame.version (f : Frame) : UInt64 := if f.formatVersion = 0 then Wire.formatVersion else f.formatVersion

def magic : List UInt8 := [67, 82, 68, 84]

/-! ### Integers and slices -/

section
variable (n : IntSize)

/-- A sum of two `int`s. -/
def IntSize.add (a b : Int) : Option Int :=
  if -n.max - 1 ≤ a + b ∧ a + b ≤ n.max then some (a + b) else none

/-- A sum from left to right. -/
def IntSize.sum (parts : List Int) : Option Int := parts.foldlM n.add 0

def IntSize.sub (a b : Int) : Option Int := n.add a (-b)

/-- `data[low:high]` -/
def slice (data : List UInt8) (low high : Int) : Option (List UInt8) :=
  if 0 ≤ low ∧ low ≤ high ∧ high ≤ data.length then
    some ((data.drop low.toNat).take (high - low).toNat)
  else none

def uint64AsInt (value : UInt64) : Option Int :=
  if (value.toNat : Int) > n.max then none else some value.toNat

/-- `uint64` of an `int` that is not negative. -/
def lengthAsUint64 (length : Int) : UInt64 := UInt64.ofNat length.toNat

def uvarintSizeForLength (length : Int) : Int :=
  if length < 0 then 0 else Uvarint.size (lengthAsUint64 length)

/-- The bytes of a checksum, the high ones first. -/
def putUint32 (x : UInt32) : List UInt8 :=
  [UInt8.ofNat (x.toNat / 16777216), UInt8.ofNat (x.toNat / 65536), UInt8.ofNat (x.toNat / 256),
    UInt8.ofNat x.toNat]

def getUint32 : List UInt8 → Option UInt32
  | [a, b, c, d] =>
    some (UInt32.ofNat (a.toNat * 16777216 + b.toNat * 65536 + c.toNat * 256 + d.toNat))
  | _ => none

/-- The value at a position and the position after it; `none` where there is no value in its
shortest form. -/
def readUvarint (data : List UInt8) (position : Int) : Checked Err (Option (UInt64 × Int)) :=
  if position < 0 ∨ position ≥ data.length then return none
  else do
    let rest ← unbroken (slice data position data.length)
    let (value, count) := Uvarint.get rest
    if count ≤ 0 then return none
    else if (Uvarint.size value : Int) ≠ count then return none
    else do
      let next ← unbroken (n.add position count)
      return some (value, next)

end

/-! ### Format version 1 -/

def header (version typeID : UInt64) (codecID : List UInt8) : List UInt8 :=
  magic ++ Uvarint.put version ++ Uvarint.put typeID ++ Uvarint.put (lengthAsUint64 codecID.length) ++ codecID

variable (e : Env)

/-- The checksum of all but the magic is put at the end. -/
def withChecksum (buf : List UInt8) : Checked Err (List UInt8) := do
  let summed ← unbroken (slice buf 4 buf.length)
  return buf ++ putUint32 (e.checksum summed)

/-- The summands of the size of a frame without its payload. -/
def envelopeParts (typeID : UInt64) (codecID : List UInt8) (payloadLength : Int) : List Int :=
  [4, Uvarint.size formatVersion, Uvarint.size typeID, Uvarint.size (lengthAsUint64 codecID.length),
    codecID.length, Uvarint.size (lengthAsUint64 payloadLength), 4]

/-- `writePayload` fills a buffer of the given length. -/
def marshalFrameWithPayloadAndLimits (typeID : UInt64) (codecID : List UInt8)
    (payloadLength : Int) (limits : Limits) (writePayload : Int → Except Err (List UInt8)) :
    Checked Err (List UInt8) := do
  check (limits.valid && typeID ≠ 0 && 0 ≤ payloadLength && codecID.length ≤ limits.maxCodecID &&
    payloadLength ≤ limits.maxPayload) .frameLimit
  let envelopeBytes ← unbroken (e.intSize.sum (envelopeParts typeID codecID payloadLength))
  check (envelopeBytes ≤ limits.maxFrameBytes) .frameLimit
  let room ← unbroken (e.intSize.sub limits.maxFrameBytes envelopeBytes)
  check (payloadLength ≤ room) .frameLimit
  let _ ← unbroken (e.intSize.add envelopeBytes payloadLength)
  let buf := header formatVersion typeID codecID ++ Uvarint.put (lengthAsUint64 payloadLength)
  match writePayload payloadLength with
  | .error err => .error err
  | .ok payload => withChecksum e (buf ++ payload)

def Frame.marshalWithLimits (f : Frame) (limits : Limits) : Checked Err (List UInt8) :=
  marshalFrameWithPayloadAndLimits e f.typeID f.codecID f.payload.length limits fun _ => .ok f.payload

/-! ### Format version 2 -/

def v2PayloadRaw : UInt64 := 0

def v2PayloadDeflate : UInt64 := 1

def minV2DeflatePayloadBytes : Int := 128

section
variable (typeID : UInt64)

def validFrameV2Input (codecID : List UInt8) (payloadLength : Int) (limits : Limits) : Bool :=
  limits.valid && typeID ≠ 0 && 0 ≤ payloadLength && codecID.length ≤ limits.maxCodecID &&
    payloadLength ≤ limits.maxPayload

/-- The summands of `v2FrameSize`. -/
def v2FrameParts (codecID : List UInt8) (rawLength encodedLength : Int) : List Int :=
  [4, Uvarint.size formatVersionV2, Uvarint.size typeID, uvarintSizeForLength codecID.length, codecID.length,
    Uvarint.size v2PayloadDeflate, uvarintSizeForLength rawLength, uvarintSizeForLength encodedLength,
    encodedLength, 4]

def v2FrameSize (codecID : List UInt8) (rawLength encodedLength : Int) : Checked Err Int :=
  unbroken (e.intSize.sum (v2FrameParts typeID codecID rawLength encodedLength))

/-- The shorter of the two forms of a payload. -/
def choosePayload (codecID payload : List UInt8) : Checked Err (UInt64 × List UInt8) :=
  if (payload.length : Int) ≥ minV2DeflatePayloadBytes then do
    let compressed ← ofOption (e.deflate payload) .flate
    let deflated ← v2FrameSize e typeID codecID payload.length compressed.length
    let raw ← v2FrameSize e typeID codecID payload.length payload.length
    if deflated < raw then return (v2PayloadDeflate, compressed) else return (v2PayloadRaw, payload)
  else return (v2PayloadRaw, payload)

def marshalFrameV2Payload (codecID payload : List UInt8) (limits : Limits) : Checked Err (List UInt8) := do
  let (mode, encoded) ← choosePayload e typeID codecID payload
  let frameBytes ← v2FrameSize e typeID codecID payload.length encoded.length
  check (frameBytes ≤ limits.maxFrameBytes) .frameLimit
  withChecksum e (header formatVersionV2 typeID codecID ++ Uvarint.put mode ++
    Uvarint.put (lengthAsUint64 payload.length) ++ Uvarint.put (lengthAsUint64 encoded.length) ++ encoded)

def marshalFrameV2WithLimits (f : Frame) (limits : Limits) : Checked Err (List UInt8) := do
  check (validFrameV2Input f.typeID f.codecID f.payload.length limits) .frameLimit
  marshalFrameV2Payload e f.typeID f.codecID f.payload limits

def marshalFrameV2RawWithPayload (codecID : List UInt8) (payloadLength : Int)
    (limits : Limits) (writePayload : Int → Except Err (List UInt8)) : Checked Err (List UInt8) := do
  check (0 ≤ payloadLength) .frameLimit
  let frameBytes ← v2FrameSize e typeID codecID payloadLength payloadLength
  check (frameBytes ≤ limits.maxFrameBytes) .frameLimit
  let buf := header formatVersionV2 typeID codecID ++ Uvarint.put v2PayloadRaw ++
    Uvarint.put (lengthAsUint64 payloadLength) ++ Uvarint.put (lengthAsUint64 payloadLength)
  match writePayload payloadLength with
  | .error err => .error err
  | .ok payload => withChecksum e (buf ++ payload)

def marshalFrameV2WithPayloadAndLimits (codecID : List UInt8)
    (payloadLength : Int) (limits : Limits) (writePayload : Int → Except Err (List UInt8)) :
    Checked Err (List UInt8) := do
  check (validFrameV2Input typeID codecID payloadLength limits) .frameLimit
  if payloadLength < minV2DeflatePayloadBytes then
    marshalFrameV2RawWithPayload e typeID codecID payloadLength limits writePayload
  else
    match writePayload payloadLength with
    | .error err => .error err
    | .ok payload => marshalFrameV2Payload e typeID codecID payload limits

end

/-- `io.ReadFull` with a buffer of `size` bytes: how many are read, and how the reader ended if they
are fewer. -/
def readFull (stream : List UInt8 × Ended) (size : Int) : Int × Option Ended :=
  if (stream.1.length : Int) ≥ size then (size, none)
  else (stream.1.length, some (if stream.2 = .eof ∧ stream.1 ≠ [] then .unexpectedEOF else stream.2))

def inflatePayload (encoded : List UInt8) (rawLength : Int) : Checked Err (List UInt8) := do
  check (0 ≤ rawLength && rawLength < e.intSize.max) .frameLimit
  let size ← unbroken (e.intSize.add rawLength 1)
  let (count, err) := readFull (e.inflate encoded) size
  check (count ≤ rawLength) .frameLimit
  check (count = rawLength && (err = some .unexpectedEOF || rawLength = 0 && err = some .eof)) .invalidFrame
  -- closing the reader repeats how the stream has ended
  check ((e.inflate encoded).2 = .eof) .flate
  return (e.inflate encoded).1.take rawLength.toNat

def unmarshalFrameV2 (body : List UInt8) (typeID : UInt64) (codecID : List UInt8)
    (position : Int) (limits : Limits) : Checked Err Frame := do
  let (mode, next) ← ofOption (← readUvarint e.intSize body position) .invalidFrame
  check (mode = v2PayloadRaw || mode = v2PayloadDeflate) .invalidFrame
  let (rawLength, next) ← ofOption (← readUvarint e.intSize body next) .frameLimit
  check (0 ≤ limits.maxPayload && rawLength.toNat ≤ limits.maxPayload) .frameLimit
  let (encodedLength, next) ← ofOption (← readUvarint e.intSize body next) .frameLimit
  let remaining ← unbroken (e.intSize.sub body.length next)
  check (0 ≤ remaining && encodedLength.toNat = remaining) .frameLimit
  let encoded ← unbroken (slice body next body.length)
  if mode = v2PayloadRaw then do
    check (rawLength = encodedLength) .invalidFrame
    return ⟨typeID, codecID, encoded, formatVersionV2⟩
  else do
    let decodedLength ← ofOption (uint64AsInt e.intSize rawLength) .frameLimit
    let payload ← inflatePayload e encoded decodedLength
    return ⟨typeID, codecID, payload, formatVersionV2⟩

/-! ### Decoding -/

section
variable (data : List UInt8) (limits : Limits)

def peekFrameFormatVersion : Checked Err UInt64 := do
  check (limits.valid && data.length ≤ limits.maxFrameBytes && data.length ≥ 9) .frameLimit
  let start ← unbroken (slice data 0 4)
  check (start = magic) .invalidFrame
  let (version, _) ← ofOption (← readUvarint e.intSize data 4) .invalidFrame
  check (version = formatVersion || version = formatVersionV2) .invalidFrame
  return version

def unmarshalFrame : Checked Err Frame := do
  check (limits.valid && data.length ≤ limits.maxFrameBytes && data.length ≥ 9) .frameLimit
  let start ← unbroken (slice data 0 4)
  check (start = magic) .invalidFrame
  let bodyEnd ← unbroken (e.intSize.sub data.length 4)
  let stored ← unbroken (slice data bodyEnd data.length)
  let summed ← unbroken (slice data 4 bodyEnd)
  check (getUint32 stored = some (e.checksum summed)) .invalidFrame
  let body ← unbroken (slice data 0 bodyEnd)
  let (version, next) ← ofOption (← readUvarint e.intSize body 4) .invalidFrame
  check (version = formatVersion || version = formatVersionV2) .invalidFrame
  let (typeID, next) ← ofOption (← readUvarint e.intSize body next) .invalidFrame
  check (typeID ≠ 0) .invalidFrame
  let (codecLength, next) ← ofOption (← readUvarint e.intSize body next) .frameLimit
  let codecLengthInt ← ofOption (uint64AsInt e.intSize codecLength) .frameLimit
  let remaining ← unbroken (e.intSize.sub bodyEnd next)
  check (codecLengthInt ≤ limits.maxCodecID && codecLengthInt ≤ remaining) .frameLimit
  let codecEnd ← unbroken (e.intSize.add next codecLengthInt)
  let codecID ← unbroken (slice data next codecEnd)
  if version = formatVersion then do
    let (payloadLength, next) ← ofOption (← readUvarint e.intSize body codecEnd) .frameLimit
    let payloadLengthInt ← ofOption (uint64AsInt e.intSize payloadLength) .frameLimit
    let remaining ← unbroken (e.intSize.sub bodyEnd next)
    check (payloadLengthInt ≤ limits.maxPayload && payloadLengthInt = remaining) .frameLimit
    let payload ← unbroken (slice data next bodyEnd)
    return {typeID, codecID, payload}
  else unmarshalFrameV2 e body typeID codecID codecEnd limits

def convertFrameV1ToV2 : Checked Err (List UInt8) := do
  let decoded ← unmarshalFrame e data limits
  check (decoded.version = formatVersion) .invalidFrame
  marshalFrameV2WithLimits e decoded limits

def convertFrameV2ToV1 : Checked Err (List UInt8) := do
  let decoded ← unmarshalFrame e data limits
  check (decoded.version = formatVersionV2) .invalidFrame
  decoded.marshalWithLimits e limits

end

end Crdt.Wire
