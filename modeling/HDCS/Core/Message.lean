import HDCS.Lib.Wire

/-!
# Messages

`Network/common/Message.h`, and how `asio_messenger::aio_receive` takes messages off
a connection. A message is the image of a `MsgHeader` and then the content. The
header repeats the last eight bytes of the content, and the receiver compares them.

`Message` takes these bytes from eight before the end of the content without asking
whether it has as many; what it would read in front of a shorter content is not
modelled, so there is no message then.
-/

namespace HDCS

open Lib

def crcByteNum : Nat := 8

/-- A `std::string`: bytes, as many as a `size_t` can count. -/
structure Content where
  bytes : List UInt8
  size_lt : bytes.length < 2 ^ 64
  deriving DecidableEq

structure MsgHeader where
  seqId : UInt64
  /-- Of the content. -/
  size : UInt64
  crcFlag : List UInt8
  crcFlag_length : crcFlag.length = crcByteNum
  deriving DecidableEq

namespace MsgHeader

def sizeOf : Nat := 16 + crcByteNum

def image (h : MsgHeader) : List UInt8 :=
  Wire.encode 8 h.seqId.toNat ++ (Wire.encode 8 h.size.toNat ++ h.crcFlag)

def ofImage (bytes : List UInt8) (h : bytes.length = sizeOf) : MsgHeader where
  seqId := UInt64.ofNat (Wire.decode (bytes.take 8))
  size := UInt64.ofNat (Wire.decode ((bytes.drop 8).take 8))
  crcFlag := bytes.drop 16
  crcFlag_length := by
    rw [List.length_drop, h]
    rfl

end MsgHeader

def checkBytes (bytes : List UInt8) : List UInt8 := bytes.drop (bytes.length - crcByteNum)

theorem length_checkBytes {bytes : List UInt8} (h : crcByteNum ≤ bytes.length) :
    (checkBytes bytes).length = crcByteNum := by
  rw [checkBytes, List.length_drop]
  omega

structure Message where
  header : MsgHeader
  data : Content

namespace Message

def new (data : Content) (seqId : UInt64) : Option Message :=
  if h : crcByteNum ≤ data.bytes.length then
    some ⟨⟨seqId, UInt64.ofNat data.bytes.length, checkBytes data.bytes, length_checkBytes h⟩, data⟩
  else none

def toBuffer (m : Message) : List UInt8 := m.header.image ++ m.data.bytes

end Message

/--
`check_crc`: byte by byte, from `content_size - CRC_BYTE_NUM` on. Of a shorter content
it would read what is in front of it.
-/
def checkCrc (h : MsgHeader) (content : List UInt8) : Option Bool :=
  if crcByteNum ≤ content.length then
    some ((List.range crcByteNum).all fun i =>
      h.crcFlag[i]? == content[content.length - crcByteNum + i]?)
  else none

/-! ## Receiving -/

inductive Receipt where
  /-- One of the two reads has not got all of its bytes. -/
  | waiting
  /-- "CRC failed", and `assert(0)`; or there was nothing to check. -/
  | failed
  | received (seqId : UInt64) (content : Content) (rest : List UInt8)
  deriving DecidableEq

def readContent (size : UInt64) (stream : List UInt8) : Content where
  bytes := stream.take size.toNat
  size_lt := by
    rw [List.length_take]
    have := size.toNat_lt
    omega

def receive (stream : List UInt8) : Receipt :=
  if h : MsgHeader.sizeOf ≤ stream.length then
    let header := MsgHeader.ofImage (stream.take MsgHeader.sizeOf) (List.length_take_of_le h)
    let stream := stream.drop MsgHeader.sizeOf
    let content := readContent header.size stream
    -- `transfer_exactly(content_size)`
    if content.bytes.length < header.size.toNat then .waiting
    else if checkCrc header content.bytes = some true then
      .received header.seqId content (stream.drop header.size.toNat)
    else .failed
  else .waiting

def nextMessage (stream : List UInt8) : Option ((UInt64 × Content) × List UInt8) :=
  match receive stream with
  | .received seqId content rest => some ((seqId, content), rest)
  | _ => none

/-- What a receiver got off a stream. -/
structure Received where
  messages : List (UInt64 × Content)
  /-- Bytes that are not part of a whole message. -/
  left : List UInt8
  /-- It ended with an assertion. -/
  failed : Bool
  deriving DecidableEq

/-- `aio_receive` calls itself again after each message; a message has at least a byte. -/
def aioReceive (stream : List UInt8) : Received :=
  let x := Wire.readAll nextMessage stream.length stream
  ⟨x.1, x.2, receive x.2 = .failed⟩

/-- The messages of a sender, one after the other. -/
def sendAll : List (UInt64 × Content) → Option (List UInt8)
  | [] => some []
  | m :: ms =>
    match Message.new m.2 m.1, sendAll ms with
    | some x, some stream => some (x.toBuffer ++ stream)
    | _, _ => none

end HDCS
