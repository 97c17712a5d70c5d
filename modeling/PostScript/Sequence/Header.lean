import PostScript.Sequence.Format

/-
  This file defines the header of a binary object sequence.
  A short header holds a count of one byte and a length of
  two; an extended header, marked by a zero in place of the
  count, holds a count of two bytes and a length of four.

  Key definitions include:
    * `Header`
    * `Header.forPayload`
    * `Header.parse`
    * `Header.bytes`
-/

namespace PostScript

/-
  A header: the number of objects at the top level and the
  length of the whole sequence, header included.
-/
structure Header where
  format : SequenceFormat
  count : UInt16
  length : UInt32
  extended : Bool
deriving DecidableEq, Repr

namespace Header

/- The size of a short header. -/
def shortSize : Nat :=
  4

/- The size of an extended header. -/
def extendedSize : Nat :=
  8

/- The size of the header itself. -/
def size
    (h : Header) : Nat :=
  if h.extended then extendedSize else shortSize

/- The number of bytes behind the header. -/
def payloadSize
    (h : Header) : Nat :=
  h.length.toNat - h.size

/-
  The shortest header for a count and a payload. The payload
  is assumed to stay so far below the greatest machine word
  that a header can be added to it.
-/
def forPayload
    (format : SequenceFormat)
    (count payload : Nat) : Except Cause Header :=
  if 0xffff < count then
    .error .manyObjects
  else if 1 ≤ count ∧ count ≤ 255 ∧
      payload + shortSize ≤ 0xffff then
    .ok ⟨format, UInt16.ofNat count,
      UInt32.ofNat (payload + shortSize), false⟩
  else if payload + extendedSize ≤ 0xffffffff then
    .ok ⟨format, UInt16.ofNat count,
      UInt32.ofNat (payload + extendedSize), true⟩
  else
    .error .longSequence

/- The bytes of a header. -/
def bytes
    (h : Header) : List UInt8 :=
  let order := h.format.order
  if h.extended then
    h.format.token :: 0 ::
      (order.bytes16 h.count ++ order.bytes32 h.length)
  else
    h.format.token :: UInt8.ofNat h.count.toNat ::
      order.bytes 2 h.length.toNat

/- The bytes from one position up to another. -/
def slice
    (data : Bytes)
    (start stop : Nat) : List UInt8 :=
  (data.extract start stop).toList

/- Read the fields of a header whose first byte is known. -/
def fields
    (format : SequenceFormat)
    (data : Bytes) : Except RecordFault Header :=
  let order := format.order
  match data[1]? with
  | none => .error .truncatedHeader
  | some count =>
      if count == 0 then
        if data.size < extendedSize then
          .error .truncatedHeader
        else
          .ok ⟨format, order.word16 (slice data 2 4),
            order.word32 (slice data 4 8), true⟩
      else if data.size < shortSize then
        .error .truncatedHeader
      else
        .ok ⟨format, UInt16.ofNat count.toNat,
          UInt32.ofNat (order.value (slice data 2 4)), false⟩

/- Read a header and name what is wrong with it. -/
def check
    (data : Bytes) : Except RecordFault Header :=
  match data[0]? with
  | none => .error .missingHeader
  | some token =>
      match SequenceFormat.ofToken? token with
      | none => .error .notASequence
      | some format =>
          match fields format data with
          | .error fault => .error fault
          | .ok h =>
              if h.length.toNat < h.size then
                .error .lengthBelowHeader
              else
                .ok h

/- Read the header that data starts with. -/
def parse
    (data : Bytes) : Except Cause Header :=
  match check data with
  | .ok h => .ok h
  | .error fault => .error (.record fault 0 0 data.size)

end Header

end PostScript
