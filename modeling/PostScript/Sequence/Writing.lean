import PostScript.Numeric.FixedPoint
import PostScript.Object.Basic
import PostScript.Sequence.Header
import PostScript.Sequence.Reading

/-
  This file writes objects as binary object sequences. A first
  walk over the objects checks that each can be written and
  adds up the space; a second walk fills the space, nested
  blocks from the front and text from the back.

  Key definitions include:
    * `Sequence.Writer`
    * `Sequence.Writer.measure`
    * `Sequence.Arena`
    * `Sequence.Writer.fill`
    * `Sequence.Writer.writeAll`
    * `Sequence.Writer.write`
-/

namespace PostScript.Sequence

/- The most bytes or elements that a record can tell. -/
def maxRecordLength : Nat :=
  0xffff

/-
  How sequences are written: the format, and whether system
  names are written by number.
-/
structure Writer where
  format : SequenceFormat
  systemNames : Bool := true
deriving DecidableEq, Repr

/-
  The number of records and of bytes of text. A shared array
  counts wherever it stands, so that there may be more records
  than memory has room for. Both numbers, and the bytes of all
  of them, are assumed to stay below the greatest machine word.
-/
structure Extent where
  records : Nat
  text : Nat
deriving DecidableEq, Repr

namespace Extent

/- The number of bytes behind the header. -/
def bytes
    (x : Extent) : Nat :=
  x.records * recordSize + x.text

/- Add bytes of text. -/
def addText
    (n : Nat)
    (x : Extent) : Extent :=
  ⟨x.records, x.text + n⟩

end Extent

------------------------------------------------------------
-- Measuring
------------------------------------------------------------

namespace Writer

variable (w : Writer)

/- The number that a name is written as, if it is. -/
def nameIndex?
    (n : Name) : Option Nat :=
  if w.systemNames then n.systemIndex else none

/- Check and measure an object that is no array. -/
def measureAtom
    (x : Extent)
    (a : Attributes) :
    Atom → Except Cause Extent
  | .null | .mark | .integer _ | .boolean _ => .ok x
  | .infinity => .error .notFinite
  | .real v =>
      if v.isFinite then .ok x else .error .notFinite
  | .name n =>
      match w.nameIndex? n with
      | some _ => .ok x
      | none =>
          if n.bytes.size = 0 then
            .error .emptyName
          else if maxLongNameLength < n.bytes.size then
            .error .longName
          else
            .ok (x.addText n.bytes.size)
  | .string bytes =>
      if !a.access.canRead then
        .error .unreadable
      else if maxRecordLength < bytes.size then
        .error .longString
      else
        .ok (x.addText bytes.size)

/- Check and measure the records of a block. -/
def measureBlock
    (x : Extent)
    (depth count : Nat) : Except Cause Extent :=
  if maxNesting < depth then
    .error .nestedTooDeeply
  else if maxRecordLength < count then
    .error .longArray
  else
    .ok ⟨x.records + count, x.text⟩

/- Check and measure what belongs to the objects of a block. -/
mutual

def measureObject
    (x : Extent)
    (depth : Nat) : Object → Except Cause Extent
  | .atom v a => measureAtom w x a v
  | .array es a =>
      if !a.access.canRead then
        .error .unreadable
      else
        match measureBlock x (depth + 1) es.length with
        | .error cause => .error cause
        | .ok x' => measureObjects x' (depth + 1) es

def measureObjects
    (x : Extent)
    (depth : Nat) : List Object → Except Cause Extent
  | [] => .ok x
  | e :: es =>
      match measureObject x depth e with
      | .error cause => .error cause
      | .ok x' => measureObjects x' depth es

end

/- Check and measure objects at the top level. -/
def measure
    (objects : List Object) : Except Cause Extent :=
  match measureBlock ⟨0, 0⟩ 0 objects.length with
  | .error cause => .error cause
  | .ok x => w.measureObjects x 0 objects

end Writer

------------------------------------------------------------
-- Space
------------------------------------------------------------

/-
  The bytes behind the header while they are filled. The free
  space lies between `bottom` and `top`.
-/
structure Arena where
  data : Bytes
  bottom : Nat
  top : Nat

namespace Arena

/- An arena whose first records are already taken. -/
def ofExtent
    (x : Extent)
    (count : Nat) : Arena :=
  ⟨Array.replicate x.bytes 0, count * recordSize, x.bytes⟩

/- Put bytes at an offset. -/
def put
    (data : Bytes)
    (offset : Nat) : List UInt8 → Bytes
  | [] => data
  | b :: bs =>
      put (data.setIfInBounds offset b) (offset + 1) bs

/- Take space for records from the bottom. -/
def takeRecords
    (count : Nat)
    (a : Arena) : Except Cause (Nat × Arena) :=
  let stop := a.bottom + count * recordSize
  if a.top < stop then
    .error .layoutOverflow
  else
    .ok (a.bottom, { a with bottom := stop })

/- Put text at the top. Empty text stands nowhere. -/
def putText
    (text : Bytes)
    (a : Arena) : Except Cause (Nat × Arena) :=
  if text.isEmpty then
    .ok (0, a)
  else if a.top < a.bottom + text.size ∨
      0xffffffff + text.size < a.top then
    .error .layoutOverflow
  else
    let start := a.top - text.size
    .ok (start,
      ⟨put a.data start text.toList, a.bottom, start⟩)

/- Put a record at an offset. -/
def putRecord
    (order : ByteOrder)
    (offset : Nat)
    (r : Record)
    (a : Arena) : Arena :=
  match a with
  | ⟨data, bottom, top⟩ =>
      ⟨put data offset (r.bytes order), bottom, top⟩

end Arena

------------------------------------------------------------
-- Filling
------------------------------------------------------------

namespace Writer

variable (w : Writer)

/- The length and value fields of a real. -/
def realFields
    (v : Real) : UInt16 × UInt32 :=
  let fixed :=
    match w.format.reals with
    | .native => FixedPoint.ofSingle? v.bits
    | .ieee => none
  match fixed with
  | some x => (UInt16.ofNat x.scale, x.mantissa.toUInt32)
  | none => (0, v.bits)

/- Put the text of a record and give the record. -/
def textRecord
    (type : RecordType)
    (executable : Bool)
    (text : Bytes)
    (arena : Arena) : Except Cause (Record × Arena) :=
  match arena.putText text with
  | .error cause => .error cause
  | .ok (start, arena') =>
      .ok (⟨type.code, executable, UInt16.ofNat text.size,
        UInt32.ofNat start⟩, arena')

/- The record of an object that is no array. -/
def atomRecord
    (executable : Bool)
    (arena : Arena) :
    Atom → Except Cause (Record × Arena)
  | .null =>
      .ok (⟨RecordType.null.code, executable, 0, 0⟩, arena)
  | .mark =>
      .ok (⟨RecordType.mark.code, executable, 0, 0⟩, arena)
  | .infinity => .error .notFinite
  | .integer v =>
      .ok (⟨RecordType.integer.code, executable, 0,
        v.toUInt32⟩, arena)
  | .boolean v =>
      .ok (⟨RecordType.boolean.code, executable, 0,
        if v then 1 else 0⟩, arena)
  | .real v =>
      let (length, value) := w.realFields v
      .ok (⟨RecordType.real.code, executable, length,
        value⟩, arena)
  | .name n =>
      match w.nameIndex? n with
      | some index =>
          .ok (⟨RecordType.name.code, executable,
            systemNameLength, UInt32.ofNat index⟩, arena)
      | none => textRecord .name executable n.bytes arena
  | .string bytes =>
      textRecord .string executable bytes arena

/- Fill in the record of an object and all below it. -/
mutual

def fillObject
    (offset : Nat)
    (arena : Arena) : Object → Except Cause Arena
  | .atom v a =>
      match w.atomRecord a.executable arena v with
      | .error cause => .error cause
      | .ok (r, arena') =>
          .ok (arena'.putRecord w.format.order offset r)
  | .array es a =>
      match arena.takeRecords es.length with
      | .error cause => .error cause
      | .ok (start, arena') =>
          fillObjects start
            (arena'.putRecord w.format.order offset
              ⟨RecordType.array.code, a.executable,
                UInt16.ofNat es.length,
                UInt32.ofNat start⟩) es

def fillObjects
    (offset : Nat)
    (arena : Arena) : List Object → Except Cause Arena
  | [] => .ok arena
  | e :: es =>
      match fillObject offset arena e with
      | .error cause => .error cause
      | .ok arena' =>
          fillObjects (offset + recordSize) arena' es

end

/- The bytes behind the header. -/
def fill
    (x : Extent)
    (objects : List Object) : Except Cause Bytes :=
  match w.fillObjects 0
      (Arena.ofExtent x objects.length) objects with
  | .error cause => .error cause
  | .ok arena =>
      if arena.bottom = arena.top then
        .ok arena.data
      else
        .error .layoutMismatch

------------------------------------------------------------
-- Sequences
------------------------------------------------------------

/- Write objects at the top level of a sequence. -/
def writeAll
    (objects : List Object) : Except Cause Bytes :=
  match w.measure objects with
  | .error cause => .error cause
  | .ok x =>
      match Header.forPayload w.format objects.length
          x.bytes with
      | .error cause => .error cause
      | .ok h =>
          match w.fill x objects with
          | .error cause => .error cause
          | .ok data => .ok (h.bytes.toArray ++ data)

/-
  Write one object. The elements of an array become the top
  level of the sequence.
-/
def write : Object → Except Cause Bytes
  | .atom v a => w.writeAll [.atom v a]
  | .array es a =>
      if a.access.canRead then
        w.writeAll es
      else
        .error .unreadable

end Writer

end PostScript.Sequence
