import PostScript.ByteOrder
import PostScript.Error

/-
  This file defines the four formats of binary object
  sequences and the records that they consist of.

  Key definitions include:
    * `RealForm`
    * `SequenceFormat`
    * `SequenceFormat.ofToken?`
    * `SequenceFormat.token`
    * `RecordType`
    * `Record`
    * `Record.bytes`
    * `Record.ofBytes`
-/

namespace PostScript

------------------------------------------------------------
-- Formats
------------------------------------------------------------

/-
  How reals are written: always as floating-point numbers, or
  as fixed-point numbers where that is exact.
-/
inductive RealForm where
  | ieee
  | native
deriving DecidableEq, Repr

/- The format of a sequence. -/
structure SequenceFormat where
  order : ByteOrder
  reals : RealForm
deriving DecidableEq, Repr

namespace SequenceFormat

/- The format that a token selects. -/
def ofToken?
    (token : UInt8) : Option SequenceFormat :=
  if token == 128 then
    some ⟨.big, .ieee⟩
  else if token == 129 then
    some ⟨.little, .ieee⟩
  else if token == 130 then
    some ⟨.big, .native⟩
  else if token == 131 then
    some ⟨.little, .native⟩
  else
    none

/- The token that selects a format. -/
def token : SequenceFormat → UInt8
  | ⟨.big, .ieee⟩ => 128
  | ⟨.little, .ieee⟩ => 129
  | ⟨.big, .native⟩ => 130
  | ⟨.little, .native⟩ => 131

/- All formats in the order of their tokens. -/
def all : List SequenceFormat :=
  [⟨.big, .ieee⟩, ⟨.little, .ieee⟩,
    ⟨.big, .native⟩, ⟨.little, .native⟩]

/- Every format is selected by its own token. -/
theorem ofToken?_token
    (f : SequenceFormat) :
    ofToken? f.token = some f := by
  rcases f with ⟨_ | _, _ | _⟩ <;> rfl

end SequenceFormat

------------------------------------------------------------
-- Records
------------------------------------------------------------

/- The types of records. -/
inductive RecordType where
  | null
  | integer
  | real
  | name
  | boolean
  | string
  | immediateName
  | array
  | mark
deriving DecidableEq, Repr

namespace RecordType

/- The code of a type. -/
def code : RecordType → UInt8
  | null => 0
  | integer => 1
  | real => 2
  | name => 3
  | boolean => 4
  | string => 5
  | immediateName => 6
  | array => 9
  | mark => 10

/- The type with a code. -/
def ofCode?
    (c : UInt8) : Option RecordType :=
  [null, integer, real, name, boolean, string,
    immediateName, array, mark].find? (fun t => t.code == c)

/- Every type is found under its code. -/
theorem ofCode?_code
    (t : RecordType) :
    ofCode? t.code = some t := by
  cases t <;> rfl

end RecordType

/- The size of a record in bytes. -/
def recordSize : Nat :=
  8

/- The length field of a name that is given by number. -/
def systemNameLength : UInt16 :=
  0xffff

/-
  The four fields of a record: the type and the executable
  bit in the first byte, a length and a value.
-/
structure Record where
  type : UInt8
  executable : Bool
  length : UInt16
  value : UInt32
deriving DecidableEq, Repr

namespace Record

/- The bytes of a record. The second byte is always zero. -/
def bytes
    (order : ByteOrder)
    (r : Record) : List UInt8 :=
  (r.type ||| (if r.executable then 0x80 else 0)) :: 0 ::
    (order.bytes16 r.length ++ order.bytes32 r.value)

/- Read a record. The first byte is given if the second is
   not zero. -/
def ofBytes
    (order : ByteOrder) :
    List UInt8 → Except UInt8 Record
  | first :: zero :: rest =>
      if zero != 0 then
        .error first
      else
        .ok ⟨first &&& 0x7f, first ≥ 0x80,
          order.word16 (rest.take 2),
          order.word32 (rest.drop 2)⟩
  | _ => .error 0

end Record

end PostScript
