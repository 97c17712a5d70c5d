import PostScript.Environment
import PostScript.Numeric.FixedPoint
import PostScript.Sequence.Header

/-
  This file reads binary object sequences. Records stand in
  blocks that grow from the front, text stands at the back,
  and the two never overlap: the end of the records read so
  far and the start of the text read so far are kept while
  reading. The number of records that are read never exceeds
  the number that fits into the sequence, so that blocks that
  are named several times cannot multiply.

  Key definitions include:
    * `Sequence.Progress`
    * `Sequence.Payload`
    * `Sequence.object`
    * `Sequence.block`
    * `Sequence.readPayload`
    * `Sequence.read`
-/

namespace PostScript.Sequence

/- How deep arrays may nest below the top level. -/
def maxNesting : Nat :=
  256

/-
  What changes while a sequence is read: the table of names,
  the end of the records, the start of the text and the
  number of records that may still be read.
-/
structure Progress where
  names : NameTable
  recordsEnd : Nat
  textStart : Nat
  budget : Nat

/- Reading keeps its progress when it fails. -/
abbrev Reading (α : Type) : Type :=
  EStateM Cause Progress α

/- The bytes behind a header and their order. -/
structure Payload where
  data : Bytes
  order : ByteOrder

namespace Payload

variable (p : Payload)

/- Fail with a fault of a record. -/
def fail
    {α : Type}
    (fault : RecordFault)
    (type : UInt8)
    (count : Nat) : Reading α :=
  throw (.record fault type count p.data.size)

------------------------------------------------------------
-- Records and Text
------------------------------------------------------------

/- Read the record at an offset. -/
def record
    (offset : Nat) : Reading Record := do
  let st ← get
  if st.budget = 0 then
    p.fail .tooManyObjects 0 0
  else
    set { st with budget := st.budget - 1 }
    if p.data.size < offset + recordSize then
      p.fail .recordOutOfBounds 0 0
    else
      match Record.ofBytes p.order
          (p.data.extract offset
            (offset + recordSize)).toList with
      | .ok r => pure r
      | .error first => p.fail .reservedByte first 0

/- Read the text that a record refers to. -/
def text
    (r : Record) : Reading Bytes := do
  let length := r.length.toNat
  if length = 0 then
    pure #[]
  else
    let start := r.value.toNat
    let st ← get
    if start < st.recordsEnd ∨
        p.data.size < start + length then
      p.fail .stringOutOfBounds r.type length
    else
      set { st with textStart := min st.textStart start }
      pure (p.data.extract start (start + length))

/-
  Reserve the block of records that an array refers to. An
  empty array refers to nothing.
-/
def reserve
    (r : Record) : Reading Unit := do
  let count := r.length.toNat
  let start := r.value.toNat
  if count = 0 then
    pure ()
  else if start % recordSize ≠ 0 then
    p.fail .misalignedArray r.type count
  else
    let stop := start + count * recordSize
    let st ← get
    if st.textStart < stop then
      p.fail .arrayOverStrings r.type count
    else
      set { st with recordsEnd := max st.recordsEnd stop }

/- Check that the fields without meaning are zero. -/
def unused
    (r : Record)
    (valueToo : Bool) : Reading Unit :=
  if r.length ≠ 0 ∨ (valueToo ∧ r.value ≠ 0) then
    p.fail .unusedField r.type r.length.toNat
  else
    pure ()

------------------------------------------------------------
-- Names
------------------------------------------------------------

/- Take a name from the table or put it there. -/
def internLong
    (bytes : Bytes) : Reading Name := do
  let st ← get
  match st.names.internLong bytes with
  | (.ok name, names) =>
      set { st with names := names }
      pure name
  | (.error cause, names) =>
      set { st with names := names }
      throw cause

/- The name that a record refers to, by number or as text. -/
def name
    (r : Record) : Reading Name := do
  if r.length = systemNameLength then
    let st ← get
    match st.names.systemName? r.value.toNat with
    | some name => pure name
    | none => p.fail .unknownSystemName r.type r.value.toNat
  else if r.length = 0 then
    p.fail .userNameTable r.type r.value.toNat
  else if maxLongNameLength < r.length.toNat then
    p.fail .badNameLength r.type r.length.toNat
  else
    let bytes ← p.text r
    internLong bytes

/- The binding of a name that is evaluated at once. -/
def binding
    {ε : Type}
    [Environment ε]
    (env : ε)
    (name : Name) : Reading Object := do
  let st ← get
  match st.names.load env name with
  | (some value, names) =>
      set { st with names := names }
      pure value
  | (none, names) =>
      set { st with names := names }
      throw (.unboundName name.bytes)

------------------------------------------------------------
-- Simple Values
------------------------------------------------------------

/- The boolean of a record. -/
def boolean
    (r : Record) : Reading Bool :=
  if r.value = 0 then
    pure false
  else if r.value = 1 then
    pure true
  else
    p.fail .badBoolean r.type 0

/-
  The real of a record, which is a floating-point number or a
  fixed-point number with a scale from 1 to 31.
-/
def real
    (r : Record) : Reading Real :=
  if r.length = 0 then
    if Real.isFinite ⟨r.value, 0⟩ then
      pure ⟨r.value, 0⟩
    else
      throw .notFinite
  else if r.length ≤ 31 then
    pure ⟨FixedPoint.toSingle
      ⟨r.value.toInt32, r.length.toNat⟩, 0⟩
  else
    throw (.record .badScale RecordType.real.code
      r.length.toNat 0)

end Payload

------------------------------------------------------------
-- Objects
------------------------------------------------------------

variable {ε : Type}
variable [Environment ε]

/-
  Read the object at an offset, given how the blocks of
  nested arrays are read.
-/
def object
    (p : Payload)
    (env : ε)
    (nested : Nat → Nat → Reading (List Object))
    (offset : Nat) : Reading Object := do
  let r ← p.record offset
  match RecordType.ofCode? r.type with
  | none => p.fail .unknownType r.type 0
  | some .null => do
      p.unused r true
      pure (Object.null.withExecutable r.executable)
  | some .mark => do
      p.unused r true
      pure (Object.mark.withExecutable r.executable)
  | some .integer => do
      p.unused r false
      pure ((Object.integer r.value.toInt32).withExecutable
        r.executable)
  | some .boolean => do
      p.unused r false
      let v ← p.boolean r
      pure ((Object.boolean v).withExecutable r.executable)
  | some .real => do
      let v ← Payload.real r
      pure ((Object.real v).withExecutable r.executable)
  | some .string => do
      let bytes ← p.text r
      pure ((Object.string bytes
        (Environment.newAttrs env)).withExecutable
          r.executable)
  | some .name => do
      let name ← p.name r
      pure (Object.name name r.executable)
  | some .immediateName => do
      let name ← p.name r
      Payload.binding env name
  | some .array => do
      p.reserve r
      let elements ← nested r.value.toNat r.length.toNat
      match makeArray env r.executable elements with
      | .ok o => pure o
      | .error cause => throw cause

/- Read `n` objects behind those already read. -/
def objectsAfter
    (read : Nat → Reading Object)
    (done : Array Object) :
    Nat → Nat → Reading (List Object)
  | 0, _ => pure done.toList
  | n + 1, offset => do
      let o ← read offset
      objectsAfter read (done.push o) n
        (offset + recordSize)

/-
  Read a block of records at an offset, when arrays may nest
  `levels` deep from here on.
-/
def block
    (p : Payload)
    (env : ε) :
    Nat → Nat → Nat → Reading (List Object)
  | 0, _, count =>
      p.fail .nestedTooDeeply RecordType.array.code count
  | levels + 1, offset, count =>
      objectsAfter (object p env (block p env levels)) #[]
        count offset

------------------------------------------------------------
-- Sequences
------------------------------------------------------------

/- What reading a payload begins with. -/
def Progress.start
    (names : NameTable)
    (count size : Nat) : Progress :=
  ⟨names, count * recordSize, size, size / recordSize⟩

/- Keep nothing of the progress but the names. -/
def Reading.run
    {α : Type}
    (x : Reading α)
    (count size : Nat) : EStateM Cause NameTable α :=
  fun names =>
    match EStateM.run x (Progress.start names count size) with
    | .ok v st => .ok v st.names
    | .error cause st => .error cause st.names

/-
  Read the objects behind a header as one executable array.
-/
def readPayload
    (env : ε)
    (h : Header)
    (data : Bytes) : EStateM Cause NameTable Object := do
  let count := h.count.toNat
  let p : Payload := ⟨data, h.format.order⟩
  if data.size < count * recordSize then
    throw (.record .recordsExceedSequence 0 count data.size)
  else
    let elements ←
      (block p env (maxNesting + 1) 0 count).run
        count data.size
    match makeArray env true elements with
    | .ok o => pure o
    | .error cause => throw cause

/-
  Read the sequence that data starts with, and tell how many
  bytes it takes.
-/
def read
    (env : ε)
    (data : Bytes) : EStateM Cause NameTable (Object × Nat) :=
  do
  match Header.parse data with
  | .error cause => throw cause
  | .ok h =>
      let length := h.length.toNat
      if data.size < length then
        throw (.record .truncatedSequence 0 0 length)
      else
        let o ← readPayload env h (data.extract h.size length)
        pure (o, length)

end PostScript.Sequence
