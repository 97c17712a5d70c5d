import PostScript.Utf8

/-
  This file defines what can go wrong: the causes, the error
  that the language reports for each of them, and the text of
  that report.

  Key definitions include:
    * `ErrorKind`
    * `RecordFault`
    * `Cause`
    * `Cause.kind`
    * `Error`
    * `Error.inToken`
    * `Error.detail`
    * `Error.message`
-/

namespace PostScript

------------------------------------------------------------
-- Kinds
------------------------------------------------------------

/- The errors of the language. -/
inductive ErrorKind where
  | syntaxError
  | limitCheck
  | rangeCheck
  | undefinedResult
  | undefined
  | invalidAccess
  | vmError
  | ioError
  | typeCheck
deriving DecidableEq, Repr

/- The name of an error. -/
def ErrorKind.text : ErrorKind → String
  | syntaxError => "syntaxerror"
  | limitCheck => "limitcheck"
  | rangeCheck => "rangecheck"
  | undefinedResult => "undefinedresult"
  | undefined => "undefined"
  | invalidAccess => "invalidaccess"
  | vmError => "VMerror"
  | ioError => "ioerror"
  | typeCheck => "typecheck"

------------------------------------------------------------
-- Faults of Binary Records
------------------------------------------------------------

/- What is wrong with a binary object sequence. -/
inductive RecordFault where
  | missingHeader
  | notASequence
  | truncatedHeader
  | lengthBelowHeader
  | truncatedSequence
  | recordsExceedSequence
  | nestedTooDeeply
  | tooManyObjects
  | recordOutOfBounds
  | reservedByte
  | unknownType
  | unusedField
  | badBoolean
  | badScale
  | misalignedArray
  | arrayOverStrings
  | unknownSystemName
  | userNameTable
  | badNameLength
  | stringOutOfBounds
deriving DecidableEq, Repr

namespace RecordFault

/- The account of a fault. -/
def text : RecordFault → String
  | missingHeader => "missing header"
  | notASequence => "not a sequence token"
  | truncatedHeader => "truncated header"
  | lengthBelowHeader => "length shorter than header"
  | truncatedSequence => "sequence is truncated"
  | recordsExceedSequence =>
      "top level records exceed the sequence"
  | nestedTooDeeply => "arrays nested too deeply"
  | tooManyObjects => "too many objects"
  | recordOutOfBounds => "record out of bounds"
  | reservedByte => "reserved byte is not zero"
  | unknownType => "unknown object type"
  | unusedField => "unused field is not zero"
  | badBoolean => "bad boolean"
  | badScale => "bad fixed point scale"
  | misalignedArray => "misaligned array"
  | arrayOverStrings => "array overlaps string data"
  | unknownSystemName => "unknown system name"
  | userNameTable => "user name tables are not supported"
  | badNameLength => "bad name length"
  | stringOutOfBounds => "string out of bounds"

/- The error that a fault is reported as. -/
def kind : RecordFault → ErrorKind
  | missingHeader | notASequence | truncatedHeader
  | lengthBelowHeader | truncatedSequence
  | unknownType => .syntaxError
  | unknownSystemName | userNameTable => .undefined
  | _ => .rangeCheck

end RecordFault

------------------------------------------------------------
-- Causes
------------------------------------------------------------

/- Why an operation failed. -/
inductive Cause where
  /- Text or data that no token begins with or ends in. -/
  | malformed
  /- A token or a number beyond its limit. -/
  | tooLong
  /- An immediately evaluated name without a binding. -/
  | unbound
  /- A NaN or an infinity where a number must be finite. -/
  | notFinite
  /- A composite whose contents may not be read. -/
  | unreadable
  /- A failure of the byte source. -/
  | source (message : String)
  | procedureTooDeep
  | procedureTooLong
  | arrayTooLong
  | localInGlobal
  | badBoolean
  | badRepresentation
  | ragged
  | doesNotFit
  | noSystemName (index : Nat)
  | noUserName (index : Nat)
  | unboundName (name : Bytes)
  | nestedTooDeeply
  | emptyName
  | longArray
  | longName
  | longString
  | longNumberArray
  | manyObjects
  | longSequence
  | layoutOverflow
  | layoutMismatch
  /- A fault of a record, its type, its count or length and
     the size of the data around it. -/
  | record
      (fault : RecordFault)
      (type : UInt8)
      (count size : Nat)
deriving DecidableEq, Repr

namespace Cause

/- The error that a cause is reported as. -/
def kind : Cause → ErrorKind
  | malformed => .syntaxError
  | tooLong => .limitCheck
  | unbound => .undefined
  | notFinite => .undefinedResult
  | unreadable => .invalidAccess
  | source _ => .ioError
  | procedureTooDeep | procedureTooLong
  | arrayTooLong => .rangeCheck
  | localInGlobal => .invalidAccess
  | badBoolean | badRepresentation | ragged
  | doesNotFit => .rangeCheck
  | noSystemName _ | noUserName _
  | unboundName _ => .undefined
  | nestedTooDeeply | emptyName => .rangeCheck
  | longArray | longName | longString | longNumberArray
  | manyObjects | longSequence => .limitCheck
  | layoutOverflow | layoutMismatch => .vmError
  | record fault _ _ _ => fault.kind

/- The account of a cause that has one of its own. -/
def account : Cause → Option String
  | malformed | tooLong | unbound | notFinite
  | unreadable => none
  | source message => some message
  | procedureTooDeep =>
      some "procedures nested too deeply"
  | procedureTooLong =>
      some "procedure has too many elements"
  | arrayTooLong => some "array has too many elements"
  | localInGlobal =>
      some "local object stored into global array"
  | badBoolean => some "bad boolean"
  | badRepresentation => some "bad number representation"
  | ragged =>
      some ("number array length is not a multiple of " ++
        "the element size")
  | doesNotFit =>
      some ("number does not fit the fixed point " ++
        "representation")
  | noSystemName i => some ("system name " ++ i.repr)
  | noUserName i => some ("user name " ++ i.repr)
  | unboundName name =>
      some ("/" ++ Utf8.lossyText name ++
        " is not defined")
  | nestedTooDeeply => some "arrays nested too deeply"
  | emptyName => some "empty names can't be encoded"
  | longArray => some "array too long"
  | longName => some "name too long"
  | longString => some "string too long"
  | longNumberArray => some "number array too long"
  | manyObjects => some "too many top level objects"
  | longSequence => some "sequence too long"
  | layoutOverflow =>
      some "binary object sequence layout overflow"
  | layoutMismatch =>
      some "binary object sequence layout mismatch"
  | record fault _ _ _ => some fault.text

end Cause

------------------------------------------------------------
-- Errors
------------------------------------------------------------

/- How much of a failed token a report keeps. -/
def tokenDetailLength : Nat :=
  128

/-
  A reported error: its cause, and the first bytes of the
  token that was being read if the cause tells nothing else.
-/
structure Error where
  cause : Cause
  token : Bytes
deriving DecidableEq, Repr

/- What a report says beside the kind of the error. -/
inductive Detail where
  | token (bytes : Bytes)
  | record
      (type : UInt8)
      (count size : Nat)
      (reason : String)
  | text (message : String)
deriving DecidableEq, Repr

namespace Error

/- An error outside any token. -/
def ofCause
    (cause : Cause) : Error :=
  ⟨cause, #[]⟩

/- An error in a token of which some bytes have been read. -/
def inToken
    (cause : Cause)
    (text : Bytes) : Error :=
  match cause.account with
  | some _ => ⟨cause, #[]⟩
  | none => ⟨cause, text.leading tokenDetailLength⟩

/- The error of the language. -/
def kind
    (e : Error) : ErrorKind :=
  e.cause.kind

/-
  The detail is the account of the cause, or else the bytes
  of the token. Sizes past 32 bits show as the greatest 32-bit
  number.
-/
def detail
    (e : Error) : Option Detail :=
  match e.cause with
  | .record fault type count size =>
      some (.record type count (min size 0xffffffff)
        fault.text)
  | cause =>
      match cause.account with
      | some message => some (.text message)
      | none =>
          if e.token.isEmpty then
            none
          else
            some (.token e.token)

/- The text of a report. -/
def message
    (e : Error) : String :=
  e.kind.text ++
    match e.detail with
    | none => ""
    | some (.token bytes) =>
        " in --" ++ Utf8.lossyText bytes ++ "--"
    | some (.record type count size reason) =>
        " in binary object (type " ++ type.toNat.repr ++
          ", count " ++ count.repr ++
          ", size " ++ size.repr ++ "): " ++ reason
    | some (.text message) => ": " ++ message

end Error

end PostScript
