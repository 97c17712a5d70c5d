import PostScript.NumberArray
import PostScript.Sequence.Reading
import PostScript.Source.Reader
import PostScript.Source.Scanned

/-
  This file defines binary tokens, which begin with a byte
  from 128 to 159. A token is first read from its source and
  then turned into an object.

  Key definitions include:
    * `BinaryToken`
    * `BinaryToken.read`
    * `BinaryToken.object`
    * `BinaryToken.decode`
-/

namespace PostScript

------------------------------------------------------------
-- Tokens
------------------------------------------------------------

/- What a binary token holds. -/
inductive BinaryToken where
  | sequence (header : Header) (payload : Bytes)
  | integer (v : Int32)
  | number (format : NumberFormat) (bytes : Bytes)
  | real (bits : UInt32)
  | boolean (v : UInt8)
  | string (bytes : Bytes)
  | systemName (index : Nat) (executable : Bool)
  | userName (index : Nat)
  | numbers (format : NumberFormat) (bytes : Bytes)
deriving DecidableEq, Repr

namespace BinaryToken

/- The bytes that binary tokens begin with. -/
def isLead
    (b : UInt8) : Bool :=
  128 ≤ b && b ≤ 159

------------------------------------------------------------
-- Reading
------------------------------------------------------------

section Reading

variable {σ α β : Type}
variable [ByteSource σ]

open ByteSource

/- Go on with what has been read, unless that failed. -/
def andThen
    (x : Except Cause α × σ)
    (f : α → σ → Except Cause β × σ) :
    Except Cause β × σ :=
  match x with
  | (.ok v, s) => f v s
  | (.error cause, s) => (.error cause, s)

/- Going on leaves no more bytes if neither part does. -/
theorem remaining_andThen
    {x : Except Cause α × σ}
    {f : α → σ → Except Cause β × σ}
    {n : Nat}
    (hx : remaining x.2 ≤ n)
    (hf : ∀ v s, remaining (f v s).2 ≤ remaining s) :
    remaining (andThen x f).2 ≤ n := by
  unfold andThen
  split
  · exact Nat.le_trans (hf _ _) hx
  · exact hx

/- Read `n` bytes and turn them into a token. -/
def fixed
    (n : Nat)
    (f : List UInt8 → BinaryToken)
    (src : σ) : Except Cause BinaryToken × σ :=
  andThen (takeBytes n src)
    (fun bytes s => (.ok (f bytes.toList), s))

/- Read one byte and turn it into a token. -/
def single
    (f : UInt8 → BinaryToken)
    (src : σ) : Except Cause BinaryToken × σ :=
  andThen (demand src) (fun b s => (.ok (f b), s))

/- Read a length of `n` bytes and a string of that length. -/
def stringOf
    (order : ByteOrder)
    (n : Nat)
    (src : σ) : Except Cause BinaryToken × σ :=
  andThen (takeBytes n src) (fun length s =>
    andThen (takeBytes (order.value length.toList) s)
      (fun bytes s => (.ok (.string bytes), s)))

/- Read the byte that tells how numbers are written. -/
def format
    (src : σ) : Except Cause NumberFormat × σ :=
  andThen (demand src) (fun b s =>
    match NumberFormat.ofByte? b with
    | some f => (.ok f, s)
    | none => (.error .badRepresentation, s))

/- Read one number behind its format. -/
def numberOf
    (src : σ) : Except Cause BinaryToken × σ :=
  andThen (format src) (fun f s =>
    andThen (takeBytes f.size s) (fun bytes s =>
      (.ok (.number f bytes), s)))

/- Read the numbers of an array of `length` bytes. -/
def numbersOf
    (f : NumberFormat)
    (length : Nat)
    (src : σ) : Except Cause BinaryToken × σ :=
  if length % f.size ≠ 0 then
    (.error .ragged, src)
  else
    andThen (takeBytes length src)
      (fun bytes s => (.ok (.numbers f bytes), s))

/-
  Read a number array whose size is written in `n` bytes and
  counts units of `unit f` bytes.
-/
def numberArray
    (n : Nat)
    (unit : NumberFormat → Nat)
    (src : σ) : Except Cause BinaryToken × σ :=
  andThen (format src) (fun f s =>
    andThen (takeBytes n s) (fun size s =>
      numbersOf f (f.order.value size.toList * unit f) s))

/- Read a binary object sequence behind its token. -/
def sequenceOf
    (token : UInt8)
    (src : σ) : Except Cause BinaryToken × σ :=
  andThen (demand src) (fun count s =>
    andThen (takeBytes (if count = 0 then 6 else 2) s)
      (fun more s =>
        match Header.parse (#[token, count] ++ more) with
        | .error cause => (.error cause, s)
        | .ok h =>
            andThen (takeBytes h.payloadSize s)
              (fun payload s =>
                (.ok (.sequence h payload), s))))

/- Read the rest of the token that begins with a byte. -/
def read
    (token : UInt8)
    (src : σ) : Except Cause BinaryToken × σ :=
  match token with
  | 128 | 129 | 130 | 131 => sequenceOf token src
  | 132 =>
      fixed 4 (fun bs =>
        .integer (ByteOrder.big.word32 bs).toInt32) src
  | 133 =>
      fixed 4 (fun bs =>
        .integer (ByteOrder.little.word32 bs).toInt32) src
  | 134 =>
      fixed 2 (fun bs =>
        .integer
          (ByteOrder.big.word16 bs).toInt16.toInt32) src
  | 135 =>
      fixed 2 (fun bs =>
        .integer
          (ByteOrder.little.word16 bs).toInt16.toInt32) src
  | 136 => single (fun b => .integer b.toInt8.toInt32) src
  | 137 => numberOf src
  | 138 =>
      fixed 4 (fun bs => .real (ByteOrder.big.word32 bs)) src
  | 139 | 140 =>
      fixed 4 (fun bs =>
        .real (ByteOrder.little.word32 bs)) src
  | 141 => single .boolean src
  | 142 => stringOf .big 1 src
  | 143 => stringOf .big 2 src
  | 144 => stringOf .little 2 src
  | 145 => single (fun b => .systemName b.toNat false) src
  | 146 => single (fun b => .systemName b.toNat true) src
  | 147 | 148 => single (fun b => .userName b.toNat) src
  | 149 => numberArray 2 NumberFormat.size src
  | 150 => numberArray 4 (fun _ => 1) src
  | _ => (.error .malformed, src)

/- A format byte leaves no more bytes than there were. -/
theorem remaining_format
    (src : σ) :
    remaining (format src).2 ≤ remaining src := by
  refine remaining_andThen (remaining_demand src) ?_
  intro b s
  split <;> exact Nat.le_refl _

/- A string leaves no more bytes than there were. -/
theorem remaining_stringOf
    (order : ByteOrder)
    (n : Nat)
    (src : σ) :
    remaining (stringOf order n src).2 ≤ remaining src := by
  refine remaining_andThen (remaining_takeBytes n src) ?_
  intro length s
  refine remaining_andThen (remaining_takeBytes _ s) ?_
  exact fun _ _ => Nat.le_refl _

/- A number array leaves no more bytes than there were. -/
theorem remaining_numberArray
    (n : Nat)
    (unit : NumberFormat → Nat)
    (src : σ) :
    remaining (numberArray n unit src).2 ≤
      remaining src := by
  refine remaining_andThen (remaining_format src) ?_
  intro f s
  refine remaining_andThen (remaining_takeBytes n s) ?_
  intro size s
  unfold numbersOf
  split
  · exact Nat.le_refl _
  · refine remaining_andThen (remaining_takeBytes _ s) ?_
    exact fun _ _ => Nat.le_refl _

/- A sequence leaves no more bytes than there were. -/
theorem remaining_sequenceOf
    (token : UInt8)
    (src : σ) :
    remaining (sequenceOf token src).2 ≤
      remaining src := by
  refine remaining_andThen (remaining_demand src) ?_
  intro count s
  refine remaining_andThen (remaining_takeBytes _ s) ?_
  intro more s
  split
  · exact Nat.le_refl _
  · refine remaining_andThen (remaining_takeBytes _ s) ?_
    exact fun _ _ => Nat.le_refl _

/- A number leaves no more bytes than there were. -/
theorem remaining_numberOf
    (src : σ) :
    remaining (numberOf src).2 ≤ remaining src := by
  refine remaining_andThen (remaining_format src) ?_
  intro f s
  refine remaining_andThen (remaining_takeBytes _ s) ?_
  exact fun _ _ => Nat.le_refl _

/- Counted bytes leave no more bytes than there were. -/
theorem remaining_fixed
    (n : Nat)
    (f : List UInt8 → BinaryToken)
    (src : σ) :
    remaining (fixed n f src).2 ≤ remaining src := by
  refine remaining_andThen (remaining_takeBytes n src) ?_
  exact fun _ _ => Nat.le_refl _

/- A single byte leaves no more bytes than there were. -/
theorem remaining_single
    (f : UInt8 → BinaryToken)
    (src : σ) :
    remaining (single f src).2 ≤ remaining src := by
  refine remaining_andThen (remaining_demand src) ?_
  exact fun _ _ => Nat.le_refl _

/- A token leaves no more bytes than there were. -/
theorem remaining_read
    (token : UInt8)
    (src : σ) :
    remaining (read token src).2 ≤ remaining src := by
  unfold read
  split <;>
    grind [remaining_fixed, remaining_single,
      remaining_stringOf, remaining_numberOf,
      remaining_numberArray, remaining_sequenceOf]

end Reading

------------------------------------------------------------
-- Objects
------------------------------------------------------------

section Objects

variable {ε : Type}
variable [Environment ε]

/- The result of a step that needs no names. -/
def given
    (x : Except Cause Object) :
    EStateM Cause NameTable Object :=
  match x with
  | .ok o => pure o
  | .error cause => throw cause

/- An array of numbers as an object. -/
def numbersObject
    (env : ε)
    (f : NumberFormat)
    (bytes : Bytes) : Except Cause Object :=
  match NumberArray.decode f bytes with
  | .ok ns => makeArray env false (ns.map Object.ofNumber)
  | .error cause => .error cause

/- The system name with a number. -/
def systemNameObject
    (index : Nat)
    (executable : Bool) :
    EStateM Cause NameTable Object := do
  let names ← get
  match names.systemName? index with
  | some name => pure (Object.name name executable)
  | none => throw (.noSystemName index)

/- The object of a token. -/
def object
    (env : ε) :
    BinaryToken → EStateM Cause NameTable Object
  | sequence h payload => Sequence.readPayload env h payload
  | integer v => pure (Object.integer v)
  | number f bytes =>
      given ((f.read bytes.toList).map Object.ofNumber)
  | real bits =>
      given ((NumberFormat.finiteNumber bits).map
        Object.ofNumber)
  | boolean v =>
      if v = 0 then
        pure (Object.boolean false)
      else if v = 1 then
        pure (Object.boolean true)
      else
        throw .badBoolean
  | string bytes =>
      pure (Object.string bytes (Environment.newAttrs env))
  | systemName index executable =>
      systemNameObject index executable
  | userName index => throw (.noUserName index)
  | numbers f bytes => given (numbersObject env f bytes)

/-
  Read the token that data starts with, and tell how many
  bytes it takes.
-/
def decode
    (env : ε)
    (data : Bytes) : EStateM Cause NameTable (Object × Nat) :=
  do
  match Reader.next (Reader.ofList data.toList) with
  | (.byte token, r) =>
      if !isLead token then
        throw .malformed
      else
        match read token r with
        | (.error cause, _) => throw cause
        | (.ok t, r) =>
            let o ← t.object env
            pure (o, r.offset)
  | _ => throw .malformed

end Objects

end BinaryToken

end PostScript
