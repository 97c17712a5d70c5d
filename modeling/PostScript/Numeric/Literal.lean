import PostScript.Error
import PostScript.Numeric.Digits
import PostScript.Numeric.Number

/-
  This file reads number literals: integers, decimal numbers
  with a fraction or an exponent, and integers in a base from
  2 to 36. The bytes are read one by one. What they turn out
  to be is known at the end, and a real is then read from the
  text once more.

  Key definitions include:
    * `Decimal`
    * `Decimal.ofLiteral?`
    * `Decimal.toReal`
    * `LiteralState`
    * `LiteralScan.step`
    * `LiteralScan.run`
    * `LiteralScan.conclude`
    * `Number.ofLiteral`
-/

namespace PostScript

------------------------------------------------------------
-- Decimal Literals
------------------------------------------------------------

/-
  A decimal literal: a sign, the digits before and after the
  point, and a power of ten.
-/
structure Decimal where
  negative : Bool
  digits : List UInt8
  fraction : List UInt8
  exponent : Int
deriving DecidableEq, Repr

/- A sign in front of a literal. -/
inductive Sign where
  | none
  | plus
  | minus
deriving DecidableEq, Repr

namespace Sign

/- Split the sign off a literal. -/
def split : List UInt8 → Sign × List UInt8
  | [] => (none, [])
  | b :: rest =>
      if b == code '+' then
        (plus, rest)
      else if b == code '-' then
        (minus, rest)
      else
        (none, b :: rest)

end Sign

namespace Decimal

/-
  The value of the digits of an exponent. It stops growing
  once it has passed all exponents that a number can have.
-/
def exponentValue
    (digits : List UInt8) : Nat :=
  digits.foldl
    (fun v b =>
      if v < 65536 then
        v * 10 + (b.toNat - '0'.toNat)
      else
        v) 0

/- Read the exponent that ends a literal, if there is one. -/
def exponentOf? : List UInt8 → Option Int
  | [] => some 0
  | b :: rest =>
      if b == code 'e' || b == code 'E' then
        let (sign, digits) := Sign.split rest
        if digits.isEmpty || !digits.all isDigit then
          none
        else if sign = .minus then
          some (-(exponentValue digits : Int))
        else
          some (exponentValue digits)
      else
        none

/- Read what follows the digits before the point. -/
def afterDigits?
    (negative : Bool)
    (digits rest : List UInt8) : Option Decimal :=
  match rest with
  | [] =>
      if digits.isEmpty then
        none
      else
        some ⟨negative, digits, [], 0⟩
  | b :: rest' =>
      if b == code '.' then
        let fraction := rest'.takeWhile isDigit
        if digits.isEmpty && fraction.isEmpty then
          none
        else
          (exponentOf? (rest'.dropWhile isDigit)).map
            (fun e => ⟨negative, digits, fraction, e⟩)
      else if digits.isEmpty then
        none
      else
        (exponentOf? (b :: rest')).map
          (fun e => ⟨negative, digits, [], e⟩)

/-
  Read a decimal literal: a sign, digits, a point and digits,
  and a power of ten, with at least one digit before or after
  the point.
-/
def ofLiteral?
    (token : List UInt8) : Option Decimal :=
  let (sign, rest) := Sign.split token
  afterDigits? (sign = .minus)
    (rest.takeWhile isDigit) (rest.dropWhile isDigit)

/- All the digits as one number. -/
def significand
    (d : Decimal) : Nat :=
  decimalByHalves (d.digits ++ d.fraction)

/- The power of ten that the last digit stands for. -/
def lastPlace
    (d : Decimal) : Int :=
  d.exponent - d.fraction.length

/- The nearest double-precision number. -/
def toDouble
    (d : Decimal) : UInt64 :=
  UInt64.ofNat (Ieee.double.withSign d.negative
    (Ieee.double.nearest
      (d.significand * power 10 d.lastPlace.toNat)
      (power 10 (-d.lastPlace).toNat)))

/-
  The single-precision number nearest to the double-precision
  one.
-/
def toSingle
    (d : Decimal) : UInt32 :=
  UInt32.ofNat (Ieee.single.round
    (Ieee.double.value d.toDouble.toNat))

/-
  The real that a literal stands for. Beyond the range of
  single precision it is one with its sign times infinity.
-/
def toReal
    (d : Decimal) : Real :=
  if Real.isFinite ⟨d.toSingle, 0⟩ then
    ⟨d.toSingle, 0⟩
  else
    ⟨UInt32.ofNat
      (Ieee.single.mul
        (Ieee.single.round
          (Ieee.double.value
            (Ieee.double.signum d.toDouble.toNat)))
        Ieee.single.infinityBits), 0⟩

end Decimal

/- Read the text of a real. -/
def Number.ofDecimal
    (token : List UInt8) : Except Cause (Option Number) :=
  match Decimal.ofLiteral? token with
  | some d => .ok (some (.real d.toReal))
  | none => .error .malformed

------------------------------------------------------------
-- Literals with a Base
------------------------------------------------------------

/-
  Add up digits from the left. The sum is checked after each
  digit, so that a number past 32 bits is noticed before a
  byte that is no digit.
-/
def Number.sumDigits
    (base v : UInt64) :
    List UInt8 → Except Cause (Option UInt64)
  | [] => .ok (some v)
  | b :: rest =>
      match digitOf base.toNat b with
      | none => .ok none
      | some d =>
          let v' := v * base + UInt64.ofNat d
          if 0xffffffff < v' then
            .error .tooLong
          else
            sumDigits base v' rest

/-
  Read digits in a base. Without a base from 2 to 36, or
  without digits, there is no number.
-/
def Number.ofRadix
    (base : Int64)
    (digits : List UInt8) : Except Cause (Option Number) :=
  if base < 2 ∨ 36 < base ∨ digits.isEmpty then
    .ok none
  else
    match sumDigits base.toUInt64 0 digits with
    | .ok (some v) =>
        .ok (some (.integer v.toUInt32.toInt32))
    | .ok none => .ok none
    | .error cause => .error cause

------------------------------------------------------------
-- States
------------------------------------------------------------

/-
  What the bytes of a literal that have been read may be the
  beginning of. A `dot` is a point without digits before it.
-/
inductive LiteralState where
  | start
  | sign
  | integer
  | dot
  | fraction
  | exponent
  | exponentSign
  | exponentDigits
  | radix
deriving DecidableEq, Repr

/-
  How far a literal has been read: its state, its sign, the
  value of the digits in front, which is left alone once it is
  past the range of integers, and where the digits behind a
  base begin.
-/
structure LiteralScan where
  state : LiteralState := .start
  negative : Bool := false
  value : Int64 := 0
  overflow : Bool := false
  radixStart : Nat := 0
deriving DecidableEq, Repr

namespace LiteralScan

/- A byte that is a sign. -/
def isSign
    (b : UInt8) : Bool :=
  b == code '+' || b == code '-'

/- A byte that marks an exponent. -/
def isMark
    (b : UInt8) : Bool :=
  b == code 'e' || b == code 'E'

/- One more digit in front. -/
def countDigit
    (b : UInt8)
    (s : LiteralScan) : LiteralScan :=
  if s.overflow then
    { s with state := .integer }
  else
    let v := s.value * 10 + Int64.ofNat (b - code '0').toNat
    { s with
      state := .integer
      value := v
      overflow := 0x80000000 < v }

/-
  Read the byte at an index, or find that the token is no
  number. A base may not carry a sign.
-/
def step
    (signed : Bool)
    (i : Nat)
    (b : UInt8)
    (s : LiteralScan) : Option LiteralScan :=
  match s.state with
  | .start =>
      if isSign b then
        some { s with
          state := .sign
          negative := b == code '-' }
      else if isDigit b then
        some (s.countDigit b)
      else if b == code '.' then
        some { s with state := .dot }
      else
        none
  | .sign =>
      if isDigit b then
        some (s.countDigit b)
      else if b == code '.' then
        some { s with state := .dot }
      else
        none
  | .integer =>
      if isDigit b then
        some (s.countDigit b)
      else if b == code '.' then
        some { s with state := .fraction }
      else if isMark b then
        some { s with state := .exponent }
      else if b == code '#' && !signed then
        some { s with state := .radix, radixStart := i + 1 }
      else
        none
  | .dot =>
      if isDigit b then
        some { s with state := .fraction }
      else
        none
  | .fraction =>
      if isDigit b then
        some s
      else if isMark b then
        some { s with state := .exponent }
      else
        none
  | .exponent =>
      if isSign b then
        some { s with state := .exponentSign }
      else if isDigit b then
        some { s with state := .exponentDigits }
      else
        none
  | .exponentSign | .exponentDigits =>
      if isDigit b then
        some { s with state := .exponentDigits }
      else
        none
  | .radix => some s

/- Read bytes up to the end or to a base. -/
def run
    (signed : Bool) :
    Nat → LiteralScan → List UInt8 → Option LiteralScan
  | _, s, [] => some s
  | i, s, b :: rest =>
      if s.state = .radix then
        some s
      else
        match step signed i b s with
        | some s' => run signed (i + 1) s' rest
        | none => none

/-
  The number that has been read, or nothing if the token is a
  name. An integer past the range is a real.
-/
def conclude
    (token : List UInt8)
    (s : LiteralScan) : Except Cause (Option Number) :=
  match s.state with
  | .integer =>
      if s.overflow then
        Number.ofDecimal token
      else
        let v := if s.negative then -s.value else s.value
        if -0x80000000 ≤ v ∧ v ≤ 0x7fffffff then
          .ok (some (.integer v.toInt32))
        else
          Number.ofDecimal token
  | .fraction | .exponentDigits => Number.ofDecimal token
  | .radix =>
      if s.overflow then
        .ok none
      else
        Number.ofRadix s.value (token.drop s.radixStart)
  | _ => .ok none

end LiteralScan

/-
  Read a token as a number. A token that is no number is a
  name.
-/
def Number.ofLiteral
    (token : List UInt8) : Except Cause (Option Number) :=
  match LiteralScan.run
      (token.head?.any LiteralScan.isSign) 0 {} token with
  | some s => s.conclude token
  | none => .ok none

end PostScript
