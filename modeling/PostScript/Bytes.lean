/-
  This file defines byte strings, the four classes of bytes
  that program text is made of, and the value of a byte as a
  digit.

  Key definitions include:
    * `Bytes`
    * `Bytes.ofText`
    * `isWhitespace`
    * `isDelimiter`
    * `isRegular`
    * `isEndOfLine`
    * `digitValue`
-/

namespace PostScript

/- A byte string. -/
abbrev Bytes :=
  Array UInt8

/- The code of an ASCII character. -/
def code
    (c : Char) : UInt8 :=
  UInt8.ofNat c.toNat

/- The codes of an ASCII text. -/
def Bytes.ofText
    (s : String) : Bytes :=
  (s.toList.map code).toArray

/- The bytes that another byte string starts with. -/
def Bytes.leading
    (n : Nat)
    (bs : Bytes) : Bytes :=
  bs.extract 0 n

/- Byte strings in the order of a dictionary. -/
def Bytes.precedes
    (a b : Bytes) : Bool :=
  decide (a.toList ≤ b.toList)

------------------------------------------------------------
-- Classes
------------------------------------------------------------

/-
  White space separates tokens: NUL, tab, line feed, form
  feed, carriage return and space.
-/
def isWhitespace
    (b : UInt8) : Bool :=
  b == 0x00 || b == 0x09 || b == 0x0a || b == 0x0c ||
    b == 0x0d || b == 0x20

/- Delimiters end the token before them. -/
def isDelimiter
    (b : UInt8) : Bool :=
  b == code '(' || b == code ')' ||
    b == code '<' || b == code '>' ||
    b == code '[' || b == code ']' ||
    b == 0x7b || b == 0x7d ||
    b == code '/' || b == code '%'

/- All other bytes are regular. -/
def isRegular
    (b : UInt8) : Bool :=
  !isWhitespace b && !isDelimiter b

/- A line ends at a line feed or a carriage return. -/
def isEndOfLine
    (b : UInt8) : Bool :=
  b == 0x0a || b == 0x0d

------------------------------------------------------------
-- Digits
------------------------------------------------------------

/- Whether a byte lies between two characters. -/
def isBetween
    (lo hi : Char)
    (b : UInt8) : Bool :=
  code lo ≤ b && b ≤ code hi

/- Decimal digits. -/
def isDigit
    (b : UInt8) : Bool :=
  isBetween '0' '9' b

/-
  The value of a digit: decimal digits first, then letters
  of either case from ten on.
-/
def digitValue
    (b : UInt8) : Option Nat :=
  if isDigit b then
    some (b.toNat - '0'.toNat)
  else if isBetween 'a' 'z' b then
    some (b.toNat - 'a'.toNat + 10)
  else if isBetween 'A' 'Z' b then
    some (b.toNat - 'A'.toNat + 10)
  else
    none

/- The value of a digit of a given base. -/
def digitOf
    (base : Nat)
    (b : UInt8) : Option Nat :=
  (digitValue b).filter (· < base)

end PostScript
