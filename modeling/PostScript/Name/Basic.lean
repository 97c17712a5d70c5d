import PostScript.Utf8

/-
  This file defines names and the cells that dictionaries
  bind them to.

  Key definitions include:
    * `SlotId`
    * `Name`
    * `Name.is`
    * `Name.debugText`
-/

namespace PostScript

/- The identity of a cell that a dictionary binds a key to. -/
structure SlotId where
  index : Nat
deriving DecidableEq, Hashable, Repr

/-
  A name. Names of one table are the same name if and only if
  they have the same number.
-/
structure Name where
  id : Nat
  bytes : Bytes
  systemIndex : Option Nat
deriving DecidableEq, Repr

namespace Name

/- Whether two handles belong to the same name. -/
def is
    (a b : Name) : Bool :=
  a.id == b.id

/- The name as text behind a slash. -/
def debugText
    (n : Name) : String :=
  "/" ++ Utf8.lossyText n.bytes

end Name

/- The longest name in program text. -/
def maxNameLength : Nat :=
  127

/- The longest name in a binary object sequence. -/
def maxLongNameLength : Nat :=
  0x7fff

end PostScript
