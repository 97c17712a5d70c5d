/-
  This file defines sources of bytes with one byte of push
  back, and the count of lines that they keep.

  Key definitions include:
    * `LineCount`
    * `LineCount.advance`
    * `LineCount.retreat`
    * `Fetch`
    * `ByteSource`
-/

namespace PostScript

------------------------------------------------------------
-- Lines
------------------------------------------------------------

/-
  The count of lines. It is negative right after a carriage
  return, so that a line feed there is not counted again. The
  count before the last byte is kept for push back.
-/
structure LineCount where
  raw : Int
  before : Int
deriving DecidableEq, Repr

namespace LineCount

/- Start to count at a line. -/
def startingAt
    (line : Int) : LineCount :=
  ⟨line, line⟩

/- The number of the line. -/
def line
    (l : LineCount) : Int :=
  l.raw.natAbs

/- The count after one more byte. -/
def after
    (raw : Int)
    (b : UInt8) : Int :=
  if b == 0x0d then
    -(raw.natAbs + 1)
  else if b == 0x0a then
    if raw < 0 then -raw else raw + 1
  else
    raw.natAbs

/- Count one byte. -/
def advance
    (l : LineCount)
    (b : UInt8) : LineCount :=
  ⟨after l.raw b, l.raw⟩

/- Take back the last byte. -/
def retreat
    (l : LineCount) : LineCount :=
  ⟨l.before, l.before⟩

end LineCount

------------------------------------------------------------
-- Sources
------------------------------------------------------------

/- What a source answers when it is asked for a byte. -/
inductive Fetch where
  | byte (b : UInt8)
  | atEnd
  | failed (message : String)
deriving DecidableEq, Repr

/-
  A source of bytes. `remaining` bounds the bytes that are
  left: it falls with every byte, and push back of the last
  byte restores at most what it was.
-/
class ByteSource (σ : Type) where
  next : σ → Fetch × σ
  pushBack : UInt8 → σ → σ
  line : σ → Int
  remaining : σ → Nat
  remaining_byte :
    ∀ {s s' : σ} {b : UInt8},
      next s = (.byte b, s') → remaining s' < remaining s
  remaining_next :
    ∀ s : σ, remaining (next s).2 ≤ remaining s
  remaining_pushBack :
    ∀ {s s' : σ} {b : UInt8},
      next s = (.byte b, s') →
        remaining (pushBack b s') ≤ remaining s

end PostScript
