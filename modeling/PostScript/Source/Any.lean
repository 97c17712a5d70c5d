import PostScript.Source.Reader
import PostScript.Source.Stream

/-
  This file defines the source that reads either from memory
  or from a device.

  Key definitions include:
    * `Source`
    * `Source.offset?`
-/

namespace PostScript

/- A source of either kind. -/
inductive Source where
  | memory (r : Reader)
  | device (s : Stream)
deriving DecidableEq, Repr

namespace Source

/- Read one byte. -/
def next : Source → Fetch × Source
  | memory r =>
      match r.next with
      | (f, r') => (f, memory r')
  | device s =>
      match s.next with
      | (f, s') => (f, device s')

/- Take back the last byte. -/
def pushBack
    (b : UInt8) : Source → Source
  | memory r => memory (r.pushBack b)
  | device s => device (s.pushBack b)

/- The count of lines. -/
def line : Source → Int
  | memory r => ByteSource.line r
  | device s => ByteSource.line s

/- The bytes still to be read. -/
def remaining : Source → Nat
  | memory r => ByteSource.remaining r
  | device s => ByteSource.remaining s

/- How far memory has been read; a device does not tell. -/
def offset? : Source → Option Nat
  | memory r => some r.offset
  | device _ => none

/- Whether memory has been read to its end. -/
def atEnd? : Source → Option Bool
  | memory r => some r.atEnd
  | device _ => none

instance : ByteSource Source where
  next := next
  pushBack := pushBack
  line := line
  remaining := remaining
  remaining_byte := by
    rintro (r | s) s' b h <;>
      simp only [next, Prod.mk.injEq] at h <;>
      obtain ⟨hByte, rfl⟩ := h
    · exact ByteSource.remaining_byte
        (Prod.ext hByte rfl : ByteSource.next r = (_, _))
    · exact ByteSource.remaining_byte
        (Prod.ext hByte rfl : ByteSource.next s = (_, _))
  remaining_next := by
    rintro (r | s)
    · exact ByteSource.remaining_next r
    · exact ByteSource.remaining_next s
  remaining_pushBack := by
    rintro (r | s) s' b h <;>
      simp only [next, Prod.mk.injEq] at h <;>
      obtain ⟨hByte, rfl⟩ := h
    · exact ByteSource.remaining_pushBack
        (Prod.ext hByte rfl : ByteSource.next r = (_, _))
    · exact ByteSource.remaining_pushBack
        (Prod.ext hByte rfl : ByteSource.next s = (_, _))

end Source

end PostScript
