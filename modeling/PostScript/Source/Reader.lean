import PostScript.Source.Basic

/-
  This file defines the source over bytes in memory.

  Key definitions include:
    * `Reader`
    * `Reader.ofList`
    * `Reader.startingAt`
    * `Reader.atEnd`
-/

namespace PostScript

/- The bytes not yet read, and how many have been read. -/
structure Reader where
  rest : List UInt8
  offset : Nat
  lines : LineCount
deriving DecidableEq, Repr

namespace Reader

/- Read bytes from an offset on, counting from a line. -/
def startingAt
    (bytes : List UInt8)
    (offset : Nat)
    (line : Int) : Reader :=
  ⟨bytes.drop offset, offset, .startingAt line⟩

/- Read bytes from the first on. -/
def ofList
    (bytes : List UInt8) : Reader :=
  startingAt bytes 0 1

/- Whether all bytes have been read. -/
def atEnd
    (r : Reader) : Bool :=
  r.rest.isEmpty

/- Read one byte. -/
def next
    (r : Reader) : Fetch × Reader :=
  match r with
  | ⟨[], offset, lines⟩ => (.atEnd, ⟨[], offset, lines⟩)
  | ⟨b :: rest, offset, lines⟩ =>
      (.byte b, ⟨rest, offset + 1, lines.advance b⟩)

/- Take back the last byte. -/
def pushBack
    (b : UInt8)
    (r : Reader) : Reader :=
  ⟨b :: r.rest, r.offset - 1, r.lines.retreat⟩

instance : ByteSource Reader where
  next := next
  pushBack := pushBack
  line r := r.lines.raw
  remaining r := r.rest.length
  remaining_byte := by
    rintro ⟨_ | ⟨a, rest⟩, offset, lines⟩ s' b h
    · simp [next] at h
    · simp only [next, Prod.mk.injEq] at h
      rw [← h.2]
      simp
  remaining_next := by
    rintro ⟨_ | ⟨a, rest⟩, offset, lines⟩ <;>
      simp [next]
  remaining_pushBack := by
    rintro ⟨_ | ⟨a, rest⟩, offset, lines⟩ s' b h
    · simp [next] at h
    · simp only [next, Prod.mk.injEq] at h
      rw [← h.2]
      simp [pushBack]

end Reader

end PostScript
