import PostScript.Source.Basic

/-
  This file defines the source over a device that is read in
  blocks and may fail.

  Key definitions include:
    * `Delivery`
    * `Stream`
    * `Stream.ofDeliveries`
    * `Stream.blocks`
-/

namespace PostScript

/- One answer of the device: a non-empty block or a failure. -/
inductive Delivery where
  | block (first : UInt8) (more : List UInt8)
  | failure (message : String)
deriving DecidableEq, Repr

namespace Delivery

/- The number of bytes of an answer. -/
def size : Delivery → Nat
  | block _ more => more.length + 1
  | failure _ => 0

end Delivery

/-
  The block being read, the answers that the device is still
  to give, and how it fails after these, if it does not end.
-/
structure Stream where
  buffer : List UInt8
  deliveries : List Delivery
  outage : Option String
  pushed : Option UInt8
  lines : LineCount
deriving DecidableEq, Repr

namespace Stream

/- A device that has not been read yet. -/
def ofDeliveries
    (deliveries : List Delivery)
    (outage : Option String) : Stream :=
  ⟨[], deliveries, outage, none, .startingAt 1⟩

/- Cut bytes into blocks of at most `n + 1` bytes. -/
def blocks
    (n : Nat) : List UInt8 → List Delivery
  | [] => []
  | b :: rest =>
      .block b (rest.take n) :: blocks n (rest.drop n)
termination_by bytes => bytes.length

/- The number of bytes that the device still holds. -/
def held : List Delivery → Nat
  | [] => 0
  | d :: ds => d.size + held ds

/- The number of bytes still to be read. -/
def remaining
    (s : Stream) : Nat :=
  s.buffer.length + held s.deliveries +
    (if s.pushed.isSome then 1 else 0)

/- Count a byte that is handed out. -/
def count
    (b : UInt8)
    (s : Stream) : Fetch × Stream :=
  (.byte b, { s with lines := s.lines.advance b })

/- Read one byte, with the next block if need be. -/
def next
    (s : Stream) : Fetch × Stream :=
  match s with
  | ⟨buffer, ds, outage, some b, lines⟩ =>
      count b ⟨buffer, ds, outage, none, lines⟩
  | ⟨b :: buffer, ds, outage, none, lines⟩ =>
      count b ⟨buffer, ds, outage, none, lines⟩
  | ⟨[], .block b more :: ds, outage, none, lines⟩ =>
      count b ⟨more, ds, outage, none, lines⟩
  | ⟨[], .failure m :: ds, outage, none, lines⟩ =>
      (.failed m, ⟨[], ds, outage, none, lines⟩)
  | ⟨[], [], some m, none, lines⟩ =>
      (.failed m, ⟨[], [], some m, none, lines⟩)
  | ⟨[], [], none, none, lines⟩ =>
      (.atEnd, ⟨[], [], none, none, lines⟩)

/- Take back the last byte. -/
def pushBack
    (b : UInt8)
    (s : Stream) : Stream :=
  { s with pushed := some b, lines := s.lines.retreat }

/- A byte that is read is one byte less to read. -/
theorem remaining_of_next_byte
    {s s' : Stream}
    {b : UInt8}
    (h : s.next = (.byte b, s')) :
    s'.pushed = none ∧ remaining s = remaining s' + 1 := by
  unfold next at h
  split at h <;>
    simp only [count, Prod.mk.injEq, reduceCtorEq,
      false_and] at h
  · rw [← h.2]
    simp [remaining]
  · rw [← h.2]
    simp [remaining]
    omega
  · rw [← h.2]
    simp [remaining, held, Delivery.size]
    omega

instance : ByteSource Stream where
  next := next
  pushBack := pushBack
  line s := s.lines.raw
  remaining := remaining
  remaining_byte := by
    intro s s' b h
    have := (remaining_of_next_byte h).2
    omega
  remaining_next := by
    intro s
    unfold next
    split <;>
      simp [count, remaining, held, Delivery.size]
  remaining_pushBack := by
    intro s s' b h
    obtain ⟨hNone, hSize⟩ := remaining_of_next_byte h
    simp only [remaining, hNone] at hSize
    simp only [remaining, pushBack]
    simp at hSize ⊢
    omega

end Stream

end PostScript
