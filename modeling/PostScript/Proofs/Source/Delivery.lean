import PostScript.Proofs.Source.Lines

/-
  This file follows a device and a text in memory side by
  side. The device delivers the text up to some position in
  blocks, and then it ends or fails. As long as nothing is
  asked for behind that position, both answer alike.

  Key definitions include:
    * `Delivers`
    * `Stream.Orderly`
    * `Watched`
    * `InStep`

  Main results:
    * `Stream.next_of_orderly`
    * `inStep_ofDeliveries`
    * `InStep.next`
    * `InStep.trail`
    * `tracks_watched`
-/

namespace PostScript

open ByteSource

------------------------------------------------------------
-- Devices
------------------------------------------------------------

/- The answers of a device are blocks that make up a text. -/
structure Delivers
    (ds : List Delivery)
    (text : List UInt8) : Prop where
  whole : ∀ m, Delivery.failure m ∉ ds
  bytes : ds.flatMap Delivery.bytes = text

/- A device that fails each time, with a message of its own. -/
def failures
    (messages : List String) : List Delivery :=
  messages.map .failure

/- Failures bring no bytes. -/
theorem bytes_failures
    (messages : List String) :
    (failures messages).flatMap Delivery.bytes = [] := by
  rw [List.flatMap_eq_nil_iff]
  intro d hd
  rcases List.mem_map.mp hd with ⟨m, -, rfl⟩
  rfl

namespace Stream

/-
  All blocks come before the failures, of which there are none
  if the device ends.
-/
def Orderly
    (s : Stream) : Prop :=
  ∃ ds messages,
    s.deliveries = ds ++ failures messages ∧
      (∀ m, Delivery.failure m ∉ ds) ∧
        (s.outage = none → messages = [])

/-
  Such a device gives the bytes that are pending, and when
  these are out it ends or fails.
-/
theorem next_of_orderly
    {s : Stream}
    (h : s.Orderly) :
    (s.pending = [] ∧ s.outage = none ∧
        s.next = (.atEnd, s)) ∨
      (s.pending = [] ∧ s.outage ≠ none ∧
        ∃ m s', s.next = (.failed m, s')) ∨
      ∃ b s', s.next = (.byte b, s') ∧ s'.Orderly ∧
        s'.outage = s.outage ∧ s'.pushed = none ∧
          s'.lines = s.lines.advance b ∧
            s.pending = b :: s'.pending := by
  rcases s with ⟨buffer, all, outage, pushed, lines⟩
  rcases h with ⟨ds, messages, hAll, hWhole, hEnds⟩
  dsimp only at hAll hEnds
  subst hAll
  have hOrderly : ∀ buffer pushed lines,
      (⟨buffer, ds ++ failures messages, outage, pushed,
        lines⟩ : Stream).Orderly :=
    fun _ _ _ => ⟨ds, messages, rfl, hWhole, hEnds⟩
  cases pushed with
  | some b =>
      exact .inr (.inr ⟨b, _, rfl, hOrderly _ _ _, rfl, rfl,
        rfl, by simp [pending]⟩)
  | none =>
      cases buffer with
      | cons b buffer =>
          exact .inr (.inr ⟨b, _, rfl, hOrderly _ _ _, rfl,
            rfl, rfl, by simp [pending]⟩)
      | nil =>
          cases ds with
          | cons d ds =>
              cases d with
              | failure m =>
                  exact absurd List.mem_cons_self (hWhole m)
              | block b more =>
                  refine .inr (.inr ⟨b, _, rfl,
                    ⟨ds, messages, rfl, ?_, hEnds⟩, rfl, rfl,
                    rfl, by simp [pending, Delivery.bytes]⟩)
                  exact fun m hm =>
                    hWhole m (List.mem_cons_of_mem _ hm)
          | nil =>
              have hNone :
                  (⟨[], [] ++ failures messages, outage, none,
                    lines⟩ : Stream).pending = [] :=
                bytes_failures messages
              cases messages with
              | cons m messages =>
                  exact .inr (.inl ⟨hNone,
                    fun hNot => List.cons_ne_nil _ _ (hEnds hNot),
                    m, _, rfl⟩)
              | nil =>
                  cases outage with
                  | none => exact .inl ⟨hNone, rfl, rfl⟩
                  | some m =>
                      exact .inr (.inl ⟨hNone,
                        Option.some_ne_none m, m, _, rfl⟩)

/- Pushing back does not change what the device does. -/
theorem Orderly.pushBack
    {s : Stream}
    (h : s.Orderly)
    (b : UInt8) :
    (s.pushBack b).Orderly :=
  h

end Stream

------------------------------------------------------------
-- Positions
------------------------------------------------------------

/-
  A reader that notes every position at which it is asked for
  a byte, or for the end. The last one comes first.
-/
structure Watched where
  reader : Reader
  asked : List Nat
deriving DecidableEq, Repr

instance : ByteSource Watched where
  next w :=
    ((next w.reader).1,
      ⟨(next w.reader).2, w.reader.offset :: w.asked⟩)
  pushBack b w := ⟨pushBack b w.reader, w.asked⟩
  line w := line w.reader
  remaining w := remaining w.reader
  remaining_byte := by
    rintro s s' b h
    simp only [Prod.mk.injEq] at h
    rw [← h.2]
    exact remaining_byte (Prod.ext h.1 rfl)
  remaining_next w := remaining_next w.reader
  remaining_pushBack := by
    rintro s s' b h
    simp only [Prod.mk.injEq] at h
    rw [← h.2]
    exact remaining_pushBack (Prod.ext h.1 rfl)

namespace Watched

variable {w w' u : Watched}
variable {es : List Exchange}

/- The position is noted, and the reader goes on. -/
theorem next_cases
    {answer : Fetch}
    (h : next w = (answer, w')) :
    next w.reader = (answer, w'.reader) ∧
      w'.asked = w.reader.offset :: w.asked := by
  cases h
  exact ⟨rfl, rfl⟩

/- No position that was asked for is behind the reader. -/
theorem asked_le
    (h : Trail w es u)
    (hBehind : ∀ p ∈ w.asked, p ≤ w.reader.offset) :
    ∀ p ∈ u.asked, p ≤ u.reader.offset := by
  refine h.keeps
    (P := fun w => ∀ p ∈ w.asked, p ≤ w.reader.offset)
    ?_ ?_ hBehind
  · intro w hAll
    refine List.forall_mem_cons.mpr
      ⟨Reader.offset_next w.reader, ?_⟩
    intro p hMem
    exact Nat.le_trans (hAll p hMem)
      (Reader.offset_next w.reader)
  · intro w w' b hAll hNext
    rcases next_cases hNext with ⟨hReader, hNoted⟩
    change ∀ p ∈ w'.asked,
      p ≤ (pushBack b w'.reader).offset
    rw [hNoted, Reader.pushBack_of_next hReader]
    exact List.forall_mem_cons.mpr ⟨Nat.le_refl _, hAll⟩

/- Positions that are noted stay noted. -/
theorem asked_of_trail
    (h : Trail w es u)
    {p : Nat}
    (hAsked : p ∈ w.asked) :
    p ∈ u.asked := by
  refine h.keeps (P := fun w => p ∈ w.asked) ?_ ?_ hAsked
  · exact fun hMem => List.mem_cons_of_mem _ hMem
  · intro w w' b hMem hNext
    change p ∈ w'.asked
    rw [(next_cases hNext).2]
    exact List.mem_cons_of_mem _ hMem

/- So is the position that is asked for first. -/
theorem offset_asked
    {m : Watched}
    {answer : Fetch}
    (hNext : next w = (answer, w'))
    (hNoted : m.asked = w'.asked)
    (hRest : Trail m es u) :
    w.reader.offset ∈ u.asked := by
  refine asked_of_trail hRest ?_
  rw [hNoted, (next_cases hNext).2]
  exact List.mem_cons_self

end Watched

------------------------------------------------------------
-- Side by Side
------------------------------------------------------------

/-
  The device is still to give the bytes that memory holds up
  to position `n`. If it then ends, memory holds no others.
-/
structure InStep
    (n : Nat)
    (s : Stream)
    (r : Reader) : Prop where
  orderly : s.Orderly
  lines : s.lines = r.lines
  position : r.offset + s.pending.length = n
  rest :
    ∃ tail, r.rest = s.pending ++ tail ∧
      (s.outage = none → tail = [])

/- A device that has not been read starts in step. -/
theorem inStep_ofDeliveries
    {data : List UInt8}
    {ds : List Delivery}
    {n : Nat}
    {messages : List String}
    {outage : Option String}
    (hn : n ≤ data.length)
    (hDelivers : Delivers ds (data.take n))
    (hEnds :
      outage = none → messages = [] ∧ n = data.length) :
    InStep n
      (.ofDeliveries (ds ++ failures messages) outage)
      (.ofList data) := by
  have hPending :
      (Stream.ofDeliveries (ds ++ failures messages)
        outage).pending = data.take n := by
    change [] ++ [] ++ (ds ++ failures messages).flatMap _ = _
    rw [List.flatMap_append, bytes_failures, hDelivers.bytes]
    simp
  refine ⟨⟨ds, messages, rfl, hDelivers.whole, ?_⟩, rfl, ?_,
    data.drop n, ?_, ?_⟩
  · exact fun hNone => (hEnds hNone).1
  · change 0 + _ = n
    rw [hPending, List.length_take]
    omega
  · rw [hPending, List.take_append_drop]
    rfl
  · intro hNone
    rw [(hEnds hNone).2, List.drop_length]

namespace InStep

variable {n : Nat}
variable {s : Stream}
variable {r : Reader}

/-
  Both answer alike and stay in step, also if a byte is pushed
  back, unless the device fails at the position.
-/
theorem next
    (h : InStep n s r) :
    ((s.outage = none ∨ r.offset < n) ∧
        ∃ s', ByteSource.next s =
            ((ByteSource.next r).1, s') ∧
          s'.outage = s.outage ∧
            InStep n s' (ByteSource.next r).2 ∧
              ∀ b, (ByteSource.next r).1 = .byte b →
                InStep n (pushBack b s')
                  (pushBack b (ByteSource.next r).2)) ∨
      (s.outage ≠ none ∧ n ≤ r.offset ∧
        ∃ m s', ByteSource.next s = (.failed m, s')) := by
  rcases r with ⟨rest, offset, lines⟩
  rcases h with ⟨hOrderly, hLines, hAt, tail, hRest, hTail⟩
  dsimp only at hLines hAt hRest
  subst hRest hLines
  rcases Stream.next_of_orderly hOrderly with
    ⟨hNone, hEnds, hNext⟩ | ⟨hNone, hFails, m, s', hNext⟩ |
      ⟨b, s', hNext, hOrderly', hOutage, hFree, hLine, hMore⟩
  · cases hTail hEnds
    rw [hNone]
    refine .inl ⟨.inl hEnds, s, hNext, rfl, ?_, nofun⟩
    exact ⟨hOrderly, rfl, hAt, [], by rw [hNone]; rfl,
      fun _ => rfl⟩
  · refine .inr ⟨hFails, ?_, m, s', hNext⟩
    rw [hNone] at hAt
    exact Nat.le_of_eq hAt.symm
  · rw [hMore, List.length_cons] at hAt
    rw [hMore]
    refine .inl ⟨.inr (by dsimp only; omega), s', hNext,
      hOutage, ?_, ?_⟩
    · refine ⟨hOrderly', hLine, ?_, tail, rfl, ?_⟩
      · change offset + 1 + s'.pending.length = n
        omega
      · rw [hOutage]
        exact hTail
    · rintro b' hByte
      cases hByte
      refine ⟨hOrderly'.pushBack b, ?_, ?_, tail, ?_, ?_⟩
      · exact congrArg LineCount.retreat hLine
      · change offset + 1 - 1 + (s'.pushBack b).pending.length
          = n
        rw [Stream.pending_pushBack b hFree, List.length_cons]
        omega
      · change b :: (s'.pending ++ tail) =
          (s'.pushBack b).pending ++ tail
        rw [Stream.pending_pushBack b hFree]
        rfl
      · change s'.outage = none → tail = []
        rw [hOutage]
        exact hTail

/- Before the position there is no failure. -/
theorem next_before
    (h : InStep n s r)
    (hBefore : s.outage = none ∨ r.offset < n) :
    ∃ s', ByteSource.next s = ((ByteSource.next r).1, s') ∧
      s'.outage = s.outage ∧
        InStep n s' (ByteSource.next r).2 ∧
          ∀ b, (ByteSource.next r).1 = .byte b →
            InStep n (pushBack b s')
              (pushBack b (ByteSource.next r).2) := by
  rcases h.next with ⟨-, hOn⟩ | ⟨hFails, hBehind, -⟩
  · exact hOn
  · rcases hBefore with hNone | hLess
    · exact absurd hNone hFails
    · exact absurd hLess (Nat.not_lt.mpr hBehind)

/-
  What memory is asked for before the position, the device may
  be asked for as well. By induction on the trail.
-/
theorem trail
    {w u : Watched}
    {es : List Exchange}
    (h : InStep n s w.reader)
    (hTrail : Trail w es u)
    (hBefore : s.outage = none ∨ ∀ p ∈ u.asked, p < n) :
    ∃ t, Trail s es t ∧ t.outage = s.outage ∧
      InStep n t u.reader := by
  induction hTrail generalizing s with
  | nil w => exact ⟨s, .nil s, rfl, h⟩
  | @kept w w' u answer es hNext hRest ih =>
      have hReader := (Watched.next_cases hNext).1
      have hAsked := Watched.offset_asked hNext rfl hRest
      rcases h.next_before
          (hBefore.imp id (fun hAll => hAll _ hAsked)) with
        ⟨s', hAnswer, hOutage, hOn, -⟩
      rw [hReader] at hAnswer hOn
      rw [← hOutage] at hBefore
      rcases ih hOn hBefore with ⟨t, hMore, hSame, hEnd⟩
      exact ⟨t, .kept hAnswer hMore, hSame.trans hOutage,
        hEnd⟩
  | @returned w w' u b es hNext hRest ih =>
      have hReader := (Watched.next_cases hNext).1
      have hAsked :=
        Watched.offset_asked (m := pushBack b w') hNext rfl
          hRest
      rcases h.next_before
          (hBefore.imp id (fun hAll => hAll _ hAsked)) with
        ⟨s', hAnswer, hOutage, -, hBack⟩
      rw [hReader] at hAnswer hBack
      rw [← hOutage] at hBefore
      rcases ih (hBack b rfl) hBefore with
        ⟨t, hMore, hSame, hEnd⟩
      exact ⟨t, .returned hAnswer hMore, hSame.trans hOutage,
        hEnd⟩

end InStep

/-
  In step with a device that fails at the position, which has
  not been asked for.
-/
structure InStepBefore
    (n : Nat)
    (s : Stream)
    (w : Watched) : Prop where
  step : InStep n s w.reader
  fails : s.outage ≠ none
  asked : ∀ p ∈ w.asked, p < n

/- This goes on until the device fails by itself. -/
theorem tracks_watched
    (n : Nat) :
    Tracks (InStepBefore n) (fun _ _ => False)
      (fun cause => ∃ m, cause = .source m) where
  next := by
    rintro s w ⟨hStep, hFails, hAsked⟩
    rcases hStep.next with
      ⟨hBefore, s', hNext, hOutage, hOn, hBack⟩ |
        ⟨-, -, m, s', hNext⟩
    · have hLess : w.reader.offset < n :=
        hBefore.resolve_left hFails
      have hAsked' : ∀ p ∈ w.reader.offset :: w.asked, p < n :=
        List.forall_mem_cons.mpr ⟨hLess, hAsked⟩
      rw [← hOutage] at hFails
      rw [hNext]
      change Answers _ _ _ (_, s')
        ((ByteSource.next w.reader).1,
          (⟨(ByteSource.next w.reader).2, _⟩ : Watched))
      cases hAnswer : (ByteSource.next w.reader).1 with
      | byte b =>
          exact .byte b ⟨hOn, hFails, hAsked'⟩
            ⟨hBack b hAnswer, hFails, hAsked'⟩
      | atEnd =>
          exact .atEnd nofun ⟨hOn, hFails, hAsked'⟩
      | failed m =>
          exact .failed m ⟨hOn, hFails, hAsked'⟩
    · rw [hNext]
      exact .gap ⟨m, rfl⟩ _ _
  past := nofun

end PostScript
