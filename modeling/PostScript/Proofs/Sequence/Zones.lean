import PostScript.Proofs.Name.WellFormed
import PostScript.Proofs.Sequence.Locality

/-
  This file shows that records and text never overlap while a
  payload is read, whatever its bytes are. The end of the
  records never passes the start of the text; all records that
  are asked for end before the one, and all text that is taken
  starts behind the other.

  Key definitions include:
    * `Sequence.Zones`
    * `Sequence.Separate`
    * `Sequence.Traced.Sound`

  Main results:
    * `Sequence.traceObject_goes`
    * `Sequence.traceBlock_goes`
    * `Sequence.zones_separate`
-/

namespace PostScript.Sequence

open Tracing

------------------------------------------------------------
-- Zones
------------------------------------------------------------

/- An event keeps to its side of the two markers. -/
def Event.Within
    (size recordsEnd textStart : Nat) : Event → Prop
  | .record offset => offset + recordSize ≤ recordsEnd
  | .text start length =>
      textStart ≤ start ∧ start + length ≤ size
  | .block start count =>
      start + count * recordSize ≤ recordsEnd

/- The bytes of an event are those of a payload. -/
def Event.IsInside
    (size : Nat) : Event → Prop
  | .record offset => offset + recordSize ≤ size
  | .text start length => start + length ≤ size
  | .block start count => start + count * recordSize ≤ size

/-
  The markers are in order and all events have kept to their
  sides of them.
-/
structure Zones
    (size recordsEnd textStart : Nat)
    (events : List Event) : Prop where
  recordsEnd_le : recordsEnd ≤ textStart
  textStart_le : textStart ≤ size
  within :
    ∀ e ∈ events, e.Within size recordsEnd textStart

/-
  At each moment of a history all events up to then had kept
  to their sides of the markers of that moment.
-/
def Separate
    (size : Nat) : List Moment → Prop
  | [] => True
  | m :: earlier =>
      Zones size m.recordsEnd m.textStart
        (m.event :: earlier.map Moment.event) ∧
      Separate size earlier

/- A state whose history is separate up to its markers. -/
structure Traced.Sound
    (size : Nat)
    (s : Traced) : Prop where
  zones :
    Zones size s.progress.recordsEnd s.progress.textStart
      (s.history.map Moment.event)
  separate : Separate size s.history

/- Events stay within markers that move apart no further. -/
theorem Event.Within.mono
    {size recordsEnd textStart recordsEnd' textStart' : Nat}
    {e : Event}
    (h : e.Within size recordsEnd textStart)
    (hRecords : recordsEnd ≤ recordsEnd')
    (hText : textStart' ≤ textStart) :
    e.Within size recordsEnd' textStart' := by
  cases e with
  | record offset => exact Nat.le_trans h hRecords
  | text start length => exact ⟨Nat.le_trans hText h.1, h.2⟩
  | block start count => exact Nat.le_trans h hRecords

------------------------------------------------------------
-- Markers
------------------------------------------------------------

/-
  Markers that are in order move towards each other, if at
  all, and stay in order.
-/
def Moves
    (size : Nat)
    (st st' : Progress) : Prop :=
  st.recordsEnd ≤ st.textStart →
    st.textStart ≤ size →
      st.recordsEnd ≤ st'.recordsEnd ∧
        st'.textStart ≤ st.textStart ∧
        st'.recordsEnd ≤ st'.textStart

/- Markers may stay where they are. -/
theorem moves_of_same
    {size : Nat}
    {st st' : Progress}
    (hRecords : st'.recordsEnd = st.recordsEnd)
    (hText : st'.textStart = st.textStart) :
    Moves size st st' := by
  intro hOrder _
  rw [hRecords, hText]
  exact ⟨Nat.le_refl _, Nat.le_refl _, hOrder⟩

instance
    {size : Nat} :
    Onward (Moves size) where
  refl _ := moves_of_same rfl rfl
  trans := by
    intro st st' st'' hFirst hNext hOrder hSize
    rcases hFirst hOrder hSize with ⟨hRecords, hText, hOrder'⟩
    rcases hNext hOrder' (Nat.le_trans hText hSize) with
      ⟨hRecords', hText', hOrder''⟩
    exact ⟨Nat.le_trans hRecords hRecords',
      Nat.le_trans hText' hText, hOrder''⟩

/- Any cause but that a record is out of bounds. -/
def InBounds : Cause → Prop
  | .record .recordOutOfBounds _ _ _ => False
  | _ => True

/- What reading that moves no markers comes to. -/
abbrev Quiet
    {α : Type}
    (size : Nat)
    (x : Reading α)
    (st : Progress) : Prop :=
  Goes (Moves size) (fun _ _ => True) x st InBounds

/- Making an array fails for its own reasons. -/
theorem inBounds_of_makeArray
    {ε : Type}
    [Environment ε]
    {env : ε}
    {executable : Bool}
    {es : List Object}
    {cause : Cause}
    (h : makeArray env executable es = .error cause) :
    InBounds cause := by
  unfold makeArray at h
  split at h
  · cases h
    trivial
  · split at h
    · cases h
      trivial
    · contradiction

namespace Payload

variable {p : Payload}
variable {r : Record}
variable {st : Progress}

/- A record that lies before the end of the records is there. -/
theorem record_moves
    {offset : Nat}
    (hOffset : offset + recordSize ≤ p.data.size) :
    Quiet p.data.size (p.record offset) st := by
  unfold Payload.record
  apply Goes.get_bind
  split
  · exact Goes.fail trivial
  · refine Goes.set_bind (moves_of_same rfl rfl) ?_
    rw [if_neg (Nat.not_lt.mpr hOffset)]
    split
    · exact Goes.pure trivial
    · exact Goes.fail trivial

/- Text that is taken lies behind the records. -/
theorem text_moves :
    Goes (Moves p.data.size)
      (fun _ st' =>
        r.length.toNat ≠ 0 →
          st'.textStart ≤ r.value.toNat ∧
            r.value.toNat + r.length.toNat ≤ p.data.size)
      (p.text r) st InBounds := by
  unfold Payload.text
  dsimp only
  split
  next hEmpty =>
    exact Goes.pure (fun hLength => absurd hEmpty hLength)
  next =>
    apply Goes.get_bind
    split
    · exact Goes.fail trivial
    next hInside =>
      refine Goes.set_bind ?_ (Goes.pure ?_)
      · intro hOrder _
        exact ⟨Nat.le_refl _, Nat.min_le_left _ _,
          by dsimp only; omega⟩
      · intro _
        exact ⟨Nat.min_le_right _ _, by omega⟩

/- A block that is reserved ends before the text. -/
theorem reserve_moves :
    Goes (Moves p.data.size)
      (fun _ st' =>
        r.length.toNat ≠ 0 →
          r.value.toNat + r.length.toNat * recordSize ≤
            st'.recordsEnd)
      (p.reserve r) st InBounds := by
  unfold Payload.reserve
  dsimp only
  split
  next hEmpty =>
    exact Goes.pure (fun hLength => absurd hEmpty hLength)
  next =>
    split
    · exact Goes.fail trivial
    · apply Goes.get_bind
      split
      · exact Goes.fail trivial
      next hInside =>
        refine Goes.set ?_ (fun _ => Nat.le_max_right _ _)
        intro hOrder _
        exact ⟨Nat.le_max_left _ _, Nat.le_refl _,
          by dsimp only; omega⟩

/- A name that is made moves no markers. -/
theorem internLong_moves
    {size : Nat}
    (bytes : Bytes) :
    Quiet size (internLong bytes) st := by
  unfold Payload.internLong
  apply Goes.get_bind
  unfold NameTable.internLong
  rcases st.names.internWithin_cases maxLongNameLength bytes
    with ⟨-, h⟩ | ⟨_, -, -, h⟩ | ⟨-, -, h⟩
  · rw [h]
    exact Goes.set_bind (moves_of_same rfl rfl)
      (Goes.fail trivial)
  · rw [h]
    exact Goes.set_bind (moves_of_same rfl rfl)
      (Goes.pure trivial)
  · rw [h]
    exact Goes.set_bind (moves_of_same rfl rfl)
      (Goes.pure trivial)

/- A name that needs no text moves no markers. -/
theorem name_moves
    (hNumber :
      r.length = systemNameLength ∨ r.length = 0 ∨
        maxLongNameLength < r.length.toNat) :
    Quiet p.data.size (p.name r) st := by
  unfold Payload.name
  split
  · apply Goes.get_bind
    split
    · exact Goes.pure trivial
    · exact Goes.fail trivial
  next hNoIndex =>
    split
    · exact Goes.fail trivial
    next hText =>
      have hLong := (hNumber.resolve_left hNoIndex).resolve_left
        hText
      rw [if_pos hLong]
      exact Goes.fail trivial

/- The binding of a name moves no markers. -/
theorem binding_moves
    {ε : Type}
    [Environment ε]
    {size : Nat}
    (env : ε)
    (n : Name) :
    Quiet size (binding env n) st := by
  unfold Payload.binding
  apply Goes.get_bind
  split
  · exact Goes.set_bind (moves_of_same rfl rfl)
      (Goes.pure trivial)
  · exact Goes.set_bind (moves_of_same rfl rfl)
      (Goes.fail trivial)

/- The checks of simple values move no markers. -/
theorem unused_moves
    (valueToo : Bool) :
    Quiet p.data.size (p.unused r valueToo) st := by
  unfold Payload.unused
  split
  · exact Goes.fail trivial
  · exact Goes.pure trivial

theorem boolean_moves :
    Quiet p.data.size (p.boolean r) st := by
  unfold Payload.boolean
  split
  · exact Goes.pure trivial
  · split
    · exact Goes.pure trivial
    · exact Goes.fail trivial

theorem real_moves
    {size : Nat} :
    Quiet size (Payload.real r) st := by
  unfold Payload.real
  split
  · split
    · exact Goes.pure trivial
    · exact Goes.fail trivial
  · split
    · exact Goes.pure trivial
    · exact Goes.fail trivial

end Payload

------------------------------------------------------------
-- Notes
------------------------------------------------------------

/-
  A sound state is followed by a sound state in which the
  records reach at least as far.
-/
def Keeps
    (size : Nat)
    (s s' : Traced) : Prop :=
  s.Sound size →
    s'.Sound size ∧
      s.progress.recordsEnd ≤ s'.progress.recordsEnd

instance
    {size : Nat} :
    Onward (Keeps size) where
  refl _ := fun h => ⟨h, Nat.le_refl _⟩
  trans := by
    intro s s' s'' hFirst hNext h
    rcases hFirst h with ⟨h', hRecords⟩
    rcases hNext h' with ⟨h'', hRecords'⟩
    exact ⟨h'', Nat.le_trans hRecords hRecords'⟩

/- What reading with notes comes to in a sound state. -/
abbrev Careful
    {α : Type}
    (size : Nat)
    (x : Tracing α)
    (s : Traced) : Prop :=
  Goes (Keeps size) (fun _ _ => True) x s InBounds

variable {α : Type}
variable {size : Nat}
variable {s : Traced}

/- What has happened stays within markers that move. -/
theorem keeps_of_moves
    {st : Progress}
    (hMoves : Moves size s.progress st) :
    Keeps size s ⟨st, s.history⟩ := by
  intro h
  rcases hMoves h.zones.recordsEnd_le h.zones.textStart_le with
    ⟨hRecords, hText, hOrder⟩
  refine ⟨⟨⟨hOrder, ?_, ?_⟩, h.separate⟩, hRecords⟩
  · exact Nat.le_trans hText h.zones.textStart_le
  · intro e he
    exact (h.zones.within e he).mono hRecords hText

/- Reading without a note keeps a state sound. -/
theorem silently_goes
    {V : α → Progress → Prop}
    {x : Reading α}
    (h : Goes (Moves size) V x s.progress InBounds) :
    Goes (Keeps size) (fun v s' => V v s'.progress)
      (silently x) s InBounds := by
  unfold Goes silently
  cases hRun : x s.progress with
  | ok v st =>
      rcases h.of_ok hRun with ⟨hMoves, hValue⟩
      exact ⟨keeps_of_moves hMoves, hValue⟩
  | error cause st =>
      rcases h.of_error hRun with ⟨hMoves, hReason⟩
      exact ⟨keeps_of_moves hMoves, hReason⟩

/- So does reading that moves no markers. -/
theorem quiet_goes
    {x : Reading α}
    (h : Quiet size x s.progress) :
    Careful size (silently x) s :=
  silently_goes h

/- An event that keeps to its side may be noted. -/
theorem note_goes
    {e : Event}
    (hWithin :
      e.Within size s.progress.recordsEnd
        s.progress.textStart) :
    Goes (Keeps size) (fun _ s' => s'.progress = s.progress)
      (note e) s InBounds := by
  refine ⟨?_, rfl⟩
  intro h
  have hZones :
      Zones size s.progress.recordsEnd s.progress.textStart
        (e :: s.history.map Moment.event) :=
    ⟨h.zones.recordsEnd_le, h.zones.textStart_le,
      List.forall_mem_cons.mpr ⟨hWithin, h.zones.within⟩⟩
  exact ⟨⟨hZones, hZones, h.separate⟩, Nat.le_refl _⟩

/- So may one that reading has shown to keep to its side. -/
theorem noting_goes
    {V : α → Progress → Prop}
    {e : Event}
    {x : Reading α}
    (h : Goes (Moves size) V x s.progress InBounds)
    (hWithin :
      ∀ v st, V v st →
        e.Within size st.recordsEnd st.textStart) :
    Goes (Keeps size) (fun v s' => V v s'.progress)
      (noting e x) s InBounds := by
  refine Goes.bind (silently_goes h) ?_
  intro v s' _ hValue
  refine Goes.bind (note_goes (hWithin v _ hValue)) ?_
  intro _ s'' _ hSame
  apply Goes.pure
  rw [hSame]
  exact hValue

namespace Payload

variable {p : Payload}
variable {r : Record}

/- A record may be asked for if its block is reserved. -/
theorem traceRecord_goes
    (h : s.Sound p.data.size)
    {offset : Nat}
    (hOffset : offset + recordSize ≤ s.progress.recordsEnd) :
    Careful p.data.size (p.traceRecord offset) s := by
  have hThere : offset + recordSize ≤ p.data.size :=
    Nat.le_trans hOffset (Nat.le_trans h.zones.recordsEnd_le
      h.zones.textStart_le)
  exact Goes.bind (note_goes hOffset)
    (fun _ _ _ _ => quiet_goes (record_moves hThere))

/- Text may be taken at any time. -/
theorem traceText_goes :
    Careful p.data.size (p.traceText r) s := by
  unfold traceText
  split
  · exact (silently_goes text_moves).imp
      (fun _ _ _ _ => trivial)
  next hLength =>
    refine (noting_goes text_moves ?_).imp
      (fun _ _ _ _ => trivial)
    exact fun _ _ hTaken => hTaken hLength

/- A block may be reserved at any time. -/
theorem traceReserve_goes :
    Goes (Keeps p.data.size)
      (fun _ s' =>
        r.length.toNat ≠ 0 →
          r.value.toNat + r.length.toNat * recordSize ≤
            s'.progress.recordsEnd)
      (p.traceReserve r) s InBounds := by
  unfold traceReserve
  split
  · exact silently_goes reserve_moves
  next hLength =>
    exact noting_goes reserve_moves
      (fun _ _ hReserved => hReserved hLength)

/- A name may be read at any time. -/
theorem traceName_goes :
    Careful p.data.size (p.traceName r) s := by
  unfold traceName
  split
  next hNumber => exact quiet_goes (name_moves hNumber)
  next =>
    exact Goes.bind traceText_goes
      (fun _ _ _ _ => quiet_goes (internLong_moves _))

end Payload

------------------------------------------------------------
-- Objects
------------------------------------------------------------

variable {ε : Type}
variable [Environment ε]

/-
  Blocks may be read that have been reserved. Nothing is asked
  for in an empty block, wherever it is.
-/
def CarefulBlocks
    (size : Nat)
    (nested : Nat → Nat → Tracing (List Object)) : Prop :=
  ∀ offset count s,
    s.Sound size →
      (count ≠ 0 →
        offset + count * recordSize ≤ s.progress.recordsEnd) →
      Careful size (nested offset count) s

/- What a record stands for may be read. -/
theorem traceContents_goes
    (p : Payload)
    (env : ε)
    {nested : Nat → Nat → Tracing (List Object)}
    (hNested : CarefulBlocks p.data.size nested)
    (r : Record)
    (type : RecordType)
    (h : s.Sound p.data.size) :
    Careful p.data.size (traceContents p env nested r type)
      s := by
  cases type with
  | null =>
      exact quiet_goes (Goes.bind
        (Payload.unused_moves true)
        (fun _ _ _ _ => Goes.pure trivial))
  | mark =>
      exact quiet_goes (Goes.bind
        (Payload.unused_moves true)
        (fun _ _ _ _ => Goes.pure trivial))
  | integer =>
      exact quiet_goes (Goes.bind
        (Payload.unused_moves false)
        (fun _ _ _ _ => Goes.pure trivial))
  | boolean =>
      refine quiet_goes (Goes.bind
        (Payload.unused_moves false) ?_)
      intro _ _ _ _
      exact Goes.bind Payload.boolean_moves
        (fun _ _ _ _ => Goes.pure trivial)
  | real =>
      exact quiet_goes (Goes.bind Payload.real_moves
        (fun _ _ _ _ => Goes.pure trivial))
  | string =>
      exact Goes.bind Payload.traceText_goes
        (fun _ _ _ _ => Goes.pure trivial)
  | name =>
      exact Goes.bind Payload.traceName_goes
        (fun _ _ _ _ => Goes.pure trivial)
  | immediateName =>
      exact Goes.bind Payload.traceName_goes
        (fun n _ _ _ =>
          quiet_goes (Payload.binding_moves env n))
  | array =>
      refine Goes.bind Payload.traceReserve_goes ?_
      intro _ s' hKeeps hReserved
      refine Goes.bind
        (hNested _ _ s' (hKeeps h).1 hReserved) ?_
      intro elements _ _ _
      split
      next o _ => exact Goes.pure trivial
      next cause hMake =>
        exact Goes.fail (inBounds_of_makeArray hMake)

/- The object at an offset may be read. -/
theorem traceObject_goes
    (p : Payload)
    (env : ε)
    {nested : Nat → Nat → Tracing (List Object)}
    (hNested : CarefulBlocks p.data.size nested)
    (h : s.Sound p.data.size)
    {offset : Nat}
    (hOffset : offset + recordSize ≤ s.progress.recordsEnd) :
    Careful p.data.size (traceObject p env nested offset)
      s := by
  refine Goes.bind (Payload.traceRecord_goes h hOffset) ?_
  intro r s' hKeeps _
  split
  · exact quiet_goes (Goes.fail trivial)
  · exact traceContents_goes p env hNested r _ (hKeeps h).1

/-
  Objects may be read one after another, by induction on their
  number. What is left of the block stays reserved, since the
  end of the records never falls.
-/
theorem traceObjectsAfter_goes
    {read : Nat → Tracing Object}
    (hRead :
      ∀ offset s, s.Sound size →
        offset + recordSize ≤ s.progress.recordsEnd →
          Careful size (read offset) s)
    (done : Array Object)
    (n offset : Nat)
    (h : s.Sound size)
    (hBlock :
      n ≠ 0 →
        offset + n * recordSize ≤ s.progress.recordsEnd) :
    Careful size (traceObjectsAfter read done n offset) s := by
  induction n generalizing done offset s with
  | zero => exact Goes.pure trivial
  | succ n ih =>
      have hAll := hBlock (Nat.succ_ne_zero n)
      rw [Nat.succ_mul] at hAll
      refine Goes.bind (hRead offset s h (by omega)) ?_
      intro o s' hKeeps _
      rcases hKeeps h with ⟨h', hRecords⟩
      exact ih _ _ h' (fun _ => by omega)

/- A block may be read, however deep arrays may nest. -/
theorem traceBlock_goes
    (p : Payload)
    (env : ε)
    (levels : Nat) :
    CarefulBlocks p.data.size (traceBlock p env levels) := by
  induction levels with
  | zero =>
      intro offset count s _ _
      exact quiet_goes (Goes.fail trivial)
  | succ levels ih =>
      intro offset count s h hBlock
      exact traceObjectsAfter_goes
        (fun offset s h hOffset =>
          traceObject_goes p env ih h hOffset)
        #[] count offset h hBlock

------------------------------------------------------------
-- Histories
------------------------------------------------------------

/- The markers that a whole history keeps to. -/
theorem Separate.zones
    {history : List Moment}
    (h : Separate size history) :
    ∃ recordsEnd textStart,
      Zones size recordsEnd textStart
        (history.map Moment.event) := by
  cases history with
  | nil =>
      exact ⟨0, 0, Nat.le_refl 0, Nat.zero_le size,
        fun e he => nomatch he⟩
  | cons m earlier => exact ⟨_, _, h.1⟩

/- No byte is both on the one side and on the other. -/
theorem Zones.disjoint
    {recordsEnd textStart : Nat}
    {events : List Event}
    (h : Zones size recordsEnd textStart events)
    {e e' : Event}
    (he : e ∈ events)
    (he' : e' ∈ events)
    {i : Nat}
    (hRecord : e.CoversAsRecord i) :
    ¬ e'.CoversAsText i := by
  intro hText
  cases e with
  | text | block => contradiction
  | record offset =>
      cases e' with
      | record | block => contradiction
      | text start length =>
          have hBelow : offset + recordSize ≤ recordsEnd :=
            h.within _ he
          have hAbove : textStart ≤ start :=
            (h.within _ he').1
          have hOrder := h.recordsEnd_le
          have hLast := hRecord.2
          have hFirst := hText.1
          omega

/- All bytes that are looked at are there. -/
theorem Zones.inside
    {recordsEnd textStart : Nat}
    {events : List Event}
    (h : Zones size recordsEnd textStart events)
    {e : Event}
    (he : e ∈ events) :
    e.IsInside size := by
  have hOrder := h.recordsEnd_le
  have hSize := h.textStart_le
  have hWithin := h.within e he
  cases e with
  | record offset =>
      exact Nat.le_trans hWithin (Nat.le_trans hOrder hSize)
  | text start length => exact hWithin.2
  | block start count =>
      exact Nat.le_trans hWithin (Nat.le_trans hOrder hSize)

------------------------------------------------------------
-- Payloads
------------------------------------------------------------

/- Reading begins with the markers in order. -/
theorem sound_start
    (names : NameTable)
    {count : Nat}
    (hEnough : count * recordSize ≤ size) :
    (Traced.start names count size).Sound size := by
  have hZones :
      Zones size (count * recordSize) size [.block 0 count] :=
    by
    refine ⟨hEnough, Nat.le_refl _, ?_⟩
    intro e he
    rw [List.mem_singleton.mp he]
    exact Nat.le_of_eq (Nat.zero_add _)
  exact ⟨hZones, hZones, trivial⟩

/-
  What reading a payload comes to: its history is separate,
  and if it fails, this is not for a record out of bounds.
-/
theorem tracePayload_goes
    (env : ε)
    (h : Header)
    (data : Bytes)
    (names : NameTable) :
    Separate data.size (tracePayload env h data names).2 ∧
      ∀ cause names',
        (tracePayload env h data names).1 =
            .error cause names' →
          InBounds cause := by
  unfold tracePayload
  dsimp only
  split
  next =>
    refine ⟨trivial, ?_⟩
    intro cause names' hResult
    cases hResult
    trivial
  next hEnough =>
    have hStart :=
      sound_start names (Nat.le_of_not_lt hEnough)
    have hBlock :=
      traceBlock_goes ⟨data, h.format.order⟩ env
        (maxNesting + 1) 0 h.count.toNat _ hStart
        (fun _ => Nat.le_of_eq (Nat.zero_add _))
    rw [finish_snd]
    cases hRun :
        traceBlock ⟨data, h.format.order⟩ env
          (maxNesting + 1) 0 h.count.toNat
          (Traced.start names h.count.toNat data.size) with
    | ok elements s =>
        refine ⟨((hBlock.of_ok hRun).1 hStart).1.separate, ?_⟩
        intro cause names' hResult
        unfold Traced.finish at hResult
        dsimp only at hResult
        split at hResult
        next => cases hResult
        next hMake =>
          cases hResult
          exact inBounds_of_makeArray hMake
    | error cause s =>
        rcases hBlock.of_error hRun with ⟨hKeeps, hReason⟩
        refine ⟨(hKeeps hStart).1.separate, ?_⟩
        intro cause' names' hResult
        cases hResult
        exact hReason

/-
  Whatever the bytes of a payload are, and whether they can be
  read or not: the events of `tracePayload`, which reads as
  `readPayload` does and looks at no byte without an event,
  keep to their sides of the markers at each moment. So no
  byte is looked at both as part of a record and as part of
  text, all bytes that are asked for are there, and no record
  is out of bounds.
-/
theorem zones_separate
    (env : ε)
    (h : Header)
    (data : Bytes)
    (names : NameTable) :
    (tracePayload env h data names).1 =
        readPayload env h data names ∧
      (∀ data',
        Alike data data' (tracePayload env h data names).2 →
          readPayload env h data' names =
            readPayload env h data names) ∧
      Separate data.size (tracePayload env h data names).2 ∧
      (∀ m ∈ (tracePayload env h data names).2,
        ∀ m' ∈ (tracePayload env h data names).2,
          ∀ i, m.event.CoversAsRecord i →
            ¬ m'.event.CoversAsText i) ∧
      (∀ m ∈ (tracePayload env h data names).2,
        m.event.IsInside data.size) ∧
      ∀ type count size names',
        readPayload env h data names ≠
          .error (.record .recordOutOfBounds type count size)
            names' := by
  rcases tracePayload_goes env h data names with
    ⟨hSeparate, hReason⟩
  rcases hSeparate.zones with ⟨recordsEnd, textStart, hZones⟩
  refine ⟨tracePayload_fst env h data names, ?_, hSeparate,
    ?_, ?_, ?_⟩
  · intro data' hAlike
    rw [← tracePayload_fst, ← tracePayload_fst,
      tracePayload_local env h names hAlike]
  · intro m hm m' hm' i
    exact hZones.disjoint (List.mem_map_of_mem hm)
      (List.mem_map_of_mem hm')
  · intro m hm
    exact hZones.inside (List.mem_map_of_mem hm)
  · intro type count size names' hResult
    rw [← tracePayload_fst] at hResult
    exact hReason _ _ hResult

/-
  An array that holds a string: two blocks of one record each,
  and text behind them.
-/
theorem zones_separate_nested :
    (tracePayload () ⟨⟨.little, .native⟩, 1, 22, false⟩
        #[137, 0, 1, 0, 8, 0, 0, 0,
          5, 0, 2, 0, 16, 0, 0, 0,
          104, 105] NameTable.initial).2 =
        [⟨.text 16 2, 16, 16⟩, ⟨.record 8, 16, 18⟩,
          ⟨.block 8 1, 16, 18⟩, ⟨.record 0, 8, 18⟩,
          ⟨.block 0 1, 8, 18⟩] ∧
      Separate 18
        [⟨.text 16 2, 16, 16⟩, ⟨.record 8, 16, 18⟩,
          ⟨.block 8 1, 16, 18⟩, ⟨.record 0, 8, 18⟩,
          ⟨.block 0 1, 8, 18⟩] := by
  have hHistory :
      (tracePayload () ⟨⟨.little, .native⟩, 1, 22, false⟩
        #[137, 0, 1, 0, 8, 0, 0, 0,
          5, 0, 2, 0, 16, 0, 0, 0,
          104, 105] NameTable.initial).2 =
        [⟨.text 16 2, 16, 16⟩, ⟨.record 8, 16, 18⟩,
          ⟨.block 8 1, 16, 18⟩, ⟨.record 0, 8, 18⟩,
          ⟨.block 0 1, 8, 18⟩] := by
    decide +kernel
  refine ⟨hHistory, ?_⟩
  have hSeparate :=
    (zones_separate () ⟨⟨.little, .native⟩, 1, 22, false⟩
      #[137, 0, 1, 0, 8, 0, 0, 0,
        5, 0, 2, 0, 16, 0, 0, 0,
        104, 105] NameTable.initial).2.2.1
  rw [hHistory] at hSeparate
  exact hSeparate

end PostScript.Sequence
