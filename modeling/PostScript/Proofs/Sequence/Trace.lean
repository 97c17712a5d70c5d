import PostScript.Proofs.Sequence.Contents

/-
  This file defines a reader of payloads that notes what it
  touches while it reads: records, text and the blocks that
  arrays reserve. Without its notes it is the reader that the
  notes are about.

  Key definitions include:
    * `Sequence.Event`
    * `Sequence.Moment`
    * `Sequence.traceBlock`
    * `Sequence.tracePayload`

  Main results:
    * `Sequence.traceBlock_erases`
    * `Sequence.tracePayload_fst`
-/

namespace PostScript.Sequence

------------------------------------------------------------
-- Histories
------------------------------------------------------------

/-
  What a reader does to the bytes of a payload: it asks for
  the record at an offset, takes text, or reserves a block of
  records.
-/
inductive Event where
  | record (offset : Nat)
  | text (start length : Nat)
  | block (start count : Nat)
deriving DecidableEq, Repr

/- An event and where the two markers stand just after it. -/
structure Moment where
  event : Event
  recordsEnd : Nat
  textStart : Nat
deriving DecidableEq, Repr

/- The progress with all that has happened, the last first. -/
structure Traced where
  progress : Progress
  history : List Moment

/- What has happened is kept when reading fails. -/
abbrev Tracing (α : Type) : Type :=
  EStateM Cause Traced α

namespace Tracing

variable {α : Type}

/- Note an event. -/
def note
    (event : Event) : Tracing Unit :=
  modify (fun s =>
    { s with history :=
      ⟨event, s.progress.recordsEnd, s.progress.textStart⟩ ::
        s.history })

/- Read without a note. -/
def silently
    (x : Reading α) : Tracing α :=
  fun s =>
    match x s.progress with
    | .ok v st => .ok v ⟨st, s.history⟩
    | .error cause st => .error cause ⟨st, s.history⟩

/- Read, and note an event if that succeeds. -/
def noting
    (event : Event)
    (x : Reading α) : Tracing α := do
  let v ← silently x
  note event
  pure v

variable {event : Event}
variable {x : Reading α}
variable {s : Traced}
variable {st : Progress}

/- A success is noted. -/
theorem noting_of_ok
    {v : α}
    (h : x s.progress = .ok v st) :
    noting event x s =
      .ok v ⟨st,
        ⟨event, st.recordsEnd, st.textStart⟩ ::
          s.history⟩ := by
  have hRun : silently x s = .ok v ⟨st, s.history⟩ := by
    unfold silently
    rw [h]
  unfold noting
  rw [bind_of_ok hRun]
  rfl

/- A failure is not. -/
theorem noting_of_error
    {cause : Cause}
    (h : x s.progress = .error cause st) :
    noting event x s = .error cause ⟨st, s.history⟩ := by
  have hRun : silently x s = .error cause ⟨st, s.history⟩ := by
    unfold silently
    rw [h]
  unfold noting
  rw [bind_of_error hRun]

end Tracing

open Tracing

------------------------------------------------------------
-- Reading with Notes
------------------------------------------------------------

namespace Payload

variable (p : Payload)

/- Ask for the record at an offset. -/
def traceRecord
    (offset : Nat) : Tracing Record := do
  note (.record offset)
  silently (p.record offset)

/- Take the text that a record refers to, if there is any. -/
def traceText
    (r : Record) : Tracing Bytes :=
  if r.length.toNat = 0 then
    silently (p.text r)
  else
    noting (.text r.value.toNat r.length.toNat) (p.text r)

/- Reserve the block that an array refers to, if any. -/
def traceReserve
    (r : Record) : Tracing Unit :=
  if r.length.toNat = 0 then
    silently (p.reserve r)
  else
    noting (.block r.value.toNat r.length.toNat) (p.reserve r)

/- Read a name, which is taken from text or has a number. -/
def traceName
    (r : Record) : Tracing Name :=
  if r.length = systemNameLength ∨ r.length = 0 ∨
      maxLongNameLength < r.length.toNat then
    silently (p.name r)
  else do
    let bytes ← p.traceText r
    silently (internLong bytes)

end Payload

variable {ε : Type}
variable [Environment ε]

/-
  Read what a record stands for. The first five types need no
  bytes but those of the record.
-/
def traceContents
    (p : Payload)
    (env : ε)
    (nested : Nat → Nat → Tracing (List Object))
    (r : Record) : RecordType → Tracing Object
  | .null => silently (contents p env (fun _ _ => pure []) r .null)
  | .mark => silently (contents p env (fun _ _ => pure []) r .mark)
  | .integer =>
      silently (contents p env (fun _ _ => pure []) r .integer)
  | .boolean =>
      silently (contents p env (fun _ _ => pure []) r .boolean)
  | .real => silently (contents p env (fun _ _ => pure []) r .real)
  | .string => do
      let bytes ← p.traceText r
      pure ((Object.string bytes
        (Environment.newAttrs env)).withExecutable
          r.executable)
  | .name => do
      let name ← p.traceName r
      pure (Object.name name r.executable)
  | .immediateName => do
      let name ← p.traceName r
      silently (Payload.binding env name)
  | .array => do
      p.traceReserve r
      let elements ← nested r.value.toNat r.length.toNat
      match makeArray env r.executable elements with
      | .ok o => pure o
      | .error cause => throw cause

/- Read the object at an offset. -/
def traceObject
    (p : Payload)
    (env : ε)
    (nested : Nat → Nat → Tracing (List Object))
    (offset : Nat) : Tracing Object := do
  let r ← p.traceRecord offset
  match RecordType.ofCode? r.type with
  | none => silently (p.fail .unknownType r.type 0)
  | some type => traceContents p env nested r type

/- Read `n` objects behind those already read. -/
def traceObjectsAfter
    (read : Nat → Tracing Object)
    (done : Array Object) :
    Nat → Nat → Tracing (List Object)
  | 0, _ => pure done.toList
  | n + 1, offset => do
      let o ← read offset
      traceObjectsAfter read (done.push o) n
        (offset + recordSize)

/- Read a block of records at an offset. -/
def traceBlock
    (p : Payload)
    (env : ε) :
    Nat → Nat → Nat → Tracing (List Object)
  | 0, _, count =>
      silently
        (p.fail .nestedTooDeeply RecordType.array.code count)
  | levels + 1, offset, count =>
      traceObjectsAfter
        (traceObject p env (traceBlock p env levels)) #[]
        count offset

/- What reading begins with: the top level is reserved. -/
def Traced.start
    (names : NameTable)
    (count size : Nat) : Traced :=
  ⟨Progress.start names count size,
    [⟨.block 0 count, count * recordSize, size⟩]⟩

/- Make an array of what has been read, and keep the names. -/
def Traced.finish
    (env : ε) :
    EStateM.Result Cause Traced (List Object) →
      EStateM.Result Cause NameTable Object × List Moment
  | .ok elements s =>
      match makeArray env true elements with
      | .ok o => (.ok o s.progress.names, s.history)
      | .error cause =>
          (.error cause s.progress.names, s.history)
  | .error cause s =>
      (.error cause s.progress.names, s.history)

/-
  Read the objects behind a header and tell all that has
  happened, also if reading fails.
-/
def tracePayload
    (env : ε)
    (h : Header)
    (data : Bytes)
    (names : NameTable) :
    EStateM.Result Cause NameTable Object × List Moment :=
  let count := h.count.toNat
  let p : Payload := ⟨data, h.format.order⟩
  if data.size < count * recordSize then
    (.error (.record .recordsExceedSequence 0 count data.size)
      names, [])
  else
    Traced.finish env
      (traceBlock p env (maxNesting + 1) 0 count
        (Traced.start names count data.size))

------------------------------------------------------------
-- Erasure
------------------------------------------------------------

/- A result without the notes. -/
def Traced.erase
    {α : Type} :
    EStateM.Result Cause Traced α →
      EStateM.Result Cause Progress α
  | .ok v s => .ok v s.progress
  | .error cause s => .error cause s.progress

/- The first program is the second one with notes. -/
def Erases
    {α : Type}
    (y : Tracing α)
    (x : Reading α) : Prop :=
  ∀ s, Traced.erase (y s) = x s.progress

namespace Erases

variable {α β : Type}

/- Reading without a note. -/
theorem silently
    (x : Reading α) :
    Erases (silently x) x := by
  intro s
  unfold Tracing.silently
  cases hRun : x s.progress <;> rfl

/- Reading with a note behind. -/
theorem noting
    (event : Event)
    (x : Reading α) :
    Erases (noting event x) x := by
  intro s
  cases hRun : x s.progress with
  | ok v st =>
      rw [noting_of_ok hRun]
      rfl
  | error cause st =>
      rw [noting_of_error hRun]
      rfl

/- A note in front. -/
theorem note_bind
    {event : Event}
    {g : Unit → Tracing α}
    {x : Reading α}
    (h : Erases (g ()) x) :
    Erases (note event >>= g) x :=
  fun _ => h _

/- Programs one after the other. -/
theorem bind
    {y : Tracing α}
    {x : Reading α}
    {g : α → Tracing β}
    {f : α → Reading β}
    (hFirst : Erases y x)
    (hNext : ∀ v, Erases (g v) (f v)) :
    Erases (y >>= g) (x >>= f) := by
  intro s
  have hErase := hFirst s
  cases hRun : y s with
  | ok v s' =>
      rw [hRun] at hErase
      rw [bind_of_ok hRun, bind_of_ok hErase.symm]
      exact hNext v s'
  | error cause s' =>
      rw [hRun] at hErase
      rw [bind_of_error hRun, bind_of_error hErase.symm]
      rfl

/- A value that is given. -/
theorem pure
    (v : α) :
    Erases (Pure.pure v) (Pure.pure v) :=
  fun _ => rfl

/- A failure. -/
theorem throw
    (cause : Cause) :
    Erases (MonadExcept.throw cause : Tracing α)
      (MonadExcept.throw cause) :=
  fun _ => rfl

end Erases

namespace Payload

variable (p : Payload)
variable (r : Record)

/- Asking for a record. -/
theorem traceRecord_erases
    (offset : Nat) :
    Erases (p.traceRecord offset) (p.record offset) :=
  .note_bind (.silently _)

/- Taking text. -/
theorem traceText_erases :
    Erases (p.traceText r) (p.text r) := by
  unfold traceText
  split
  · exact .silently _
  · exact .noting _ _

/- Reserving a block. -/
theorem traceReserve_erases :
    Erases (p.traceReserve r) (p.reserve r) := by
  unfold traceReserve
  split
  · exact .silently _
  · exact .noting _ _

/- Reading a name. -/
theorem traceName_erases :
    Erases (p.traceName r) (p.name r) := by
  unfold traceName
  split
  · exact .silently _
  next hText =>
    rw [not_or, not_or] at hText
    unfold name
    rw [if_neg hText.1, if_neg hText.2.1, if_neg hText.2.2]
    exact .bind (p.traceText_erases r)
      (fun bytes => .silently _)

end Payload

/- Reading what a record stands for. -/
theorem traceContents_erases
    (p : Payload)
    (env : ε)
    {tracing : Nat → Nat → Tracing (List Object)}
    {nested : Nat → Nat → Reading (List Object)}
    (hNested :
      ∀ offset count,
        Erases (tracing offset count) (nested offset count))
    (r : Record)
    (type : RecordType) :
    Erases (traceContents p env tracing r type)
      (contents p env nested r type) := by
  cases type with
  | null | mark | integer | boolean | real =>
      exact .silently _
  | string =>
      exact .bind (p.traceText_erases r) (fun _ => .pure _)
  | name =>
      exact .bind (p.traceName_erases r) (fun _ => .pure _)
  | immediateName =>
      exact .bind (p.traceName_erases r)
        (fun _ => .silently _)
  | array =>
      refine .bind (p.traceReserve_erases r) ?_
      intro _
      refine .bind (hNested _ _) ?_
      intro elements
      cases makeArray env r.executable elements with
      | ok o => exact .pure o
      | error cause => exact .throw cause

/- Reading an object. -/
theorem traceObject_erases
    (p : Payload)
    (env : ε)
    {tracing : Nat → Nat → Tracing (List Object)}
    {nested : Nat → Nat → Reading (List Object)}
    (hNested :
      ∀ offset count,
        Erases (tracing offset count) (nested offset count))
    (offset : Nat) :
    Erases (traceObject p env tracing offset)
      (object p env nested offset) := by
  rw [object_eq]
  refine .bind (p.traceRecord_erases offset) ?_
  intro r
  cases RecordType.ofCode? r.type with
  | none => exact .silently _
  | some type => exact traceContents_erases p env hNested r type

/- Reading objects one after another. -/
theorem traceObjectsAfter_erases
    {tracing : Nat → Tracing Object}
    {read : Nat → Reading Object}
    (hRead : ∀ offset, Erases (tracing offset) (read offset))
    (done : Array Object)
    (n offset : Nat) :
    Erases (traceObjectsAfter tracing done n offset)
      (objectsAfter read done n offset) := by
  induction n generalizing done offset with
  | zero => exact .pure _
  | succ n ih =>
      exact .bind (hRead offset)
        (fun o => ih (done.push o) (offset + recordSize))

/-
  Reading a block, by induction on how deep arrays may still
  nest.
-/
theorem traceBlock_erases
    (p : Payload)
    (env : ε)
    (levels offset count : Nat) :
    Erases (traceBlock p env levels offset count)
      (block p env levels offset count) := by
  induction levels generalizing offset count with
  | zero => exact .silently _
  | succ levels ih =>
      exact traceObjectsAfter_erases
        (traceObject_erases p env ih) #[] count offset

/- A payload is read in the same way with notes. -/
theorem tracePayload_fst
    (env : ε)
    (h : Header)
    (data : Bytes)
    (names : NameTable) :
    (tracePayload env h data names).1 =
      readPayload env h data names := by
  have hErase :=
    traceBlock_erases ⟨data, h.format.order⟩ env
      (maxNesting + 1) 0 h.count.toNat
      (Traced.start names h.count.toNat data.size)
  have hStart :
      (Traced.start names h.count.toNat
        data.size).progress =
        Progress.start names h.count.toNat data.size := rfl
  rw [hStart] at hErase
  unfold tracePayload readPayload
  dsimp only
  split
  · rfl
  · cases hRun :
        traceBlock ⟨data, h.format.order⟩ env
          (maxNesting + 1) 0 h.count.toNat
          (Traced.start names h.count.toNat data.size) with
    | ok elements s =>
        rw [hRun] at hErase
        rw [bind_of_ok (run_of_ok hErase.symm)]
        unfold Traced.finish
        dsimp only
        cases makeArray env true elements with
        | ok o => rfl
        | error cause => rfl
    | error cause s =>
        rw [hRun] at hErase
        rw [bind_of_error (run_of_error hErase.symm)]
        rfl

end PostScript.Sequence
