import PostScript.Proofs.Sequence.Trace

/-
  This file shows that the history of a reader is complete:
  bytes of a payload that no event covers are never looked at,
  so that they may be replaced by any others.

  Key definitions include:
    * `Sequence.Event.Covers`
    * `Sequence.Alike`
    * `Sequence.Local`

  Main results:
    * `Sequence.traceBlock_local`
    * `Sequence.tracePayload_local`
-/

namespace PostScript.Sequence

open Tracing

------------------------------------------------------------
-- Bytes
------------------------------------------------------------

namespace Event

/- A byte is looked at as part of a record. -/
def CoversAsRecord
    (i : Nat) : Event → Prop
  | .record offset => offset ≤ i ∧ i < offset + recordSize
  | _ => False

/- A byte is looked at as part of text. -/
def CoversAsText
    (i : Nat) : Event → Prop
  | .text start length => start ≤ i ∧ i < start + length
  | _ => False

/- A byte is looked at. -/
def Covers
    (i : Nat)
    (e : Event) : Prop :=
  e.CoversAsRecord i ∨ e.CoversAsText i

end Event

/- Payloads that differ at most where no event covers them. -/
structure Alike
    (data data' : Bytes)
    (history : List Moment) : Prop where
  size : data'.size = data.size
  bytes :
    ∀ i, (∃ m ∈ history, m.event.Covers i) →
      data'[i]? = data[i]?

/- What is alike in a history is alike in its past. -/
theorem Alike.past
    {data data' : Bytes}
    {past history : List Moment}
    (h : Alike data data' history)
    (hPast : past <:+ history) :
    Alike data data' past := by
  refine ⟨h.size, ?_⟩
  rintro i ⟨m, hm, hCovers⟩
  exact h.bytes i ⟨m, hPast.subset hm, hCovers⟩

/- Bytes that are alike one by one make the same part. -/
theorem extract_eq
    {data data' : Bytes}
    {start stop : Nat}
    (h :
      ∀ i, start ≤ i → i < stop → data'[i]? = data[i]?)
    (hSize : data'.size = data.size) :
    data'.extract start stop = data.extract start stop := by
  apply Array.ext_getElem?
  intro i
  rw [Array.getElem?_extract, Array.getElem?_extract, hSize]
  split
  next hInside => exact h _ (by omega) (by omega)
  next => rfl

------------------------------------------------------------
-- Local Programs
------------------------------------------------------------

/- The state that a run ends in. -/
def Traced.last
    {α : Type} :
    EStateM.Result Cause Traced α → Traced
  | .ok _ s => s
  | .error _ s => s

/- Nothing happens in reading without a note. -/
theorem last_silently
    {α : Type}
    (x : Reading α)
    (s : Traced) :
    (Traced.last (silently x s)).history = s.history := by
  unfold silently
  cases x s.progress <;> rfl

/-
  Programs that come to the same where two payloads are alike.
  The first decides what has happened, and it forgets nothing.
-/
def Local
    {α : Type}
    (data data' : Bytes)
    (y y' : Tracing α) : Prop :=
  ∀ s,
    s.history <:+ (Traced.last (y s)).history ∧
      (Alike data data' (Traced.last (y s)).history →
        y' s = y s)

namespace Local

variable {α β : Type}
variable {data data' : Bytes}

/- A value that is given. -/
theorem pure
    (v : α) :
    Local data data' (Pure.pure v) (Pure.pure v) :=
  fun s => ⟨List.suffix_refl s.history, fun _ => rfl⟩

/- A failure. -/
theorem throw
    (cause : Cause) :
    Local data data' (MonadExcept.throw cause : Tracing α)
      (MonadExcept.throw cause) :=
  fun s => ⟨List.suffix_refl s.history, fun _ => rfl⟩

/- The same reading without a note. -/
theorem silently
    (x : Reading α) :
    Local data data' (silently x) (silently x) := by
  intro s
  refine ⟨?_, fun _ => rfl⟩
  unfold Tracing.silently
  cases x s.progress with
  | ok v st => exact List.suffix_refl s.history
  | error cause st => exact List.suffix_refl s.history

/- The same reading with a note behind. -/
theorem noting
    (event : Event)
    (x : Reading α) :
    Local data data' (noting event x) (noting event x) := by
  intro s
  refine ⟨?_, fun _ => rfl⟩
  cases hRun : x s.progress with
  | ok v st =>
      rw [noting_of_ok hRun]
      exact List.suffix_cons _ _
  | error cause st =>
      rw [noting_of_error hRun]
      exact List.suffix_refl _

/- Programs one after the other. -/
theorem bind
    {y y' : Tracing α}
    {g g' : α → Tracing β}
    (hFirst : Local data data' y y')
    (hNext : ∀ v, Local data data' (g v) (g' v)) :
    Local data data' (y >>= g) (y' >>= g') := by
  intro s
  rcases hFirst s with ⟨hPast, hSame⟩
  cases hRun : y s with
  | ok v s' =>
      rw [hRun] at hPast hSame
      rw [bind_of_ok hRun]
      rcases hNext v s' with ⟨hPast', hSame'⟩
      refine ⟨hPast.trans hPast', ?_⟩
      intro hAlike
      rw [bind_of_ok (hSame (hAlike.past hPast'))]
      exact hSame' hAlike
  | error cause s' =>
      rw [hRun] at hPast hSame
      rw [bind_of_error hRun]
      refine ⟨hPast, ?_⟩
      intro hAlike
      exact bind_of_error (hSame hAlike) g'

end Local

------------------------------------------------------------
-- Payloads
------------------------------------------------------------

namespace Payload

variable {p p' : Payload}
variable (hSize : p'.data.size = p.data.size)
variable (r : Record)

include hSize

/- Failures tell nothing of a payload but its size. -/
theorem fail_eq
    {α : Type}
    (fault : RecordFault)
    (type : UInt8)
    (count : Nat) :
    (p'.fail fault type count : Reading α) =
      p.fail fault type count := by
  unfold Payload.fail
  rw [hSize]

/- Nor does reserving a block. -/
theorem reserve_eq :
    p'.reserve r = p.reserve r := by
  unfold Payload.reserve
  simp only [fail_eq hSize]

/- Nor does a name that needs no text. -/
theorem name_eq
    (hNumber :
      r.length = systemNameLength ∨ r.length = 0 ∨
        maxLongNameLength < r.length.toNat) :
    p'.name r = p.name r := by
  unfold Payload.name
  by_cases hIndex : r.length = systemNameLength
  · simp only [if_pos hIndex, fail_eq hSize]
  · rw [if_neg hIndex, if_neg hIndex]
    by_cases hEmpty : r.length = 0
    · rw [if_pos hEmpty, if_pos hEmpty, fail_eq hSize]
    · have hLong :=
        (hNumber.resolve_left hIndex).resolve_left hEmpty
      rw [if_neg hEmpty, if_neg hEmpty, if_pos hLong,
        if_pos hLong, fail_eq hSize]

/- Nor do simple values. -/
theorem unused_eq
    (valueToo : Bool) :
    p'.unused r valueToo = p.unused r valueToo := by
  unfold Payload.unused
  rw [fail_eq hSize]

theorem boolean_eq :
    p'.boolean r = p.boolean r := by
  unfold Payload.boolean
  rw [fail_eq hSize]

/- Text that is too far out is so by the sizes alone. -/
theorem text_of_error
    {st st' : Progress}
    {cause : Cause}
    (h : p.text r st = .error cause st') :
    p'.text r st = .error cause st' := by
  unfold Payload.text at h ⊢
  dsimp only at h ⊢
  by_cases hEmpty : r.length.toNat = 0
  · rw [if_pos hEmpty] at h
    contradiction
  · rw [if_neg hEmpty, get_bind] at h ⊢
    by_cases hOutside :
        r.value.toNat < st.recordsEnd ∨
          p.data.size < r.value.toNat + r.length.toNat
    · rw [if_pos hOutside] at h
      rw [hSize, if_pos hOutside, fail_eq hSize]
      exact h
    · rw [if_neg hOutside] at h
      contradiction

/- Text depends on the bytes that it is made of. -/
theorem text_eq
    (hSame :
      ∀ i, r.value.toNat ≤ i →
        i < r.value.toNat + r.length.toNat →
          p'.data[i]? = p.data[i]?) :
    p'.text r = p.text r := by
  unfold Payload.text
  simp only [fail_eq hSize, hSize, extract_eq hSame hSize]

/- A record depends on its bytes and their order. -/
theorem record_eq
    (hOrder : p'.order = p.order)
    {offset : Nat}
    (hSame :
      ∀ i, offset ≤ i → i < offset + recordSize →
        p'.data[i]? = p.data[i]?) :
    p'.record offset = p.record offset := by
  unfold Payload.record
  simp only [fail_eq hSize, hSize, hOrder,
    extract_eq hSame hSize]

------------------------------------------------------------
-- Fields
------------------------------------------------------------

/- Asking for a record. -/
theorem traceRecord_local
    (hOrder : p'.order = p.order)
    (offset : Nat) :
    Local p.data p'.data (p.traceRecord offset)
      (p'.traceRecord offset) := by
  intro s
  have hNote :
      note (.record offset) s =
        .ok () ⟨s.progress,
          ⟨.record offset, s.progress.recordsEnd,
            s.progress.textStart⟩ :: s.history⟩ := rfl
  unfold traceRecord
  rw [bind_of_ok hNote, bind_of_ok hNote, last_silently]
  refine ⟨List.suffix_cons _ _, ?_⟩
  intro hAlike
  have hSame : p'.record offset = p.record offset := by
    apply record_eq hSize hOrder
    intro i hStart hStop
    exact hAlike.bytes i
      ⟨_, List.mem_cons_self .., .inl ⟨hStart, hStop⟩⟩
  rw [hSame]

/- Taking text. -/
theorem traceText_local :
    Local p.data p'.data (p.traceText r)
      (p'.traceText r) := by
  unfold traceText
  split
  next hEmpty =>
    have hSame : p'.text r = p.text r :=
      text_eq hSize r (fun i _ _ => by omega)
    rw [hSame]
    exact .silently _
  next =>
    intro s
    cases hRun : p.text r s.progress with
    | ok bytes st =>
        rw [noting_of_ok hRun]
        refine ⟨List.suffix_cons _ _, ?_⟩
        intro hAlike
        have hSame : p'.text r = p.text r := by
          apply text_eq hSize
          intro i hStart hStop
          exact hAlike.bytes i
            ⟨_, List.mem_cons_self ..,
              .inr ⟨hStart, hStop⟩⟩
        rw [hSame]
        exact noting_of_ok hRun
    | error cause st =>
        rw [noting_of_error hRun]
        refine ⟨List.suffix_refl _, fun _ => ?_⟩
        exact noting_of_error (text_of_error hSize r hRun)

/- Reserving a block. -/
theorem traceReserve_local :
    Local p.data p'.data (p.traceReserve r)
      (p'.traceReserve r) := by
  unfold traceReserve
  rw [reserve_eq hSize]
  split
  · exact .silently _
  · exact .noting _ _

/- Reading a name. -/
theorem traceName_local :
    Local p.data p'.data (p.traceName r)
      (p'.traceName r) := by
  unfold traceName
  split
  next hNumber =>
    rw [name_eq hSize r hNumber]
    exact .silently _
  next =>
    exact .bind (traceText_local hSize r)
      (fun _ => .silently _)

end Payload

------------------------------------------------------------
-- Objects
------------------------------------------------------------

variable {ε : Type}
variable [Environment ε]
variable {p p' : Payload}
variable (hSize : p'.data.size = p.data.size)
variable (hOrder : p'.order = p.order)

/- Blocks that may be read in either payload. -/
abbrev LocalBlocks
    (data data' : Bytes)
    (nested nested' : Nat → Nat → Tracing (List Object)) :
    Prop :=
  ∀ offset count,
    Local data data' (nested offset count)
      (nested' offset count)

include hSize

/- Reading what a record stands for. -/
theorem traceContents_local
    (env : ε)
    {nested nested' : Nat → Nat → Tracing (List Object)}
    (hNested : LocalBlocks p.data p'.data nested nested')
    (r : Record)
    (type : RecordType) :
    Local p.data p'.data (traceContents p env nested r type)
      (traceContents p' env nested' r type) := by
  cases type with
  | null | mark | integer =>
      unfold traceContents contents
      dsimp only
      rw [Payload.unused_eq hSize]
      exact .silently _
  | boolean =>
      unfold traceContents contents
      dsimp only
      rw [Payload.unused_eq hSize, Payload.boolean_eq hSize]
      exact .silently _
  | real => exact .silently _
  | string =>
      exact .bind (Payload.traceText_local hSize r)
        (fun _ => .pure _)
  | name =>
      exact .bind (Payload.traceName_local hSize r)
        (fun _ => .pure _)
  | immediateName =>
      exact .bind (Payload.traceName_local hSize r)
        (fun _ => .silently _)
  | array =>
      refine .bind (Payload.traceReserve_local hSize r) ?_
      intro _
      refine .bind (hNested _ _) ?_
      intro elements
      cases makeArray env r.executable elements with
      | ok o => exact .pure o
      | error cause => exact .throw cause

include hOrder

/- Reading an object. -/
theorem traceObject_local
    (env : ε)
    {nested nested' : Nat → Nat → Tracing (List Object)}
    (hNested : LocalBlocks p.data p'.data nested nested')
    (offset : Nat) :
    Local p.data p'.data (traceObject p env nested offset)
      (traceObject p' env nested' offset) := by
  refine .bind (Payload.traceRecord_local hSize hOrder offset)
    ?_
  intro r
  cases RecordType.ofCode? r.type with
  | none =>
      dsimp only
      rw [Payload.fail_eq hSize]
      exact .silently _
  | some type =>
      exact traceContents_local hSize env hNested r type

omit hSize hOrder in
/- Reading objects one after another. -/
theorem traceObjectsAfter_local
    {data data' : Bytes}
    {read read' : Nat → Tracing Object}
    (hRead :
      ∀ offset, Local data data' (read offset) (read' offset))
    (done : Array Object)
    (n offset : Nat) :
    Local data data' (traceObjectsAfter read done n offset)
      (traceObjectsAfter read' done n offset) := by
  induction n generalizing done offset with
  | zero => exact .pure _
  | succ n ih =>
      exact .bind (hRead offset)
        (fun o => ih (done.push o) (offset + recordSize))

/- Reading a block. -/
theorem traceBlock_local
    (env : ε)
    (levels : Nat) :
    LocalBlocks p.data p'.data (traceBlock p env levels)
      (traceBlock p' env levels) := by
  induction levels with
  | zero =>
      intro offset count
      unfold traceBlock
      rw [Payload.fail_eq hSize]
      exact .silently _
  | succ levels ih =>
      intro offset count
      exact traceObjectsAfter_local
        (traceObject_local hSize hOrder env ih) #[] count
        offset

omit hSize hOrder in
/- What happens has happened when the array is made. -/
theorem finish_snd
    (env : ε)
    (result : EStateM.Result Cause Traced (List Object)) :
    (Traced.finish env result).2 =
      (Traced.last result).history := by
  cases result with
  | ok elements s =>
      unfold Traced.finish Traced.last
      dsimp only
      cases makeArray env true elements <;> rfl
  | error cause s => rfl

omit hSize hOrder in
/-
  Bytes that were not looked at may be replaced: nothing else
  happens then, and the result is the same.
-/
theorem tracePayload_local
    (env : ε)
    (h : Header)
    {data data' : Bytes}
    (names : NameTable)
    (hAlike :
      Alike data data' (tracePayload env h data names).2) :
    tracePayload env h data' names =
      tracePayload env h data names := by
  unfold tracePayload at hAlike ⊢
  dsimp only at hAlike ⊢
  by_cases hShort : data.size < h.count.toNat * recordSize
  · rw [if_pos hShort] at hAlike ⊢
    rw [hAlike.size, if_pos hShort]
  · rw [if_neg hShort] at hAlike ⊢
    rw [hAlike.size, if_neg hShort]
    rw [finish_snd] at hAlike
    have hSize :
        (⟨data', h.format.order⟩ : Payload).data.size =
          (⟨data, h.format.order⟩ : Payload).data.size :=
      hAlike.size
    have hBlock :=
      traceBlock_local hSize rfl env (maxNesting + 1) 0
        h.count.toNat
        (Traced.start names h.count.toNat data.size)
    rw [hBlock.2 hAlike]

end PostScript.Sequence
