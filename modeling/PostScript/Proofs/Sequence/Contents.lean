import PostScript.Proofs.Run
import PostScript.Sequence.Reading

/-
  This file separates reading an object into reading its
  record and reading what the record stands for, type by type.

  Key definitions include:
    * `Sequence.contents`
    * `Sequence.Manner`

  Main results:
    * `Sequence.object_eq`
    * `Sequence.object_of_record`
    * `Sequence.run_of_ok`
    * `Sequence.Manner.readsAll_block`
-/

namespace PostScript.Sequence

variable {ε : Type}
variable [Environment ε]

/- Read what a record of a given type stands for. -/
def contents
    (p : Payload)
    (env : ε)
    (nested : Nat → Nat → Reading (List Object))
    (r : Record) : RecordType → Reading Object
  | .null => do
      p.unused r true
      pure (Object.null.withExecutable r.executable)
  | .mark => do
      p.unused r true
      pure (Object.mark.withExecutable r.executable)
  | .integer => do
      p.unused r false
      pure ((Object.integer r.value.toInt32).withExecutable
        r.executable)
  | .boolean => do
      p.unused r false
      let v ← p.boolean r
      pure ((Object.boolean v).withExecutable r.executable)
  | .real => do
      let v ← Payload.real r
      pure ((Object.real v).withExecutable r.executable)
  | .string => do
      let bytes ← p.text r
      pure ((Object.string bytes
        (Environment.newAttrs env)).withExecutable
          r.executable)
  | .name => do
      let name ← p.name r
      pure (Object.name name r.executable)
  | .immediateName => do
      let name ← p.name r
      Payload.binding env name
  | .array => do
      p.reserve r
      let elements ← nested r.value.toNat r.length.toNat
      match makeArray env r.executable elements with
      | .ok o => pure o
      | .error cause => throw cause

/- Reading an object is reading its record and the rest. -/
theorem object_eq
    (p : Payload)
    (env : ε)
    (nested : Nat → Nat → Reading (List Object))
    (offset : Nat) :
    object p env nested offset =
      (p.record offset >>= fun r =>
        match RecordType.ofCode? r.type with
        | none => p.fail .unknownType r.type 0
        | some type => contents p env nested r type) := by
  unfold object
  congr 1
  funext r
  cases RecordType.ofCode? r.type with
  | none => rfl
  | some type => cases type <;> rfl

/- A record that is read decides how reading goes on. -/
theorem object_of_record
    {p : Payload}
    (env : ε)
    (nested : Nat → Nat → Reading (List Object))
    {offset : Nat}
    {r : Record}
    {st st' : Progress}
    (hRecord : p.record offset st = .ok r st')
    (type : RecordType)
    (hType : r.type = type.code) :
    object p env nested offset st =
      contents p env nested r type st' := by
  rw [object_eq, bind_of_ok hRecord, hType,
    RecordType.ofCode?_code]

/- A run that succeeds keeps nothing but the names. -/
theorem run_of_ok
    {α : Type}
    {x : Reading α}
    {names : NameTable}
    {count size : Nat}
    {v : α}
    {st : Progress}
    (h : x (Progress.start names count size) = .ok v st) :
    x.run count size names = .ok v st.names := by
  unfold Reading.run EStateM.run
  rw [h]

/- So does a run that fails. -/
theorem run_of_error
    {α : Type}
    {x : Reading α}
    {names : NameTable}
    {count size : Nat}
    {cause : Cause}
    {st : Progress}
    (h :
      x (Progress.start names count size) = .error cause st) :
    x.run count size names = .error cause st.names := by
  unfold Reading.run EStateM.run
  rw [h]

------------------------------------------------------------
-- Reading Elements
------------------------------------------------------------

/-
  How reading goes: how the state changes, where reading may
  start, what an object is that has been read, and for which
  reasons reading fails. What holds goes on to hold while the
  state changes.
-/
structure Manner where
  changes : Progress → Progress → Prop
  starts : Progress → Prop
  gives : Object → Progress → Prop
  fails : Cause → Prop
  onward : Onward changes
  starts_of_changes :
    ∀ {st st'}, changes st st' → starts st → starts st'
  gives_of_changes :
    ∀ {o st st'}, changes st st' → gives o st → gives o st'

namespace Manner

variable (M : Manner)

instance : Onward M.changes :=
  M.onward

/- An object is read in this manner. -/
def Reads
    (x : Reading Object) : Prop :=
  ∀ st, M.starts st → Goes M.changes M.gives x st M.fails

/- So are several objects. -/
def ReadsAll
    (x : Reading (List Object)) : Prop :=
  ∀ st, M.starts st →
    Goes M.changes (fun es st => ∀ e ∈ es, M.gives e st) x st
      M.fails

variable {M}

/-
  Objects are read one after another, by induction on their
  number; those already read remain what they are.
-/
theorem readsAll_objectsAfter
    {read : Nat → Reading Object}
    (hRead : ∀ offset, M.Reads (read offset))
    (n offset : Nat)
    {done : Array Object}
    {st : Progress}
    (hStart : M.starts st)
    (hDone : ∀ e ∈ done.toList, M.gives e st) :
    Goes M.changes (fun es st => ∀ e ∈ es, M.gives e st)
      (objectsAfter read done n offset) st M.fails := by
  induction n generalizing offset done st with
  | zero => exact Goes.pure hDone
  | succ n ih =>
      refine Goes.bind (hRead offset st hStart) ?_
      intro o st' hChange hGiven
      apply ih _ (M.starts_of_changes hChange hStart)
      intro e he
      rw [Array.toList_push, List.mem_append,
        List.mem_singleton] at he
      rcases he with he | rfl
      · exact M.gives_of_changes hChange (hDone e he)
      · exact hGiven

/-
  Blocks are read in a manner if objects are, given the same
  of the blocks inside them.
-/
theorem readsAll_block
    {p : Payload}
    {env : ε}
    (hObject :
      ∀ nested : Nat → Nat → Reading (List Object),
        (∀ offset count, M.ReadsAll (nested offset count)) →
          ∀ offset, M.Reads (object p env nested offset))
    (hFail :
      ∀ count,
        M.fails (.record .nestedTooDeeply
          RecordType.array.code count p.data.size))
    (levels offset count : Nat) :
    M.ReadsAll (block p env levels offset count) := by
  induction levels generalizing offset count with
  | zero => exact fun _ _ => Goes.fail (hFail count)
  | succ levels ih =>
      intro st hStart
      exact readsAll_objectsAfter (hObject _ ih) count offset
        hStart (fun e he => by simp at he)

end Manner

/-
  What holds of reading behind a header holds of what is kept
  of it.
-/
theorem goes_run
    {α : Type}
    {R : Progress → Progress → Prop}
    {R' : NameTable → NameTable → Prop}
    {V : α → NameTable → Prop}
    {E : Cause → Prop}
    {x : Reading α}
    {names : NameTable}
    {count size : Nat}
    (h :
      Goes R (fun v st => V v st.names) x
        (Progress.start names count size) E)
    (hChange :
      ∀ st, R (Progress.start names count size) st →
        R' names st.names) :
    Goes R' V (x.run count size) names E := by
  unfold Goes at h ⊢
  split at h
  next hRun =>
    rw [run_of_ok hRun]
    exact ⟨hChange _ h.1, h.2⟩
  next hRun =>
    rw [run_of_error hRun]
    exact ⟨hChange _ h.1, h.2⟩

end PostScript.Sequence
