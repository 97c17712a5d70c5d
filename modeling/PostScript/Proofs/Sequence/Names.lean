import PostScript.Proofs.Sequence.Contents
import PostScript.Proofs.Workspace.Reads

/-
  This file shows that reading a binary object sequence makes
  and recalls names and does nothing else to the table, and
  that all names in the objects it gives are in the table.

  Key definitions include:
    * `Sequence.NamesRead`
    * `Sequence.knowing`

  Main results:
    * `Sequence.block_goes`
    * `Sequence.readPayload_goes`
    * `Sequence.read_goes`
-/

namespace PostScript

------------------------------------------------------------
-- Known Objects
------------------------------------------------------------

namespace NameTable

variable {t : NameTable}

/- An array is known if its elements are. -/
theorem knows_array
    {es : List Object}
    (h : ∀ e ∈ es, t.Knows e)
    (a : Attributes) :
    t.Knows (.array es a) := by
  intro n hn
  rcases (Object.mem_names_array n es a).mp hn with
    ⟨e, he, hn⟩
  exact h e he n hn

/- An object that is no name and no array is known. -/
theorem knows_of_names_nil
    {o : Object}
    (h : o.names = []) :
    t.Knows o := by
  intro n hn
  rw [h] at hn
  contradiction

/- A name is known if it has an entry. -/
theorem knows_name
    {n : Name}
    (hn : t.Holds n)
    (a : Attributes) :
    t.Knows (.atom (.name n) a) := by
  intro m hm
  simp only [Object.names, Object.namesBefore,
    List.mem_singleton] at hm
  rw [hm]
  exact hn

/- An array that is made is known if its elements are. -/
theorem knows_makeArray
    {ε : Type}
    [Environment ε]
    {env : ε}
    {executable : Bool}
    {es : List Object}
    (h : ∀ e ∈ es, t.Knows e)
    {o : Object}
    (hMake : makeArray env executable es = .ok o) :
    t.Knows o := by
  unfold makeArray at hMake
  split at hMake
  · contradiction
  · split at hMake
    · contradiction
    · simp only [Except.ok.injEq] at hMake
      rw [← hMake]
      exact knows_array h _

end NameTable

namespace Sequence

variable {env : Scope}

/- The table of names changes as by reading. -/
def NamesRead
    (env : Scope)
    (st st' : Progress) : Prop :=
  Reads st.names env st'.names env

instance : Onward (NamesRead env) where
  refl _ := .refl
  trans := Reads.trans

/- An object that the table knows when it has been read. -/
abbrev KnownObject
    (o : Object)
    (st : Progress) : Prop :=
  st.names.Knows o

/- Nothing is said about a value. -/
abbrev Anything
    {α : Type}
    (_ : α)
    (_ : Progress) : Prop :=
  True

------------------------------------------------------------
-- Fields
------------------------------------------------------------

namespace Payload

variable {p : Payload}
variable {r : Record}
variable {st : Progress}

/- Reading a record leaves the names alone. -/
theorem record_goes
    (offset : Nat) :
    Goes (NamesRead env) Anything (p.record offset) st := by
  unfold Payload.record
  apply Goes.get_bind
  split
  · exact Goes.throw _
  · apply Goes.set_bind .refl
    split
    · exact Goes.throw _
    · split
      · exact Goes.pure trivial
      · exact Goes.throw _

/- So does reading text. -/
theorem text_goes :
    Goes (NamesRead env) Anything (p.text r) st := by
  unfold Payload.text
  dsimp only
  split
  · exact Goes.pure trivial
  · apply Goes.get_bind
    split
    · exact Goes.throw _
    · exact Goes.set_bind .refl (Goes.pure trivial)

/- So does reserving a block. -/
theorem reserve_goes :
    Goes (NamesRead env) Anything (p.reserve r) st := by
  unfold Payload.reserve
  dsimp only
  split
  · exact Goes.pure trivial
  · split
    · exact Goes.throw _
    · apply Goes.get_bind
      split
      · exact Goes.throw _
      · exact Goes.set .refl trivial

/- So do the checks of simple values. -/
theorem unused_goes
    (valueToo : Bool) :
    Goes (NamesRead env) Anything (p.unused r valueToo)
      st := by
  unfold Payload.unused
  split
  · exact Goes.throw _
  · exact Goes.pure trivial

theorem boolean_goes :
    Goes (NamesRead env) Anything (p.boolean r) st := by
  unfold Payload.boolean
  split
  · exact Goes.pure trivial
  · split
    · exact Goes.pure trivial
    · exact Goes.throw _

theorem real_goes :
    Goes (NamesRead env) Anything (Payload.real r) st := by
  unfold Payload.real
  split
  · split
    · exact Goes.pure trivial
    · exact Goes.throw _
  · split
    · exact Goes.pure trivial
    · exact Goes.throw _

/- A name that is made is in the table. -/
theorem internLong_goes
    (bytes : Bytes) :
    Goes (NamesRead env) (fun n st => st.names.Holds n)
      (internLong bytes) st := by
  unfold Payload.internLong
  apply Goes.get_bind
  have hReads :
      Reads st.names env (st.names.internLong bytes).2 env :=
    .intern maxLongNameLength bytes .refl
  split
  next n names hIntern =>
    rw [hIntern] at hReads
    exact Goes.set_bind hReads
      (Goes.pure (NameTable.holds_of_internWithin hIntern).1)
  next cause names hIntern =>
    rw [hIntern] at hReads
    exact Goes.set_bind hReads (Goes.throw _)

/- A name that a record refers to is in the table. -/
theorem name_goes
    (hGrounded : env.Grounded st.names) :
    Goes (NamesRead env) (fun n st => st.names.Holds n)
      (p.name r) st := by
  unfold Payload.name
  split
  · apply Goes.get_bind
    split
    next n hSystem =>
      exact Goes.pure (hGrounded.holds_systemName hSystem)
    next => exact Goes.throw _
  · split
    · exact Goes.throw _
    · split
      · exact Goes.throw _
      · exact Goes.bind text_goes
          (fun _ _ _ _ => internLong_goes _)

/- The binding of a name is known. -/
theorem binding_goes
    {n : Name}
    (hn : st.names.Holds n)
    (hGrounded : env.Grounded st.names) :
    Goes (NamesRead env) KnownObject (binding env n) st := by
  unfold Payload.binding
  apply Goes.get_bind
  have hReads :
      Reads st.names env (st.names.load env n).2 env :=
    .lookUp hn .refl
  have hKnows : ∀ v, (st.names.load env n).1 = some v →
      (st.names.load env n).2.Knows v :=
    fun v hLoad =>
      hReads.knows (hGrounded.knows_load hLoad)
  split
  next v names hLoad =>
    rw [hLoad] at hReads hKnows
    exact Goes.set_bind hReads (Goes.pure (hKnows v rfl))
  next names hLoad =>
    rw [hLoad] at hReads
    exact Goes.set_bind hReads (Goes.throw _)

end Payload

------------------------------------------------------------
-- Objects
------------------------------------------------------------

/- Objects are known once they are read. -/
def knowing
    (env : Scope) : Manner where
  changes := NamesRead env
  starts st := env.Grounded st.names
  gives := KnownObject
  fails _ := True
  onward := inferInstance
  starts_of_changes h hGrounded := h.grounded hGrounded
  gives_of_changes h hKnown := h.knows hKnown

/- What a record stands for is known. -/
theorem contents_goes
    (p : Payload)
    {nested : Nat → Nat → Reading (List Object)}
    (hNested :
      ∀ offset count,
        (knowing env).ReadsAll (nested offset count))
    (r : Record)
    (type : RecordType)
    {st : Progress}
    (hGrounded : env.Grounded st.names) :
    Goes (NamesRead env) KnownObject
      (contents p env nested r type) st := by
  cases type with
  | null =>
      exact Goes.bind (Payload.unused_goes true)
        (fun _ _ _ _ =>
          Goes.pure (NameTable.knows_of_names_nil rfl))
  | mark =>
      exact Goes.bind (Payload.unused_goes true)
        (fun _ _ _ _ =>
          Goes.pure (NameTable.knows_of_names_nil rfl))
  | integer =>
      exact Goes.bind (Payload.unused_goes false)
        (fun _ _ _ _ =>
          Goes.pure (NameTable.knows_of_names_nil rfl))
  | boolean =>
      refine Goes.bind (Payload.unused_goes false) ?_
      intro _ _ _ _
      exact Goes.bind Payload.boolean_goes
        (fun _ _ _ _ =>
          Goes.pure (NameTable.knows_of_names_nil rfl))
  | real =>
      refine Goes.bind Payload.real_goes ?_
      intro v _ _ _
      apply Goes.pure
      apply NameTable.knows_of_names_nil
      unfold Object.real
      split <;> rfl
  | string =>
      exact Goes.bind Payload.text_goes
        (fun _ _ _ _ =>
          Goes.pure (NameTable.knows_of_names_nil rfl))
  | name =>
      exact Goes.bind (Payload.name_goes hGrounded)
        (fun _ _ _ hn =>
          Goes.pure (NameTable.knows_name hn _))
  | immediateName =>
      exact Goes.bind (Payload.name_goes hGrounded)
        (fun _ _ hReads hn =>
          Payload.binding_goes hn (hReads.grounded hGrounded))
  | array =>
      refine Goes.bind Payload.reserve_goes ?_
      intro _ _ hReads _
      refine Goes.bind
        (hNested _ _ _ (hReads.grounded hGrounded)) ?_
      intro es _ _ hKnown
      split
      next o hMake =>
        exact Goes.pure
          (NameTable.knows_makeArray hKnown hMake)
      next => exact Goes.throw _

/- An object that is read is known. -/
theorem object_goes
    (p : Payload)
    {nested : Nat → Nat → Reading (List Object)}
    (hNested :
      ∀ offset count,
        (knowing env).ReadsAll (nested offset count))
    (offset : Nat)
    {st : Progress}
    (hGrounded : env.Grounded st.names) :
    Goes (NamesRead env) KnownObject
      (object p env nested offset) st := by
  rw [object_eq]
  refine Goes.bind (Payload.record_goes offset) ?_
  intro r _ hReads _
  split
  · exact Goes.throw _
  · exact contents_goes p hNested r _
      (hReads.grounded hGrounded)

/- The elements of a block are known. -/
theorem block_goes
    (p : Payload)
    (levels offset count : Nat) :
    (knowing env).ReadsAll
      (block p env levels offset count) :=
  Manner.readsAll_block
    (fun _ hNested offset _ hGrounded =>
      object_goes p hNested offset hGrounded)
    (fun _ => trivial) levels offset count

------------------------------------------------------------
-- Sequences
------------------------------------------------------------

/- The table of names changes as by reading, and alone. -/
def TableRead
    (env : Scope)
    (t t' : NameTable) : Prop :=
  Reads t env t' env

instance : Onward (TableRead env) where
  refl _ := .refl
  trans := Reads.trans

/- The array that a payload holds is known. -/
theorem readPayload_goes
    (h : Header)
    (data : Bytes)
    {t : NameTable}
    (hGrounded : env.Grounded t) :
    Goes (TableRead env) (fun o t => t.Knows o)
      (readPayload env h data) t := by
  unfold readPayload
  dsimp only
  split
  · exact Goes.throw _
  · have hBlock :
        Goes (TableRead env)
          (fun es t => ∀ e ∈ es, t.Knows e)
          ((block ⟨data, h.format.order⟩ env
            (maxNesting + 1) 0 h.count.toNat).run
              h.count.toNat data.size) t :=
      goes_run
        (block_goes ⟨data, h.format.order⟩ (maxNesting + 1) 0
          h.count.toNat _ hGrounded)
        (fun _ hReads => hReads)
    refine Goes.bind hBlock ?_
    intro es _ _ hKnown
    split
    next o hMake =>
      exact Goes.pure (NameTable.knows_makeArray hKnown hMake)
    next => exact Goes.throw _

/- So is the array of a whole sequence. -/
theorem read_goes
    (data : Bytes)
    {t : NameTable}
    (hGrounded : env.Grounded t) :
    Goes (TableRead env) (fun r t => t.Knows r.1)
      (read env data) t := by
  unfold read
  split
  · exact Goes.throw _
  · dsimp only
    split
    · exact Goes.throw _
    · exact Goes.bind (readPayload_goes _ _ hGrounded)
        (fun _ _ _ hKnown => Goes.pure hKnown)

end Sequence

end PostScript
