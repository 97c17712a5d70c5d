import PostScript.Proofs.Alongside
import PostScript.Proofs.Environment.Sealed
import PostScript.Proofs.Name.Growth
import PostScript.Proofs.Sequence.Contents

/-
  This file shows that reading a sequence fails alike with
  different tables of names and in different environments, if
  the system names are the same, no name has a value, and new
  objects go to the same memory.

  Key definitions include:
    * `Environment.Bare`
    * `NameTable.Peers`
    * `Object.Fits`

  Main results:
    * `NameTable.internWithin_peers`
    * `makeArray_fits`
    * `Sequence.block_alongside`
    * `Sequence.readPayload_alongside`
-/

namespace PostScript

------------------------------------------------------------
-- Environments
------------------------------------------------------------

section Environments

variable {ε : Type}
variable [Environment ε]

/- No name has a value, and new objects go to this memory. -/
structure Environment.Bare
    (vm : Vm)
    (env : ε) : Prop where
  find : ∀ hint n, Environment.find env hint n = none
  vm : Environment.vm env = vm

/- A name is looked up in vain, and the table stays as it is. -/
theorem NameTable.load_bare
    {vm : Vm}
    {env : ε}
    (hBare : Environment.Bare vm env)
    (t : NameTable)
    (n : Name) :
    t.load env n = (none, t) := by
  unfold load
  rw [hBare.find]

end Environments

------------------------------------------------------------
-- Tables
------------------------------------------------------------

namespace NameTable

variable {system : Array Name}

/- Two tables with the same system names. -/
structure Peers
    (system : Array Name)
    (t t' : NameTable) : Prop where
  left : t.system = system
  right : t'.system = system

/- To make a name is to make no system name. -/
theorem system_internWithin
    (t : NameTable)
    (limit : Nat)
    (bytes : Bytes) :
    (t.internWithin limit bytes).2.system = t.system := by
  rcases t.internWithin_cases limit bytes with
    ⟨-, h⟩ | ⟨n, -, -, h⟩ | ⟨-, -, h⟩
  · rw [h]
  · rw [h]
  · rw [h]
    rfl

/- Names that may differ in all but their bytes. -/
def Spelled
    (n n' : Name) : Prop :=
  n'.bytes = n.bytes

/-
  Whether a name can be made depends on its length alone, and
  peers remain peers.
-/
theorem internWithin_peers
    {t t' : NameTable}
    (hPeers : Peers system t t')
    (limit : Nat)
    (bytes : Bytes) :
    (∃ n u n' u',
      t.internWithin limit bytes = (.ok n, u) ∧
        t'.internWithin limit bytes = (.ok n', u') ∧
          Spelled n n' ∧ Peers system u u') ∨
      (t.internWithin limit bytes = (.error .tooLong, t) ∧
        t'.internWithin limit bytes = (.error .tooLong, t')) :=
    by
  by_cases hLong : limit < bytes.size
  · exact .inr ⟨if_pos hLong, if_pos hLong⟩
  · have hShort : bytes.size ≤ limit := Nat.le_of_not_lt hLong
    rcases t.internWithin_ok hShort with ⟨n, u, h⟩
    rcases t'.internWithin_ok hShort with ⟨n', u', h'⟩
    have hSystem := t.system_internWithin limit bytes
    have hSystem' := t'.system_internWithin limit bytes
    rw [h] at hSystem
    rw [h'] at hSystem'
    refine .inl ⟨n, u, n', u', h, h', ?_, ?_⟩
    · exact (holds_of_internWithin h').2.trans
        (holds_of_internWithin h).2.symm
    · exact ⟨hSystem.trans hPeers.left,
        hSystem'.trans hPeers.right⟩

/- A number stands for the same system name in both. -/
theorem Peers.systemName?_eq
    {t t' : NameTable}
    (hPeers : Peers system t t')
    (index : Nat) :
    t'.systemName? index = t.systemName? index := by
  unfold systemName?
  rw [hPeers.left, hPeers.right]

end NameTable

------------------------------------------------------------
-- Objects
------------------------------------------------------------

/- Objects that may be put into any array in this memory. -/
def Object.Fits
    (vm : Vm)
    (o o' : Object) : Prop :=
  o.isIllegalIn vm = false ∧ o'.isIllegalIn vm = false

namespace Object

variable {ε : Type}
variable [Environment ε]
variable {vm : Vm}
variable {env env' : ε}

/- Simple objects may be put everywhere. -/
theorem fits_simple
    {o o' : Object}
    (h : o.isComposite = false)
    (h' : o'.isComposite = false) :
    Fits vm o o' := by
  simp [Fits, isIllegalIn, h, h']

/- What is new in this memory may be put there. -/
theorem legal_of_vm
    {o : Object}
    (h : o.attrs.vm = vm) :
    o.isIllegalIn vm = false := by
  cases vm <;> simp [isIllegalIn, h]

/- New strings are in this memory. -/
theorem fits_string
    (hBare : Environment.Bare vm env)
    (hBare' : Environment.Bare vm env')
    (bytes : Bytes)
    (executable : Bool) :
    Fits vm
      ((string bytes (Environment.newAttrs env)).withExecutable
        executable)
      ((string bytes
        (Environment.newAttrs env')).withExecutable
          executable) :=
  ⟨legal_of_vm hBare.vm, legal_of_vm hBare'.vm⟩

end Object

section Arrays

variable {ε : Type}
variable [Environment ε]
variable {vm : Vm}
variable {env env' : ε}

/- An array in this memory is made if it is not too long. -/
theorem makeArray_bare
    (hBare : Environment.Bare vm env)
    (executable : Bool)
    {es : List Object}
    (hLegal : ∀ e ∈ es, e.isIllegalIn vm = false)
    (hLength : es.length ≤ maxArrayLength) :
    ∃ o, makeArray env executable es = .ok o ∧
      o.isIllegalIn vm = false := by
  rw [← hBare.vm] at hLegal
  exact ⟨_, makeArray_of_legal executable hLength hLegal,
    Object.legal_of_vm hBare.vm⟩

/- Whether one is made depends on its length alone. -/
theorem makeArray_fits
    (hBare : Environment.Bare vm env)
    (hBare' : Environment.Bare vm env')
    (executable : Bool)
    {es es' : List Object}
    (hElements : List.Forall₂ (Object.Fits vm) es es') :
    (∃ o o',
      makeArray env executable es = .ok o ∧
        makeArray env' executable es' = .ok o' ∧
          Object.Fits vm o o') ∨
      (makeArray env executable es = .error .arrayTooLong ∧
        makeArray env' executable es' =
          .error .arrayTooLong) := by
  have hLength := hElements.length_eq
  by_cases hLong : maxArrayLength < es.length
  · refine .inr ⟨if_pos hLong, if_pos ?_⟩
    rw [← hLength]
    exact hLong
  · have hFits := Nat.le_of_not_lt hLong
    have hLegal : ∀ e ∈ es, e.isIllegalIn vm = false := by
      intro e he
      rcases exists_of_forall₂ hElements he with ⟨_, -, h⟩
      exact h.1
    have hLegal' : ∀ e ∈ es', e.isIllegalIn vm = false := by
      intro e he
      rcases exists_of_forall₂ hElements.flip he with
        ⟨_, -, h⟩
      exact h.2
    rcases makeArray_bare hBare executable hLegal hFits with
      ⟨o, hMake, hNew⟩
    rcases makeArray_bare hBare' executable hLegal'
        (hLength ▸ hFits) with
      ⟨o', hMake', hNew'⟩
    exact .inl ⟨o, o', hMake, hMake', hNew, hNew'⟩

end Arrays

------------------------------------------------------------
-- Records
------------------------------------------------------------

namespace Sequence

/- States of reading that differ in their tables alone. -/
inductive Progress.Peers
    (system : Array Name) : Progress → Progress → Prop where
  | intro
      {t t' : NameTable}
      (hNames : NameTable.Peers system t t')
      (recordsEnd textStart budget : Nat) :
      Progress.Peers system ⟨t, recordsEnd, textStart, budget⟩
        ⟨t', recordsEnd, textStart, budget⟩

variable {system : Array Name}

namespace Payload

variable (p : Payload)

/- The same record is read. -/
theorem record_alongside
    (offset : Nat) :
    Alongside (Progress.Peers system) (fun r r' => r' = r)
      (p.record offset) (p.record offset) := by
  refine .get_bind ?_
  rintro _ _ ⟨hNames, e, x, budget⟩
  dsimp only
  split
  · exact .error _ ⟨hNames, e, x, budget⟩
  · rw [set_bind, set_bind]
    split
    · exact .error _ ⟨hNames, e, x, budget - 1⟩
    · cases Record.ofBytes p.order
          (p.data.extract offset
            (offset + recordSize)).toList with
      | ok r => exact .ok rfl ⟨hNames, e, x, budget - 1⟩
      | error first =>
          exact .error _ ⟨hNames, e, x, budget - 1⟩

/- The same text is found. -/
theorem text_alongside
    (r : Record) :
    Alongside (Progress.Peers system) (fun s s' => s' = s)
      (p.text r) (p.text r) := by
  unfold Payload.text
  dsimp only
  split
  · exact .pure rfl
  · refine .get_bind ?_
    rintro _ _ ⟨hNames, e, x, budget⟩
    dsimp only
    split
    · exact .error _ ⟨hNames, e, x, budget⟩
    · exact .ok rfl ⟨hNames, e, _, budget⟩

/- The same block is reserved. -/
theorem reserve_alongside
    (r : Record) :
    Alongside (Progress.Peers system) (fun _ _ => True)
      (p.reserve r) (p.reserve r) := by
  unfold Payload.reserve
  dsimp only
  split
  · exact .pure trivial
  · split
    · exact .fail _
    · refine .get_bind ?_
      rintro _ _ ⟨hNames, e, x, budget⟩
      dsimp only
      split
      · exact .error _ ⟨hNames, e, x, budget⟩
      · exact .ok trivial ⟨hNames, _, x, budget⟩

/- The same fields are found to be zero. -/
theorem unused_alongside
    (r : Record)
    (valueToo : Bool) :
    Alongside (Progress.Peers system) (fun _ _ => True)
      (p.unused r valueToo) (p.unused r valueToo) := by
  unfold Payload.unused
  split
  · exact .fail _
  · exact .pure trivial

/- The same boolean is read. -/
theorem boolean_alongside
    (r : Record) :
    Alongside (Progress.Peers system) (fun v v' => v' = v)
      (p.boolean r) (p.boolean r) := by
  unfold Payload.boolean
  split
  · exact .pure rfl
  · split
    · exact .pure rfl
    · exact .fail _

/- The same real is read. -/
theorem real_alongside
    (r : Record) :
    Alongside (Progress.Peers system) (fun v v' => v' = v)
      (Payload.real r) (Payload.real r) := by
  unfold Payload.real
  split
  · split
    · exact .pure rfl
    · exact .fail _
  · split
    · exact .pure rfl
    · exact .fail _

/- Names of the same bytes are made. -/
theorem internLong_alongside
    (bytes : Bytes) :
    Alongside (Progress.Peers system) NameTable.Spelled
      (Payload.internLong bytes)
      (Payload.internLong bytes) := by
  refine .get_bind ?_
  rintro _ _ ⟨hNames, e, x, budget⟩
  unfold NameTable.internLong
  rcases NameTable.internWithin_peers hNames maxLongNameLength
      bytes with
    ⟨n, u, n', u', h, h', hSame, hPeers⟩ | ⟨h, h'⟩
  · dsimp only
    rw [h, h']
    exact .ok hSame ⟨hPeers, e, x, budget⟩
  · dsimp only
    rw [h, h']
    exact .error _ ⟨hNames, e, x, budget⟩

/- Names of the same bytes are referred to. -/
theorem name_alongside
    (r : Record) :
    Alongside (Progress.Peers system) NameTable.Spelled
      (p.name r) (p.name r) := by
  unfold Payload.name
  split
  · refine .get_bind ?_
    rintro _ _ ⟨hNames, e, x, budget⟩
    dsimp only
    rw [hNames.systemName?_eq]
    cases NameTable.systemName? _ r.value.toNat with
    | some n => exact .ok rfl ⟨hNames, e, x, budget⟩
    | none => exact .error _ ⟨hNames, e, x, budget⟩
  · split
    · exact .fail _
    · split
      · exact .fail _
      · refine .bind (text_alongside p r) ?_
        rintro _ bytes rfl
        exact internLong_alongside _

variable {ε : Type}
variable [Environment ε]
variable {vm : Vm}
variable {env env' : ε}

/- Neither name has a value. -/
theorem binding_alongside
    {V : Object → Object → Prop}
    (hBare : Environment.Bare vm env)
    (hBare' : Environment.Bare vm env')
    {n n' : Name}
    (hSame : NameTable.Spelled n n') :
    Alongside (Progress.Peers system) V
      (Payload.binding env n) (Payload.binding env' n') := by
  refine .get_bind ?_
  rintro _ _ ⟨hNames, e, x, budget⟩
  dsimp only
  rw [NameTable.load_bare hBare, NameTable.load_bare hBare']
  dsimp only
  rw [hSame]
  exact .error _ ⟨hNames, e, x, budget⟩

end Payload

------------------------------------------------------------
-- Blocks
------------------------------------------------------------

variable {ε : Type}
variable [Environment ε]
variable {vm : Vm}
variable {env env' : ε}

/- Arrays are made alike. -/
theorem makeArray_alongside
    {σ : Type}
    {T : σ → σ → Prop}
    (hBare : Environment.Bare vm env)
    (hBare' : Environment.Bare vm env')
    (executable : Bool)
    {es es' : List Object}
    (hElements : List.Forall₂ (Object.Fits vm) es es') :
    Alongside T (Object.Fits vm)
      (match makeArray env executable es with
        | .ok o => pure o
        | .error cause => throw cause :
          EStateM Cause σ Object)
      (match makeArray env' executable es' with
        | .ok o => pure o
        | .error cause => throw cause) := by
  rcases makeArray_fits hBare hBare' executable hElements with
    ⟨o, o', h, h', hFits⟩ | ⟨h, h'⟩
  · rw [h, h']
    exact .pure hFits
  · rw [h, h']
    exact .fail _

/- What a record stands for is read alike. -/
theorem contents_alongside
    (hBare : Environment.Bare vm env)
    (hBare' : Environment.Bare vm env')
    (p : Payload)
    {nested nested' : Nat → Nat → Reading (List Object)}
    (hNested :
      ∀ offset count,
        Alongside (Progress.Peers system)
          (List.Forall₂ (Object.Fits vm))
          (nested offset count) (nested' offset count))
    (r : Record)
    (type : RecordType) :
    Alongside (Progress.Peers system) (Object.Fits vm)
      (contents p env nested r type)
      (contents p env' nested' r type) := by
  have hSimple :
      ∀ {v v' : Atom} {a : Attributes},
        (Object.atom v a).isComposite = false →
          (Object.atom v' a).isComposite = false →
            Alongside (Progress.Peers system) (Object.Fits vm)
              (pure (.atom v a)) (pure (.atom v' a)) :=
    fun h h' => .pure (Object.fits_simple h h')
  cases type with
  | null | mark | integer =>
      exact .bind (p.unused_alongside r _)
        (fun _ => hSimple rfl rfl)
  | boolean =>
      refine .bind (p.unused_alongside r _) (fun _ => ?_)
      exact .bind (p.boolean_alongside r)
        (fun _ => hSimple rfl rfl)
  | real =>
      refine .bind (Payload.real_alongside r) ?_
      rintro _ v rfl
      unfold Object.real
      split <;> exact hSimple rfl rfl
  | string =>
      refine .bind (p.text_alongside r) ?_
      rintro _ bytes rfl
      exact .pure (Object.fits_string hBare hBare' _ _)
  | name =>
      exact .bind (p.name_alongside r)
        (fun _ => hSimple rfl rfl)
  | immediateName =>
      exact .bind (p.name_alongside r)
        (fun hSame => Payload.binding_alongside hBare hBare' hSame)
  | array =>
      refine .bind (p.reserve_alongside r) (fun _ => ?_)
      exact .bind (hNested _ _)
        (fun hElements =>
          makeArray_alongside hBare hBare' r.executable
            hElements)

/- The object at an offset is read alike. -/
theorem object_alongside
    (hBare : Environment.Bare vm env)
    (hBare' : Environment.Bare vm env')
    (p : Payload)
    {nested nested' : Nat → Nat → Reading (List Object)}
    (hNested :
      ∀ offset count,
        Alongside (Progress.Peers system)
          (List.Forall₂ (Object.Fits vm))
          (nested offset count) (nested' offset count))
    (offset : Nat) :
    Alongside (Progress.Peers system) (Object.Fits vm)
      (object p env nested offset)
      (object p env' nested' offset) := by
  rw [object_eq, object_eq]
  refine .bind (p.record_alongside offset) ?_
  rintro _ r rfl
  cases RecordType.ofCode? r.type with
  | none => exact .fail _
  | some type =>
      exact contents_alongside hBare hBare' p hNested r type

/- Objects are read alike, by induction on their number. -/
theorem objectsAfter_alongside
    {read read' : Nat → Reading Object}
    (hRead :
      ∀ offset,
        Alongside (Progress.Peers system) (Object.Fits vm)
          (read offset) (read' offset))
    {done done' : Array Object}
    (hDone :
      List.Forall₂ (Object.Fits vm) done.toList done'.toList)
    (n offset : Nat) :
    Alongside (Progress.Peers system)
      (List.Forall₂ (Object.Fits vm))
      (objectsAfter read done n offset)
      (objectsAfter read' done' n offset) := by
  induction n generalizing done done' offset with
  | zero => exact .pure hDone
  | succ n ih =>
      refine .bind (hRead offset) ?_
      intro o o' hFits
      apply ih
      rw [Array.toList_push, Array.toList_push]
      exact List.rel_append hDone (.cons hFits .nil)

/- A block is, by induction on how deep arrays may nest. -/
theorem block_alongside
    (hBare : Environment.Bare vm env)
    (hBare' : Environment.Bare vm env')
    (p : Payload)
    (levels offset count : Nat) :
    Alongside (Progress.Peers system)
      (List.Forall₂ (Object.Fits vm))
      (block p env levels offset count)
      (block p env' levels offset count) := by
  induction levels generalizing offset count with
  | zero => exact .fail _
  | succ levels ih =>
      exact objectsAfter_alongside
        (object_alongside hBare hBare' p ih) .nil count offset

------------------------------------------------------------
-- Payloads
------------------------------------------------------------

/- Runs are matched if what they keep only the names of is. -/
theorem run_alongside
    {α : Type}
    {V : α → α → Prop}
    {x y : Reading α}
    (h : Alongside (Progress.Peers system) V x y)
    (count size : Nat) :
    Alongside (NameTable.Peers system) V (x.run count size)
      (y.run count size) := by
  intro t t' hNames
  have hRuns :=
    h _ _ (.intro hNames (count * recordSize) size
      (size / recordSize))
  generalize hRun : x _ = r at hRuns
  generalize hOther : y _ = r' at hRuns
  cases hRuns with
  | ok hValue hState =>
      rcases hState with ⟨hPeers, e, s, budget⟩
      rw [run_of_ok hRun, run_of_ok hOther]
      exact .ok hValue hPeers
  | error cause hState =>
      rcases hState with ⟨hPeers, e, s, budget⟩
      rw [run_of_error hRun, run_of_error hOther]
      exact .error cause hPeers

/- The array that a payload holds is read alike. -/
theorem readPayload_alongside
    (hBare : Environment.Bare vm env)
    (hBare' : Environment.Bare vm env')
    (h : Header)
    (data : Bytes) :
    Alongside (NameTable.Peers system) (Object.Fits vm)
      (readPayload env h data) (readPayload env' h data) := by
  unfold readPayload
  dsimp only
  split
  · exact .fail _
  · refine .bind
      (run_alongside (block_alongside hBare hBare' _ _ _ _)
        _ _) ?_
    exact fun hElements =>
      makeArray_alongside hBare hBare' true hElements

end Sequence

end PostScript
