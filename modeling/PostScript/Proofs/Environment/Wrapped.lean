import PostScript.Proofs.Echo
import PostScript.Proofs.Environment.Sealed

/-
  This file describes objects that are well placed: nothing in
  global memory refers to a composite in local memory. To tell
  the composites that a program makes from those that it finds
  under a name, an environment may wrap every value that it
  gives. A wrapper may stand anywhere, so such an environment
  never objects to a value.

  Key definitions include:
    * `Object.WellPlaced`
    * `Environment.Stamps`
    * `Environment.Wrapped`
    * `Object.Unwraps`
    * `Object.HeldGloballyIn`
    * `Environment.Refuses`

  Main results:
    * `NameTable.load_wrapped`
    * `makeArray_wrapped`
    * `Object.HeldGloballyIn.not_isLocal`
-/

namespace PostScript

variable {ε : Type}
variable [Environment ε]

------------------------------------------------------------
-- Places
------------------------------------------------------------

/- A string or an array in local memory. -/
def Object.IsLocal
    (o : Object) : Prop :=
  o.isComposite = true ∧ o.attrs.vm = .localVm

/-
  At every depth, no array in global memory directly contains
  a string or an array in local memory.
-/
inductive Object.WellPlaced : Object → Prop where
  | atom
      (v : Atom)
      (a : Attributes) :
      WellPlaced (.atom v a)
  | array
      {es : List Object}
      {a : Attributes}
      (hElements : ∀ e ∈ es, WellPlaced e)
      (hPlace : a.vm = .globalVm → ∀ e ∈ es, ¬ e.IsLocal) :
      WellPlaced (.array es a)

/- What may not be put into an array is local. -/
theorem Object.isIllegalIn_eq_true
    {vm : Vm}
    {o : Object} :
    o.isIllegalIn vm = true ↔ vm = .globalVm ∧ o.IsLocal := by
  simp [isIllegalIn, IsLocal, and_assoc]

/- The attributes of a composite that is made here. -/
def Environment.Stamps
    (E : ε → Prop)
    (a : Attributes) : Prop :=
  ∃ env, E env ∧ a.vm = vm env ∧ a.level = level env ∧
    a.access = .unlimited

/- An object is the value of a name in one of these. -/
def Environment.Gives
    (E : ε → Prop)
    (o : Object) : Prop :=
  ∃ env, E env ∧ Binds env o

/- A new composite is stamped, executable or not. -/
theorem Environment.stamps_newAttrs
    {E : ε → Prop}
    {env : ε}
    (hEnv : E env)
    (executable : Bool) :
    Stamps E
      { newAttrs env with executable := executable } :=
  ⟨env, hEnv, rfl, rfl, rfl⟩

------------------------------------------------------------
-- Wrappers
------------------------------------------------------------

/-
  A value in its wrapper, which is global and whose contents
  are nobody's business. Arrays that are made are no wrappers.
-/
def Object.wrapped
    (v : Object) : Object :=
  .array [v] { vm := .globalVm, access := .noAccess }

/- An environment whose values come wrapped. -/
structure Environment.Wrapped
    (ε : Type) where
  inner : ε

/- Nothing but the values of names is changed. -/
instance : Environment (Environment.Wrapped ε) where
  find env hint name :=
    (Environment.find env.inner hint name).map
      (fun found => (found.1.wrapped, found.2))
  vm env := Environment.vm env.inner
  level env := Environment.level env.inner
  comment env text := ⟨Environment.comment env.inner text⟩

/- New composites carry the same attributes. -/
theorem Environment.newAttrs_wrapped
    (env : ε) :
    newAttrs (Wrapped.mk env) = newAttrs env :=
  rfl

/- A name has the same value, wrapped, and the same hint. -/
theorem NameTable.load_wrapped
    (t : NameTable)
    (env : ε)
    (name : Name) :
    t.load (Environment.Wrapped.mk env) name =
      ((t.load env name).1.map Object.wrapped,
        (t.load env name).2) := by
  have hFind :
      Environment.find (Environment.Wrapped.mk env)
          (t.hint name) name =
        (Environment.find env (t.hint name) name).map
          (fun found => (found.1.wrapped, found.2)) :=
    rfl
  unfold NameTable.load
  rw [hFind]
  cases Environment.find env (t.hint name) name <;> rfl

/- The value that a name is found to have is given. -/
theorem NameTable.gives_load
    {E : ε → Prop}
    {env : ε}
    {t t' : NameTable}
    {name : Name}
    {o : Object}
    (hEnv : E env)
    (hLoad : t.load env name = (some o, t')) :
    Environment.Gives E o :=
  ⟨env, hEnv, (NameTable.load_sealed hLoad).1⟩

------------------------------------------------------------
-- Unwrapped Objects
------------------------------------------------------------

/-
  The second object is the first one with the values of names
  out of their wrappers. All other strings and arrays are new:
  they carry the attributes of what is made here.
-/
inductive Object.Unwraps
    (E : ε → Prop) : Object → Object → Prop where
  | simple
      {v : Atom}
      {a : Attributes}
      (hSimple : (Object.atom v a).isComposite = false) :
      Unwraps E (.atom v a) (.atom v a)
  | string
      (bytes : Bytes)
      {a : Attributes}
      (hStamp : Environment.Stamps E a) :
      Unwraps E (.atom (.string bytes) a)
        (.atom (.string bytes) a)
  | array
      {ds es : List Object}
      {a : Attributes}
      (hStamp : Environment.Stamps E a)
      (hElements : List.Forall₂ (Unwraps E) ds es) :
      Unwraps E (.array ds a) (.array es a)
  | value
      {v : Object}
      (hValue : Environment.Gives E v) :
      Unwraps E v.wrapped v

/- What is made, beside the same with its values wrapped. -/
structure Object.Made
    (E : ε → Prop)
    (d o : Object) : Prop where
  unwraps : Object.Unwraps E d o
  placed : o.WellPlaced

/-
  A value in its wrapper stands directly in a global array
  that is made, at any depth.
-/
inductive Object.HeldGloballyIn
    (v : Object) : Object → Prop where
  | here
      {ds : List Object}
      {a : Attributes}
      (hMade : a.access = .unlimited)
      (hGlobal : a.vm = .globalVm)
      (hMem : v.wrapped ∈ ds) :
      HeldGloballyIn v (.array ds a)
  | inside
      {ds : List Object}
      {a : Attributes}
      {d : Object}
      (hMade : a.access = .unlimited)
      (hMem : d ∈ ds)
      (hInside : HeldGloballyIn v d) :
      HeldGloballyIn v (.array ds a)

namespace Object

variable {E : ε → Prop}
variable {d o v : Object}

/- A wrapper holds nothing but the value that it is about. -/
theorem Unwraps.of_wrapped
    (h : Unwraps E v.wrapped o) :
    o = v := by
  generalize hWrapped : v.wrapped = d at h
  cases h with
  | simple | string => cases hWrapped
  | value =>
      cases hWrapped
      rfl
  | array hStamp =>
      rcases hStamp with ⟨env, -, -, -, hAccess⟩
      cases hWrapped
      cases hAccess

/- An array that is made is none. -/
theorem Unwraps.of_array
    {ds : List Object}
    {a : Attributes}
    (h : Unwraps E (.array ds a) o)
    (hMade : a.access = .unlimited) :
    ∃ es, o = .array es a ∧
      List.Forall₂ (Unwraps E) ds es := by
  generalize hArray : Object.array ds a = d at h
  cases h with
  | simple | string => cases hArray
  | array _ hElements =>
      cases hArray
      exact ⟨_, rfl, hElements⟩
  | value =>
      cases hArray
      cases hMade

/- What has a place still has it when values are wrapped. -/
theorem Unwraps.legal
    {vm : Vm}
    (h : Unwraps E d o)
    (hLegal : o.isIllegalIn vm = false) :
    d.isIllegalIn vm = false := by
  cases h with
  | simple | string | array => exact hLegal
  | value => simp [wrapped, isIllegalIn, attrs]

/-
  If the object without wrappers is well placed, then a value
  in a global array is not local. By induction on where it is.
-/
theorem HeldGloballyIn.not_isLocal
    (h : HeldGloballyIn v d)
    (hUnwraps : Unwraps E d o)
    (hPlaced : o.WellPlaced) :
    ¬ v.IsLocal := by
  induction h generalizing o with
  | here hMade hGlobal hMem =>
      rcases hUnwraps.of_array hMade with ⟨es, rfl, hElements⟩
      rcases exists_of_forall₂ hElements hMem with
        ⟨e, he, hValue⟩
      cases hPlaced with
      | array _ hPlace =>
          rw [← hValue.of_wrapped]
          exact hPlace hGlobal e he
  | inside hMade hMem _ ih =>
      rcases hUnwraps.of_array hMade with ⟨es, rfl, hElements⟩
      rcases exists_of_forall₂ hElements hMem with
        ⟨e, he, hInner⟩
      cases hPlaced with
      | array hAll _ => exact ih hInner (hAll e he)

end Object

------------------------------------------------------------
-- Making Objects
------------------------------------------------------------

/- A simple object is made without the environment. -/
theorem Object.made_simple
    {E : ε → Prop}
    {v : Atom}
    {a : Attributes}
    (hSimple : (Object.atom v a).isComposite = false) :
    Object.Made E (.atom v a) (.atom v a) :=
  ⟨.simple hSimple, .atom _ _⟩

/- A string is stamped where it is made. -/
theorem Object.made_string
    {E : ε → Prop}
    {env : ε}
    (hEnv : E env)
    (bytes : Bytes)
    (executable : Bool) :
    Object.Made E
      ((Object.string bytes
        (Environment.newAttrs env)).withExecutable executable)
      ((Object.string bytes
        (Environment.newAttrs env)).withExecutable
          executable) :=
  ⟨.string bytes
    (Environment.stamps_newAttrs hEnv executable), .atom _ _⟩

/- Elements that are made, each in a legal place. -/
theorem Object.Made.array
    {E : ε → Prop}
    {ds es : List Object}
    {a : Attributes}
    (hStamp : Environment.Stamps E a)
    (hElements : List.Forall₂ (Object.Made E) ds es)
    (hLegal : ∀ e ∈ es, e.isIllegalIn a.vm = false) :
    Object.Made E (.array ds a) (.array es a) := by
  constructor
  · exact .array hStamp
      (hElements.imp (fun _ _ hMade => hMade.unwraps))
  · apply Object.WellPlaced.array
    · intro e he
      rcases exists_of_forall₂ hElements.flip he with
        ⟨d, -, hMade⟩
      exact hMade.placed
    · intro hGlobal e he hLocal
      have hIllegal : e.isIllegalIn a.vm = true :=
        Object.isIllegalIn_eq_true.mpr ⟨hGlobal, hLocal⟩
      rw [hLegal e he] at hIllegal
      contradiction

/- A local composite is kept out of a global array. -/
def Environment.Refuses
    (E : ε → Prop)
    (cause : Cause) : Prop :=
  cause = .localInGlobal ∧ ∃ env, E env ∧ vm env = .globalVm

/-
  An array whose elements are made is made, in the same way if
  their values are wrapped, unless it is refused.
-/
theorem makeArray_wrapped
    {E : ε → Prop}
    {env : ε}
    (hEnv : E env)
    (executable : Bool)
    {ds es : List Object}
    (hElements : List.Forall₂ (Object.Made E) ds es) :
    Answered (Environment.Refuses E) (Object.Made E)
      (makeArray env executable es)
      (makeArray (Environment.Wrapped.mk env) executable
        ds) := by
  cases hMake : makeArray env executable es with
  | ok o =>
      rcases makeArray_ok hMake with ⟨rfl, -, hLegal⟩
      rw [makeArray_alike (Environment.newAttrs_wrapped env)
        hElements (fun hMade => hMade.unwraps.legal) hMake]
      exact .ok (.array
        (Environment.stamps_newAttrs hEnv executable)
        hElements hLegal)
  | error cause =>
      rcases makeArray_error hMake with
        ⟨rfl, hLength⟩ | ⟨rfl, e, -, hIllegal⟩
      · rw [← hElements.length_eq] at hLength
        rw [makeArray, if_pos hLength]
        exact .error _
      · have hGlobal :=
          (Object.isIllegalIn_eq_true.mp hIllegal).1
        exact .refused ⟨rfl, env, hEnv, hGlobal⟩ _

end PostScript
