import Mathlib.Data.List.Forall2
import PostScript.Environment

/-
  This file describes what an environment adds to an object
  that is read: arrays are made in it, and the values of names
  come from it. To tell the two apart, an environment may be
  sealed, so that every value is the null object and nothing
  else changes.

  Key definitions include:
    * `Environment.Flat`
    * `Environment.Sealed`
    * `Object.Completes`

  Main results:
    * `makeArray_ok`
    * `makeArray_alike`
    * `NameTable.load_sealed`
    * `makeArray_sealed`
-/

namespace PostScript

variable {ε : Type}
variable [Environment ε]

------------------------------------------------------------
-- Arrays
------------------------------------------------------------

/- What is known of an array that was made. -/
theorem makeArray_ok
    {env : ε}
    {executable : Bool}
    {es : List Object}
    {o : Object}
    (h : makeArray env executable es = .ok o) :
    o = .array es
        { Environment.newAttrs env with
          executable := executable } ∧
      es.length ≤ maxArrayLength ∧
      ∀ e ∈ es,
        e.isIllegalIn (Environment.vm env) = false := by
  unfold makeArray at h
  split at h
  · contradiction
  next hLength =>
    split at h
    · contradiction
    next hLegal =>
      simp only [Except.ok.injEq] at h
      rw [Bool.not_eq_true, List.any_eq_false] at hLegal
      exact ⟨h.symm, Nat.le_of_not_lt hLength,
        fun e he => Bool.eq_false_iff.mpr (hLegal e he)⟩

/- Elements that fit in number and place make an array. -/
theorem makeArray_of_legal
    {env : ε}
    {es : List Object}
    (executable : Bool)
    (hLength : es.length ≤ maxArrayLength)
    (hLegal :
      ∀ e ∈ es,
        e.isIllegalIn (Environment.vm env) = false) :
    makeArray env executable es =
      .ok (.array es
        { Environment.newAttrs env with
          executable := executable }) := by
  have hNone :
      ¬ es.any (Object.isIllegalIn (Environment.vm env)) =
        true := by
    rw [Bool.not_eq_true, List.any_eq_false]
    intro e he
    rw [hLegal e he]
    exact Bool.false_ne_true
  unfold makeArray
  rw [if_neg (Nat.not_lt.mpr hLength), if_neg hNone]

/- Why an array is not made. -/
theorem makeArray_error
    {env : ε}
    {executable : Bool}
    {es : List Object}
    {cause : Cause}
    (h : makeArray env executable es = .error cause) :
    (cause = .arrayTooLong ∧ maxArrayLength < es.length) ∨
      (cause = .localInGlobal ∧
        ∃ e ∈ es,
          e.isIllegalIn (Environment.vm env) = true) := by
  unfold makeArray at h
  split at h
  next hLength =>
    cases h
    exact .inl ⟨rfl, hLength⟩
  next =>
    split at h
    next hIllegal =>
      cases h
      exact .inr ⟨rfl, List.any_eq_true.mp hIllegal⟩
    next => contradiction

/- Elements in pairs, as the first of a pair is found. -/
theorem exists_of_forall₂
    {α β : Type}
    {R : α → β → Prop}
    {ds : List α}
    {es : List β}
    {d : α}
    (hElements : List.Forall₂ R ds es)
    (hMem : d ∈ ds) :
    ∃ e ∈ es, R d e := by
  induction hElements with
  | nil => cases hMem
  | @cons d' e' ds es hFirst _ ih =>
      rcases List.mem_cons.mp hMem with rfl | hMem
      · exact ⟨e', List.mem_cons_self, hFirst⟩
      · rcases ih hMem with ⟨e, he, hPair⟩
        exact ⟨e, List.mem_cons_of_mem _ he, hPair⟩

/-
  What makes an array in one environment makes one in another
  if its elements are legal wherever their counterparts are.
-/
theorem makeArray_alike
    {ε' : Type}
    [Environment ε']
    {R : Object → Object → Prop}
    {env : ε}
    {env' : ε'}
    {executable : Bool}
    {ds es : List Object}
    {o : Object}
    (hAttrs :
      Environment.newAttrs env' = Environment.newAttrs env)
    (hElements : List.Forall₂ R ds es)
    (hKept :
      ∀ {vm d e}, R d e → e.isIllegalIn vm = false →
        d.isIllegalIn vm = false)
    (hMake : makeArray env executable es = .ok o) :
    makeArray env' executable ds =
      .ok (.array ds
        { Environment.newAttrs env with
          executable := executable }) := by
  have hVm : Environment.vm env' = Environment.vm env :=
    congrArg Attributes.vm hAttrs
  rcases makeArray_ok hMake with ⟨-, hLength, hLegal⟩
  rw [← hAttrs]
  apply makeArray_of_legal executable
  · rw [hElements.length_eq]
    exact hLength
  · intro d hd
    rcases exists_of_forall₂ hElements hd with ⟨e, he, hPair⟩
    rw [hVm]
    exact hKept hPair (hLegal e he)

------------------------------------------------------------
-- Values of Names
------------------------------------------------------------

/- An object is the value of some name. -/
def Environment.Binds
    (env : ε)
    (o : Object) : Prop :=
  ∃ hint name hint', find env hint name = some (o, hint')

/- All values of names are simple. -/
def Environment.Flat
    (env : ε) : Prop :=
  ∀ o, Binds env o → o.total = 0 ∧ o.height = 0

/- An environment without values is one of these. -/
theorem flat_unit : Environment.Flat () := by
  rintro o ⟨hint, name, hint', h⟩
  contradiction

/- An environment whose values may not be looked into. -/
structure Environment.Sealed
    (ε : Type) where
  inner : ε

/-
  The value of every name is the null object. Names have
  values as before, and their hints change as before.
-/
instance : Environment (Environment.Sealed ε) where
  find env hint name :=
    (Environment.find env.inner hint name).map
      (fun found => (Object.null, found.2))
  vm env := Environment.vm env.inner
  level env := Environment.level env.inner
  comment env text := ⟨Environment.comment env.inner text⟩

/- A sealed environment has simple values only. -/
theorem flat_sealed
    (env : ε) :
    Environment.Flat (Environment.Sealed.mk env) := by
  rintro o ⟨hint, name, hint', h⟩
  rcases Option.map_eq_some_iff.mp h with ⟨found, -, hNull⟩
  rw [← (Prod.mk.inj hNull).1]
  exact ⟨rfl, rfl⟩

/- A name that has a value has one in the sealed environment. -/
theorem NameTable.load_sealed
    {env : ε}
    {t t' : NameTable}
    {name : Name}
    {o : Object}
    (h : t.load env name = (some o, t')) :
    Environment.Binds env o ∧
      t.load (Environment.Sealed.mk env) name =
        (some Object.null, t') := by
  unfold NameTable.load at h
  split at h
  · simp at h
  next value hint hFind =>
    simp only [Prod.mk.injEq, Option.some.injEq] at h
    rcases h with ⟨rfl, rfl⟩
    refine ⟨⟨_, _, _, hFind⟩, ?_⟩
    have hSealed :
        Environment.find (Environment.Sealed.mk env)
            (t.hint name) name =
          some (Object.null, hint) := by
      change Option.map _ (Environment.find env _ _) = _
      rw [hFind]
      rfl
    unfold NameTable.load
    rw [hSealed]

------------------------------------------------------------
-- Completed Objects
------------------------------------------------------------

/-
  The first object is the second one, but that it may have the
  null object in the place of a value of a name.
-/
inductive Object.Completes
    (env : ε) : Object → Object → Prop where
  | atom
      (v : Atom)
      (a : Attributes) :
      Completes env (.atom v a) (.atom v a)
  | value
      {o : Object}
      (hValue : Environment.Binds env o) :
      Completes env Object.null o
  | array
      {ds es : List Object}
      (hElements : List.Forall₂ (Completes env) ds es)
      (a : Attributes) :
      Completes env (.array ds a) (.array es a)

/- A null object is nowhere illegal. -/
theorem Object.Completes.legal
    {env : ε}
    {d e : Object}
    {vm : Vm}
    (h : Object.Completes env d e)
    (hLegal : e.isIllegalIn vm = false) :
    d.isIllegalIn vm = false := by
  cases h with
  | atom v a => exact hLegal
  | value hValue =>
      simp [Object.null, Object.isIllegalIn,
        Object.isComposite]
  | array hElements a => exact hLegal

/- Elements with null objects make an array as well. -/
theorem makeArray_sealed
    {env : ε}
    {executable : Bool}
    {ds es : List Object}
    {o : Object}
    (hElements : List.Forall₂ (Object.Completes env) ds es)
    (h : makeArray env executable es = .ok o) :
    ∃ d, makeArray (Environment.Sealed.mk env) executable ds =
        .ok d ∧
      Object.Completes env d o := by
  rw [(makeArray_ok h).1]
  exact ⟨_, makeArray_alike rfl hElements Object.Completes.legal h,
    .array hElements _⟩

end PostScript
