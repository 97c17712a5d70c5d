import PostScript.Proofs.Echo
import PostScript.Proofs.Environment.Sealed
import PostScript.Proofs.Sequence.Contents

/-
  This file compares reading in two environments. If whatever
  comes from the first has a counterpart that comes from the
  second, then what is read in the first has a counterpart
  that is read in the second, and the names are the same. If
  it also fails there alike, then reading does.

  Key definitions include:
    * `Environment.Reflects`
    * `Reflected`
    * `Environment.Echoes`

  Main results:
    * `Environment.reflects_sealed`
    * `Sequence.block_echoes`
    * `Sequence.readPayload_echoes`
    * `Sequence.readPayload_reflected`
-/

namespace PostScript

------------------------------------------------------------
-- Environments
------------------------------------------------------------

/-
  The second environment has a counterpart for everything that
  the first one gives.
-/
structure Environment.Reflects
    {ε ε' : Type}
    [Environment ε]
    [Environment ε']
    (R : Object → Object → Prop)
    (env : ε)
    (env' : ε') : Prop where
  attrs : newAttrs env' = newAttrs env
  atom : ∀ v a, R (.atom v a) (.atom v a)
  array :
    ∀ {executable ds es o},
      List.Forall₂ R ds es →
        makeArray env executable es = .ok o →
          ∃ d, makeArray env' executable ds = .ok d ∧ R d o
  value :
    ∀ {t t' : NameTable} {name o},
      t.load env name = (some o, t') →
        ∃ d, t.load env' name = (some d, t') ∧ R d o

/- A sealed environment has a null object for every value. -/
theorem Environment.reflects_sealed
    {ε : Type}
    [Environment ε]
    (env : ε) :
    Reflects (Object.Completes env) env (Sealed.mk env) where
  attrs := rfl
  atom := .atom
  array := makeArray_sealed
  value h :=
    have hLoad := NameTable.load_sealed h
    ⟨_, hLoad.2, .value hLoad.1⟩

------------------------------------------------------------
-- Programs
------------------------------------------------------------

/-
  What the first program gives has a counterpart that the
  second one gives, and they come to the same state.
-/
def Reflected
    {σ α β : Type}
    (R : β → α → Prop)
    (x : EStateM Cause σ α)
    (y : EStateM Cause σ β) : Prop :=
  ∀ s v s', x s = .ok v s' → ∃ w, y s = .ok w s' ∧ R w v

/- What echoes has a counterpart. -/
theorem Echoes.reflected
    {σ α β : Type}
    {Refusal : Cause → Prop}
    {R : β → α → Prop}
    {x : EStateM Cause σ α}
    {y : EStateM Cause σ β}
    (h : Echoes Refusal R x y) :
    Reflected R x y :=
  fun _ _ _ hRun => h.of_ok hRun

/-
  The second environment answers as the first one does when
  an array is made or a name is looked up, unless the first
  refuses, and it makes the same simple objects and strings.
-/
structure Environment.Echoes
    {ε ε' : Type}
    [Environment ε]
    [Environment ε']
    (Refusal : Cause → Prop)
    (R : Object → Object → Prop)
    (env : ε)
    (env' : ε') : Prop where
  attrs : newAttrs env' = newAttrs env
  simple :
    ∀ {v a}, (Object.atom v a).isComposite = false →
      R (.atom v a) (.atom v a)
  string :
    ∀ bytes executable,
      R ((Object.string bytes (newAttrs env)).withExecutable
          executable)
        ((Object.string bytes (newAttrs env)).withExecutable
          executable)
  array :
    ∀ executable {ds es},
      List.Forall₂ R ds es →
        Answered Refusal R (makeArray env executable es)
          (makeArray env' executable ds)
  value :
    ∀ name,
      PostScript.Echoes Refusal R
        (Sequence.Payload.binding env name)
        (Sequence.Payload.binding env' name)

/- Where failures need no echo, counterparts are enough. -/
theorem Environment.Reflects.echoes
    {ε ε' : Type}
    [Environment ε]
    [Environment ε']
    {R : Object → Object → Prop}
    {env : ε}
    {env' : ε'}
    (h : Reflects R env env') :
    Environment.Echoes (fun _ => True) R env env' where
  attrs := h.attrs
  simple _ := h.atom _ _
  string _ _ := h.atom _ _
  array executable ds es hElements := by
    cases hMake : makeArray env executable es with
    | error cause => exact .refused trivial _
    | ok o =>
        rcases h.array hElements hMake with ⟨d, hOther, hValue⟩
        rw [hOther]
        exact .ok hValue
  value name := by
    intro st
    unfold Sequence.Payload.binding
    rw [get_bind, get_bind]
    cases hLoad : st.names.load env name with
    | mk found names =>
        cases found with
        | none => exact .inl trivial
        | some value =>
            rcases h.value hLoad with ⟨d, hOther, hValue⟩
            rw [hOther]
            exact ⟨d, rfl, hValue⟩

namespace Sequence

variable {ε ε' : Type}
variable [Environment ε]
variable [Environment ε']
variable {Refusal : Cause → Prop}
variable {R : Object → Object → Prop}
variable {env : ε}
variable {env' : ε'}

------------------------------------------------------------
-- Objects
------------------------------------------------------------

/- An array is made alike. -/
theorem makeArray_echoes
    (h : Environment.Echoes Refusal R env env')
    {σ : Type}
    (executable : Bool)
    {ds es : List Object}
    (hElements : List.Forall₂ R ds es) :
    Echoes Refusal R
      (match makeArray env executable es with
        | .ok o => pure o
        | .error cause => throw cause :
          EStateM Cause σ Object)
      (match makeArray env' executable ds with
        | .ok o => pure o
        | .error cause => throw cause) := by
  have hMake := h.array executable hElements
  generalize makeArray env executable es = x at hMake ⊢
  generalize makeArray env' executable ds = y at hMake ⊢
  cases hMake with
  | ok hValue => exact .pure hValue
  | error cause => exact .fail cause
  | refused hRefusal => exact .refuse hRefusal _

/- What a record stands for is read alike. -/
theorem contents_echoes
    (h : Environment.Echoes Refusal R env env')
    (p : Payload)
    {nested nested' : Nat → Nat → Reading (List Object)}
    (hNested :
      ∀ offset count,
        Echoes Refusal (List.Forall₂ R) (nested offset count)
          (nested' offset count))
    (r : Record)
    (type : RecordType) :
    Echoes Refusal R (contents p env nested r type)
      (contents p env' nested' r type) := by
  cases type with
  | null | mark | integer =>
      exact .same_bind (fun _ => .pure (h.simple rfl))
  | boolean =>
      exact .same_bind (fun _ => .same_bind (fun _ =>
        .pure (h.simple rfl)))
  | real =>
      refine .same_bind (fun v => .pure ?_)
      unfold Object.real
      split <;> exact h.simple rfl
  | string =>
      refine .same_bind (fun bytes => .pure ?_)
      rw [h.attrs]
      exact h.string bytes r.executable
  | name =>
      exact .same_bind (fun _ => .pure (h.simple rfl))
  | immediateName =>
      exact .same_bind (fun name => h.value name)
  | array =>
      refine .same_bind (fun _ => ?_)
      exact .bind (hNested _ _)
        (fun hElements =>
          makeArray_echoes h r.executable hElements)

/- The object at an offset is read alike. -/
theorem object_echoes
    (h : Environment.Echoes Refusal R env env')
    (p : Payload)
    {nested nested' : Nat → Nat → Reading (List Object)}
    (hNested :
      ∀ offset count,
        Echoes Refusal (List.Forall₂ R) (nested offset count)
          (nested' offset count))
    (offset : Nat) :
    Echoes Refusal R (object p env nested offset)
      (object p env' nested' offset) := by
  rw [object_eq, object_eq]
  refine .same_bind (fun r => ?_)
  cases RecordType.ofCode? r.type with
  | none => exact .fail _
  | some type => exact contents_echoes h p hNested r type

/- Objects are read alike, by induction on their number. -/
theorem objectsAfter_echoes
    {read read' : Nat → Reading Object}
    (hRead :
      ∀ offset,
        Echoes Refusal R (read offset) (read' offset))
    {done done' : Array Object}
    (hDone : List.Forall₂ R done'.toList done.toList)
    (n offset : Nat) :
    Echoes Refusal (List.Forall₂ R)
      (objectsAfter read done n offset)
      (objectsAfter read' done' n offset) := by
  induction n generalizing done done' offset with
  | zero => exact .pure hDone
  | succ n ih =>
      refine .bind (hRead offset) ?_
      intro v w hValue
      apply ih
      rw [Array.toList_push, Array.toList_push]
      exact List.rel_append hDone (.cons hValue .nil)

/- A block is, by induction on how deep arrays may nest. -/
theorem block_echoes
    (h : Environment.Echoes Refusal R env env')
    (p : Payload)
    (levels offset count : Nat) :
    Echoes Refusal (List.Forall₂ R)
      (block p env levels offset count)
      (block p env' levels offset count) := by
  induction levels generalizing offset count with
  | zero => exact .fail _
  | succ levels ih =>
      exact objectsAfter_echoes
        (object_echoes h p ih) .nil count offset

/- What is kept of reading is alike if reading is. -/
theorem run_echoes
    {α β : Type}
    {S : β → α → Prop}
    {x : Reading α}
    {y : Reading β}
    (h : Echoes Refusal S x y)
    (count size : Nat) :
    Echoes Refusal S (x.run count size)
      (y.run count size) := by
  intro names
  cases hRun : x (Progress.start names count size) with
  | ok v st =>
      rcases h.of_ok hRun with ⟨w, hOther, hValue⟩
      rw [run_of_ok hRun, run_of_ok hOther]
      exact ⟨w, rfl, hValue⟩
  | error cause st =>
      rw [run_of_error hRun]
      rcases h.of_error hRun with hRefusal | ⟨st', hOther⟩
      · exact .inl hRefusal
      · exact .inr ⟨st'.names, run_of_error hOther⟩

/- The array that a payload holds is read alike. -/
theorem readPayload_echoes
    (hEnv : Environment.Echoes Refusal R env env')
    (h : Header)
    (data : Bytes) :
    Echoes Refusal R (readPayload env h data)
      (readPayload env' h data) := by
  unfold readPayload
  dsimp only
  split
  · exact .fail _
  · refine .bind (R := List.Forall₂ R) ?_ ?_
    · exact run_echoes (block_echoes hEnv _ _ _ _) _ _
    · exact fun hElements =>
        makeArray_echoes hEnv true hElements

/- What a payload holds is an array. -/
theorem readPayload_array
    {h : Header}
    {data : Bytes}
    {names names' : NameTable}
    {o : Object}
    (hRead : readPayload env h data names = .ok o names') :
    ∃ es, o = .array es
      { Environment.newAttrs env with executable := true } := by
  unfold readPayload at hRead
  split at hRead
  next => contradiction
  next =>
    cases hRun :
        (block ⟨data, h.format.order⟩ env (maxNesting + 1) 0
          h.count.toNat).run h.count.toNat data.size names with
    | error cause st =>
        rw [bind_of_error hRun] at hRead
        contradiction
    | ok es st =>
        rw [bind_of_ok hRun] at hRead
        cases hMake : makeArray env true es with
        | error cause =>
            rw [hMake] at hRead
            contradiction
        | ok made =>
            rw [hMake] at hRead
            cases hRead
            exact ⟨es, (makeArray_ok hMake).1⟩

/- The array that a payload holds has its counterpart. -/
theorem readPayload_reflected
    (hEnv : Environment.Reflects R env env')
    (h : Header)
    (data : Bytes) :
    Reflected R (readPayload env h data)
      (readPayload env' h data) :=
  (readPayload_echoes hEnv.echoes h data).reflected

end Sequence

end PostScript
