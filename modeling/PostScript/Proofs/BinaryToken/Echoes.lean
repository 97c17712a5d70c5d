import PostScript.BinaryToken
import PostScript.Proofs.Environment.Wrapped
import PostScript.Proofs.Sequence.Reflection

/-
  This file shows that binary tokens and sequences are decoded
  alike in two environments that answer alike, and applies
  this to an environment whose values come wrapped.

  Main results:
    * `BinaryToken.object_echoes`
    * `BinaryToken.decode_echoes`
    * `Sequence.read_echoes`
    * `Environment.echoes_wrapped`
-/

namespace PostScript

variable {ε ε' : Type}
variable [Environment ε]
variable [Environment ε']
variable {Refusal : Cause → Prop}
variable {R : Object → Object → Prop}
variable {env : ε}
variable {env' : ε'}

------------------------------------------------------------
-- Tokens
------------------------------------------------------------

namespace BinaryToken

/- A number is a simple object. -/
theorem ofNumber_echoes
    (h : Environment.Echoes Refusal R env env')
    (n : Number) :
    R (Object.ofNumber n) (Object.ofNumber n) := by
  rcases Object.ofNumber_cases n with
    ⟨v, -, hAtom⟩ | hAtom | ⟨v, -, -, hAtom⟩ <;>
    rw [hAtom] <;> exact h.simple rfl

/- What needs no names is given alike. -/
theorem given_echoes
    {x y : Except Cause Object}
    (h : Answered Refusal R x y) :
    Echoes Refusal R (given x) (given y) := by
  cases h with
  | ok hValue => exact .pure hValue
  | error cause => exact .fail cause
  | refused hRefusal => exact .refuse hRefusal _

/- A number that is read is given alike. -/
theorem number_answered
    (h : Environment.Echoes Refusal R env env')
    (x : Except Cause Number) :
    Answered Refusal R (x.map Object.ofNumber)
      (x.map Object.ofNumber) := by
  cases x with
  | error cause => exact .error cause
  | ok n => exact .ok (ofNumber_echoes h n)

/- So is an array of numbers. -/
theorem numbersObject_answered
    (h : Environment.Echoes Refusal R env env')
    (f : NumberFormat)
    (bytes : Bytes) :
    Answered Refusal R (numbersObject env f bytes)
      (numbersObject env' f bytes) := by
  unfold numbersObject
  cases NumberArray.decode f bytes with
  | error cause => exact .error cause
  | ok ns =>
      apply h.array false
      rw [List.forall₂_map_left_iff, List.forall₂_map_right_iff,
        List.forall₂_same]
      exact fun n _ => ofNumber_echoes h n

/- The object of a token is made alike. -/
theorem object_echoes
    (h : Environment.Echoes Refusal R env env')
    (t : BinaryToken) :
    Echoes Refusal R (t.object env) (t.object env') := by
  cases t with
  | sequence header payload =>
      exact Sequence.readPayload_echoes h header payload
  | integer v => exact .pure (h.simple rfl)
  | number f bytes => exact given_echoes (number_answered h _)
  | real bits => exact given_echoes (number_answered h _)
  | boolean v =>
      unfold object
      dsimp only
      split
      · exact .pure (h.simple rfl)
      · split
        · exact .pure (h.simple rfl)
        · exact .fail _
  | string bytes =>
      unfold object
      rw [h.attrs]
      exact .pure (h.string bytes false)
  | systemName index executable =>
      refine .same_bind (fun names => ?_)
      cases names.systemName? index with
      | none => exact .fail _
      | some name => exact .pure (h.simple rfl)
  | userName index => exact .fail _
  | numbers f bytes =>
      exact given_echoes (numbersObject_answered h f bytes)

/- A token is decoded alike and takes as many bytes. -/
theorem decode_echoes
    (h : Environment.Echoes Refusal R env env')
    (data : Bytes) :
    Echoes Refusal (fun d o => R d.1 o.1 ∧ d.2 = o.2)
      (decode env data) (decode env' data) := by
  unfold decode
  split
  · split
    · exact .fail _
    · split
      · exact .fail _
      · exact .bind (object_echoes h _)
          (fun hValue => .pure ⟨hValue, rfl⟩)
  · exact .fail _

end BinaryToken

/- A sequence is read alike and takes as many bytes. -/
theorem Sequence.read_echoes
    (h : Environment.Echoes Refusal R env env')
    (data : Bytes) :
    Echoes Refusal (fun d o => R d.1 o.1 ∧ d.2 = o.2)
      (read env data) (read env' data) := by
  unfold read
  split
  · exact .fail _
  · dsimp only
    split
    · exact .fail _
    · exact .bind (readPayload_echoes h _ _)
        (fun hValue => .pure ⟨hValue, rfl⟩)

------------------------------------------------------------
-- Wrapped Values
------------------------------------------------------------

/-
  If all values of names are well placed, then an environment
  does the same with them wrapped, unless it refuses.
-/
theorem Environment.echoes_wrapped
    {E : ε → Prop}
    (hEnv : E env)
    (hPlaced : ∀ v, Gives E v → v.WellPlaced) :
    Environment.Echoes (Refuses E) (Object.Made E) env
      (Wrapped.mk env) where
  attrs := newAttrs_wrapped env
  simple := Object.made_simple
  string := Object.made_string hEnv
  array executable _ _ hElements :=
    makeArray_wrapped hEnv executable hElements
  value name := by
    intro st
    unfold Sequence.Payload.binding
    rw [get_bind, get_bind, NameTable.load_wrapped]
    cases hLoad : st.names.load env name with
    | mk found names =>
        cases found with
        | none => exact .inr ⟨{ st with names := names }, rfl⟩
        | some v =>
            have hValue := NameTable.gives_load hEnv hLoad
            exact ⟨v.wrapped, rfl, .value hValue,
              hPlaced v hValue⟩

end PostScript
