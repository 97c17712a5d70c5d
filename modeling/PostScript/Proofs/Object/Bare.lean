import PostScript.Proofs.Object.Parts
import PostScript.Proofs.Object.Transmitted
import PostScript.Sequence.Writing

/-
  This file describes objects that carry nothing but their
  values: they have no attributes of their own but that they
  may be executable, and arrays fit a record. What is sent of
  such an object is all there is to it.

  Key definitions include:
    * `Object.Bare`

  Main results:
    * `Object.Bare.transmitted`
    * `Object.Bare.parts`
    * `Object.Bare.names`
-/

namespace PostScript.Object

/- An object without attributes, of values of some kind. -/
inductive Bare
    (P : Atom → Prop) : Object → Prop where
  | atom
      {v : Atom}
      (h : P v)
      (executable : Bool) :
      Bare P (.atom v { executable := executable })
  | array
      {es : List Object}
      (hElements : ∀ e ∈ es, Bare P e)
      (hCount : es.length ≤ Sequence.maxRecordLength)
      (executable : Bool) :
      Bare P (.array es { executable := executable })

namespace Bare

variable {P Q : Atom → Prop}
variable {o : Object}

/- Less may be said about the values. -/
theorem imp
    (h : o.Bare P)
    (hImp : ∀ v, P v → Q v) :
    o.Bare Q := by
  induction h with
  | atom h executable => exact .atom (hImp _ h) executable
  | array _ hCount executable ih =>
      exact .array ih hCount executable

/- It arrives as it is if no real has an extension. -/
theorem transmitted
    (h : o.Bare P)
    (hReals : ∀ r, P (.real r) → r.extension = 0) :
    o.transmitted () = o := by
  induction h with
  | @atom v h executable =>
      cases v with
      | real r =>
          rcases r with ⟨bits, extension⟩
          rw [show extension = 0 from hReals _ h]
          rfl
      | null | mark | infinity | integer | name | boolean
      | string => rfl
  | @array es _ hCount executable ih =>
      have hSame :
          es.map (Object.transmitted ()) = es :=
        (List.map_congr_left ih).trans (List.map_id es)
      rw [Object.transmitted, allTransmitted_eq_map, hSame]
      rfl

/- What is inside is of the same kind. -/
theorem parts
    (h : o.Bare P) :
    ∀ part ∈ o.parts, part.Bare P := by
  induction h with
  | atom h executable => exact nofun
  | @array es hElements hCount executable ih =>
      intro part hPart
      rcases (mem_allParts part es).mp hPart with
        ⟨e, he, rfl | hInside⟩
      · exact hElements part he
      · exact ih e he part hInside

/- So are all names inside. -/
theorem names
    (h : o.Bare P) :
    ∀ n ∈ o.names, P (.name n) := by
  induction h with
  | @atom v h executable =>
      intro n hn
      cases v with
      | name m =>
          rw [List.mem_singleton.mp hn]
          exact h
      | null | mark | infinity | integer | real | boolean
      | string => exact nomatch hn
  | @array es _ hCount executable ih =>
      intro n hn
      rcases (mem_names_array n es _).mp hn with ⟨e, he, hn⟩
      exact ih e he n hn

/- All parts of a list are of the same kind. -/
theorem allParts
    {os : List Object}
    (h : ∀ o ∈ os, o.Bare P) :
    ∀ part ∈ Object.allParts os, part.Bare P := by
  intro part hPart
  rcases (mem_allParts part os).mp hPart with
    ⟨o, ho, rfl | hInside⟩
  · exact h part ho
  · exact (h o ho).parts part hInside

end Bare

end PostScript.Object
