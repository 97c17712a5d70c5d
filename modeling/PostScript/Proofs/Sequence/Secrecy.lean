import Mathlib.Data.List.Forall2
import PostScript.Proofs.Sequence.Encodable

/-
  This file shows that nothing is told of contents that may
  not be read. Objects that differ in such contents alone are
  written alike, and where there are any, at any depth, there
  is an error instead of a sequence.

  Key definitions include:
    * `Access.IsHidden`
    * `Object.IsHidden`
    * `Object.LooksLike`

  Main results:
    * `Sequence.Writer.measureObject_alike`
    * `Sequence.Writer.writeAll_alike`
    * `Sequence.Writer.written_alike`
-/

namespace PostScript

------------------------------------------------------------
-- Hidden Contents
------------------------------------------------------------

/- Contents that may be executed at most are hidden. -/
def Access.IsHidden
    (access : Access) : Prop :=
  access = .executeOnly ∨ access = .noAccess

/- They may not be read. -/
theorem Access.isHidden_iff
    {access : Access} :
    access.IsHidden ↔ access.canRead = false := by
  cases access <;> simp [IsHidden, canRead]

namespace Object

/- A string or an array whose contents are hidden. -/
def IsHidden
    (o : Object) : Prop :=
  o.isComposite = true ∧ o.attrs.access.IsHidden

/-
  Objects that are the same but for bytes and elements that
  are hidden, at any depth.
-/
inductive LooksLike : Object → Object → Prop where
  | atom
      (v : Atom)
      (a : Attributes) :
      LooksLike (.atom v a) (.atom v a)
  | hiddenString
      {a : Attributes}
      (hHidden : a.access.IsHidden)
      (bytes bytes' : Bytes) :
      LooksLike (.atom (.string bytes) a)
        (.atom (.string bytes') a)
  | hiddenArray
      {a : Attributes}
      (hHidden : a.access.IsHidden)
      (es fs : List Object) :
      LooksLike (.array es a) (.array fs a)
  | array
      {es fs : List Object}
      (hElements : List.Forall₂ LooksLike es fs)
      (a : Attributes) :
      LooksLike (.array es a) (.array fs a)

end Object

namespace Sequence

open Object

/- What is hidden is what is not readable. -/
theorem fails_readable_iff
    {objs : List Object} :
    Fails Readable objs ↔
      ∃ o ∈ allParts objs, o.IsHidden := by
  unfold Fails Readable IsHidden
  simp only [Access.isHidden_iff, Classical.not_imp,
    Bool.not_eq_true]

namespace Writer

variable {w : Writer}

------------------------------------------------------------
-- Measuring
------------------------------------------------------------

/- A hidden string is measured as an error. -/
theorem measureObject_hiddenString
    {a : Attributes}
    (hHidden : a.access.IsHidden)
    (bytes : Bytes)
    (x : Extent)
    (depth : Nat) :
    w.measureObject x depth (.atom (.string bytes) a) =
      .error .unreadable := by
  rw [Access.isHidden_iff] at hHidden
  simp [measureObject, measureAtom, hHidden]

/- So is a hidden array. -/
theorem measureObject_hiddenArray
    {a : Attributes}
    (hHidden : a.access.IsHidden)
    (es : List Object)
    (x : Extent)
    (depth : Nat) :
    w.measureObject x depth (.array es a) =
      .error .unreadable := by
  rw [Access.isHidden_iff] at hHidden
  simp [measureObject, hHidden]

/- An atom that is measured without an error is readable. -/
theorem readable_of_measureAtom
    {x x' : Extent}
    {depth : Nat}
    {v : Atom}
    {a : Attributes}
    (h : w.measureObject x depth (.atom v a) = .ok x') :
    Readable (.atom v a) := by
  intro hComposite
  cases v with
  | string bytes =>
      by_contra hRead
      have hHidden : a.access.IsHidden :=
        Access.isHidden_iff.mpr (Bool.not_eq_true _ ▸ hRead)
      simp [measureObject_hiddenString hHidden] at h
  | null | mark | infinity | integer | real | boolean
  | name => contradiction

/- The elements of a readable array are measured. -/
theorem measureObject_readable
    {a : Attributes}
    (hRead : a.access.canRead = true)
    (es : List Object)
    (x : Extent)
    (depth : Nat) :
    w.measureObject x depth (.array es a) =
      match measureBlock x (depth + 1) es.length with
      | .error cause => .error cause
      | .ok x' => w.measureObjects x' (depth + 1) es := by
  rw [measureObject, hRead]
  exact if_neg Bool.false_ne_true

/-
  Objects that look alike are measured as the same error, or
  they are the same and hide nothing. By induction on the
  first: wherever the two part, there is an error.
-/
mutual

theorem measureObject_alike
    (x : Extent)
    (depth : Nat) :
    ∀ {o p : Object}, o.LooksLike p →
      (∃ cause,
        w.measureObject x depth o = .error cause ∧
          w.measureObject x depth p = .error cause) ∨
        (o = p ∧ ¬ Fails Readable [o])
  | .atom v a, p => by
      intro hAlike
      cases hAlike with
      | hiddenString hHidden bytes bytes' =>
          exact .inl ⟨_,
            measureObject_hiddenString hHidden bytes x depth,
            measureObject_hiddenString hHidden bytes' x depth⟩
      | atom =>
          cases hMeasure : w.measureObject x depth (.atom v a)
            with
          | error cause => exact .inl ⟨cause, rfl, rfl⟩
          | ok x' =>
              refine .inr ⟨rfl, ?_⟩
              rw [fails_atom, not_not]
              exact readable_of_measureAtom hMeasure
  | .array es a, p => by
      intro hAlike
      by_cases hRead : a.access.canRead = true
      case neg =>
        have hHidden : a.access.IsHidden :=
          Access.isHidden_iff.mpr (Bool.not_eq_true _ ▸ hRead)
        cases hAlike with
        | hiddenArray _ es fs | @array es fs _ a =>
            exact .inl ⟨_,
              measureObject_hiddenArray hHidden es x depth,
              measureObject_hiddenArray hHidden fs x depth⟩
      case pos =>
        cases hAlike with
        | hiddenArray hHidden es fs =>
            rw [Access.isHidden_iff.mp hHidden] at hRead
            contradiction
        | @array es fs hElements a =>
            rw [measureObject_readable hRead,
              measureObject_readable hRead,
              ← hElements.length_eq]
            cases measureBlock x (depth + 1) es.length with
            | error cause => exact .inl ⟨cause, rfl, rfl⟩
            | ok x' =>
                rcases measureObjects_alike x' (depth + 1)
                    hElements with
                  hError | ⟨rfl, hShown⟩
                · exact .inl hError
                · refine .inr ⟨rfl, ?_⟩
                  rw [fails_array, not_or, not_not]
                  exact ⟨fun _ => hRead, hShown⟩

theorem measureObjects_alike
    (x : Extent)
    (depth : Nat) :
    ∀ {es fs : List Object},
      List.Forall₂ LooksLike es fs →
        (∃ cause,
          w.measureObjects x depth es = .error cause ∧
            w.measureObjects x depth fs = .error cause) ∨
          (es = fs ∧ ¬ Fails Readable es)
  | [], _, .nil => .inr ⟨rfl, not_fails_nil⟩
  | e :: es, f :: fs, .cons hHead hTail => by
      rw [measureObjects, measureObjects]
      rcases measureObject_alike x depth hHead with
        ⟨cause, hFirst, hSecond⟩ | ⟨rfl, hShown⟩
      · rw [hFirst, hSecond]
        exact .inl ⟨cause, rfl, rfl⟩
      · cases w.measureObject x depth e with
        | error cause => exact .inl ⟨cause, rfl, rfl⟩
        | ok x' =>
            rcases measureObjects_alike x' depth hTail with
              hError | ⟨rfl, hShown'⟩
            · exact .inl hError
            · refine .inr ⟨rfl, ?_⟩
              rw [fails_cons, not_or]
              exact ⟨hShown, hShown'⟩

end

------------------------------------------------------------
-- Writing
------------------------------------------------------------

/- An error of the first walk is the answer. -/
theorem writeAll_of_measure
    {objs : List Object}
    {cause : Cause}
    (h : w.measure objs = .error cause) :
    w.writeAll objs = .error cause := by
  rw [writeAll, h]

/- Lists that look alike are written alike. -/
theorem writeAll_alike
    {xs ys : List Object}
    (hAlike : List.Forall₂ LooksLike xs ys) :
    w.writeAll xs = w.writeAll ys ∧
      (Fails Readable xs →
        ∃ cause, w.writeAll xs = .error cause) := by
  have hMeasure :
      (∃ cause,
        w.measure xs = .error cause ∧
          w.measure ys = .error cause) ∨
        (xs = ys ∧ ¬ Fails Readable xs) := by
    unfold measure
    rw [← hAlike.length_eq]
    cases measureBlock ⟨0, 0⟩ 0 xs.length with
    | error cause => exact .inl ⟨cause, rfl, rfl⟩
    | ok x => exact measureObjects_alike x 0 hAlike
  rcases hMeasure with
    ⟨cause, hFirst, hSecond⟩ | ⟨rfl, hShown⟩
  · rw [writeAll_of_measure hFirst,
      writeAll_of_measure hSecond]
    exact ⟨rfl, fun _ => ⟨cause, rfl⟩⟩
  · exact ⟨rfl, fun hHidden => absurd hHidden hShown⟩

/- So are single objects. -/
theorem write_alike
    {o p : Object}
    (hAlike : o.LooksLike p) :
    w.write o = w.write p ∧
      (Fails Readable [o] →
        ∃ cause, w.write o = .error cause) := by
  cases hAlike with
  | atom v a => exact writeAll_alike (.cons (.atom v a) .nil)
  | hiddenString hHidden bytes bytes' =>
      exact writeAll_alike
        (.cons (.hiddenString hHidden bytes bytes') .nil)
  | @hiddenArray a hHidden es fs =>
      rw [Access.isHidden_iff] at hHidden
      simp [write, hHidden]
  | @array es fs hElements a =>
      rw [write, write, fails_array]
      by_cases hRead : a.access.canRead = true
      · rw [if_pos hRead, if_pos hRead]
        rcases writeAll_alike (w := w) hElements with
          ⟨hSame, hHidden⟩
        refine ⟨hSame, ?_⟩
        rintro (hArray | hInside)
        · exact absurd (fun _ => hRead) hArray
        · exact hHidden hInside
      · rw [if_neg hRead, if_neg hRead]
        exact ⟨rfl, fun _ => ⟨_, rfl⟩⟩

/-
  Objects that differ only in contents that may not be read
  are written as the same bytes or lead to the same error,
  both as lists and alone. If any contents may not be read,
  at whatever depth, that is an error.
-/
theorem written_alike
    (w : Writer)
    {xs ys : List Object}
    {o p : Object}
    (hLists : List.Forall₂ LooksLike xs ys)
    (hObjects : o.LooksLike p) :
    w.writeAll xs = w.writeAll ys ∧
      w.write o = w.write p ∧
      ((∃ x ∈ allParts xs, x.IsHidden) →
        ∃ cause, w.writeAll xs = .error cause) ∧
      ((∃ x ∈ allParts [o], x.IsHidden) →
        ∃ cause, w.write o = .error cause) := by
  rcases writeAll_alike (w := w) hLists with
    ⟨hSameLists, hHiddenList⟩
  rcases write_alike (w := w) hObjects with
    ⟨hSameObjects, hHiddenObject⟩
  rw [← fails_readable_iff, ← fails_readable_iff]
  exact ⟨hSameLists, hSameObjects, hHiddenList,
    hHiddenObject⟩

/- A string that may only be executed, in a procedure. -/
theorem written_alike_executeOnly :
    let secret (bytes : Bytes) : Object :=
      .array [.atom (.string bytes) { access := .executeOnly }]
        { executable := true }
    let w : Writer := ⟨⟨.little, .ieee⟩, true⟩
    (secret #[1, 2]).LooksLike (secret #[3]) ∧
      (∃ x ∈ allParts [secret #[1, 2]], x.IsHidden) ∧
      w.writeAll [secret #[1, 2]] = w.writeAll [secret #[3]] ∧
      w.write (secret #[1, 2]) = w.write (secret #[3]) ∧
      ∃ cause, w.write (secret #[1, 2]) = .error cause := by
  intro secret w
  have hAlike : (secret #[1, 2]).LooksLike (secret #[3]) :=
    .array (.cons (.hiddenString (.inl rfl) _ _) .nil) _
  have hHidden :
      ∃ x ∈ allParts [secret #[1, 2]], x.IsHidden :=
    ⟨_, .tail _ (.head _), rfl, .inl rfl⟩
  rcases written_alike w (.cons hAlike .nil) hAlike with
    ⟨hLists, hObjects, -, hError⟩
  exact ⟨hAlike, hHidden, hLists, hObjects, hError hHidden⟩

end Writer

end Sequence

end PostScript
