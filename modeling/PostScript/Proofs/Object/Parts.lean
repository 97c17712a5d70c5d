import PostScript.Proofs.Object.Names

/-
  This file lists the objects inside an object, at any depth,
  and describes how many there are and how deep they nest by
  the elements of an array.

  Key definitions include:
    * `Object.parts`
    * `Object.allParts`

  Main results:
    * `Object.mem_allParts`
    * `Object.tallest_append`
-/

namespace PostScript.Object

------------------------------------------------------------
-- Parts
------------------------------------------------------------

/- The objects inside an object, each before its own. -/
mutual

def parts : Object → List Object
  | .atom _ _ => []
  | .array es _ => allParts es

def allParts : List Object → List Object
  | [] => []
  | e :: es => e :: (parts e ++ allParts es)

end

/- What holds of all parts of a list, by its elements. -/
theorem forall_allParts_cons
    {P : Object → Prop}
    (e : Object)
    (es : List Object) :
    (∀ o ∈ allParts (e :: es), P o) ↔
      (P e ∧ ∀ o ∈ e.parts, P o) ∧
        ∀ o ∈ allParts es, P o := by
  rw [allParts, List.forall_mem_cons, List.forall_mem_append,
    and_assoc]

/- The parts of a list are its elements and their parts. -/
theorem mem_allParts
    (o : Object)
    (es : List Object) :
    o ∈ allParts es ↔ ∃ e ∈ es, o = e ∨ o ∈ e.parts := by
  induction es with
  | nil => simp [allParts]
  | cons e es ih =>
      simp only [allParts, List.mem_cons, List.mem_append, ih,
        exists_eq_or_imp]
      rw [or_assoc]

/- The parts of lists behind each other. -/
theorem allParts_append
    (es fs : List Object) :
    allParts (es ++ fs) = allParts es ++ allParts fs := by
  induction es with
  | nil => rfl
  | cons e es ih =>
      rw [List.cons_append, allParts, allParts, ih,
        List.cons_append, List.append_assoc]

------------------------------------------------------------
-- Numbers and Heights
------------------------------------------------------------

/- The tallest of a list is sought from any height. -/
theorem tallest_eq
    (n : Nat)
    (es : List Object) :
    tallest n es = max n (tallest 0 es) := by
  induction es generalizing n with
  | nil => simp [tallest]
  | cons e es ih =>
      rw [tallest, tallest, ih (max n e.height),
        ih (max 0 e.height)]
      omega

/- The tallest of a list is its first or one behind it. -/
theorem tallest_cons
    (e : Object)
    (es : List Object) :
    tallest 0 (e :: es) = max e.height (tallest 0 es) := by
  rw [tallest, tallest_eq]
  omega

/- The tallest of lists behind each other is in one of them. -/
theorem tallest_append
    (es fs : List Object) :
    tallest 0 (es ++ fs) =
      max (tallest 0 es) (tallest 0 fs) := by
  induction es with
  | nil => simp [tallest]
  | cons e es ih =>
      rw [List.cons_append, tallest_cons, tallest_cons, ih]
      omega

end PostScript.Object
