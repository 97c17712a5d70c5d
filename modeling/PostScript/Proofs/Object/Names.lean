import PostScript.Object.Basic

/-
  This file describes which names occur in an object and how
  many objects it holds, by its elements.

  Main results:
    * `Object.mem_listNamesBefore`
    * `Object.mem_names_array`
    * `Object.totalFrom_cons`
-/

namespace PostScript.Object

------------------------------------------------------------
-- Names
------------------------------------------------------------

/- Gathering names adds those of the object to the others. -/
mutual

theorem mem_namesBefore
    (n : Name)
    (ns : List Name) :
    ∀ o : Object,
      n ∈ namesBefore ns o ↔ n ∈ o.names ∨ n ∈ ns
  | .atom v _ => by
      cases v <;> simp [names, namesBefore]
  | .array es _ => by
      have hLeft := mem_listNamesBefore n ns es
      have hRight := mem_listNamesBefore n [] es
      simp only [names, namesBefore, hLeft, hRight,
        List.not_mem_nil, or_false]

theorem mem_listNamesBefore
    (n : Name)
    (ns : List Name) :
    ∀ es : List Object,
      n ∈ listNamesBefore ns es ↔
        (∃ e ∈ es, n ∈ e.names) ∨ n ∈ ns
  | [] => by simp [listNamesBefore]
  | e :: es => by
      have hHead := mem_namesBefore n ns e
      have hTail := mem_listNamesBefore n (namesBefore ns e) es
      simp only [listNamesBefore, hTail, hHead,
        List.mem_cons, exists_eq_or_imp]
      rw [or_assoc, or_left_comm]

end

/- The names in an array are those in its elements. -/
theorem mem_names_array
    (n : Name)
    (es : List Object)
    (a : Attributes) :
    n ∈ (Object.array es a).names ↔
      ∃ e ∈ es, n ∈ e.names := by
  simpa [names, namesBefore] using mem_listNamesBefore n [] es

/- Attributes hold no names. -/
theorem names_withAttrs
    (a : Attributes)
    (o : Object) :
    (o.withAttrs a).names = o.names := by
  cases o with
  | atom v _ => cases v <;> rfl
  | array es _ => rfl

------------------------------------------------------------
-- Numbers of Objects
------------------------------------------------------------

/- Counting goes on from any number. -/
theorem totalFrom_eq
    (n : Nat)
    (es : List Object) :
    totalFrom n es = n + totalFrom 0 es := by
  induction es generalizing n with
  | nil => rfl
  | cons e es ih =>
      have hHere := ih (n + 1 + total e)
      have hThere := ih (0 + 1 + total e)
      simp only [totalFrom]
      omega

/- An element counts as one beside what it holds. -/
theorem totalFrom_cons
    (e : Object)
    (es : List Object) :
    totalFrom 0 (e :: es) =
      1 + total e + totalFrom 0 es := by
  have h := totalFrom_eq (0 + 1 + total e) es
  simp only [totalFrom]
  omega

/- Every element of a list counts. -/
theorem length_le_totalFrom
    (es : List Object) :
    es.length ≤ totalFrom 0 es := by
  induction es with
  | nil => exact Nat.le_refl _
  | cons e es ih =>
      rw [totalFrom_cons, List.length_cons]
      omega

end PostScript.Object
