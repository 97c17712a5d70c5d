import PostScript.Environment

/-
  This file defines what arrives when an object is sent as a
  binary sequence: strings and arrays are made anew in the
  environment of the reader, and other objects keep nothing
  but their value and whether they are executable.

  Key definitions include:
    * `Object.transmitted`

  Main results:
    * `Object.isIllegalIn_transmitted`
    * `makeArray_transmitted`
-/

namespace PostScript

variable {ε : Type}
variable [Environment ε]

/- A real leaves its extension behind. -/
def Atom.transmitted : Atom → Atom
  | .real v => .real ⟨v.bits, 0⟩
  | v => v

/- A string is new where it arrives. -/
def Atom.arrival
    (env : ε) : Atom → Attributes
  | .string _ => Environment.newAttrs env
  | _ => {}

namespace Object

/- What arrives of an object that is sent as a sequence. -/
mutual

def transmitted
    (env : ε) : Object → Object
  | .atom v a =>
      .atom v.transmitted
        { v.arrival env with executable := a.executable }
  | .array es a =>
      .array (allTransmitted env es)
        { Environment.newAttrs env with
          executable := a.executable }

def allTransmitted
    (env : ε) : List Object → List Object
  | [] => []
  | e :: es => transmitted env e :: allTransmitted env es

end

/- Elements are sent one by one. -/
theorem allTransmitted_eq_map
    (env : ε)
    (es : List Object) :
    allTransmitted env es = es.map (transmitted env) := by
  induction es with
  | nil => rfl
  | cons e es ih => rw [allTransmitted, ih, List.map_cons]

/- What arrives lives in the memory of its array. -/
theorem isIllegalIn_transmitted
    (env : ε)
    (o : Object) :
    (o.transmitted env).isIllegalIn (Environment.vm env) =
      false := by
  cases hVm : Environment.vm env with
  | localVm => rfl
  | globalVm =>
      cases o with
      | array es a =>
          simp [transmitted, isIllegalIn, attrs,
            Environment.newAttrs, Attributes.allocated, hVm]
      | atom v a =>
          cases v <;>
            simp [transmitted, Atom.transmitted,
              Atom.arrival, isIllegalIn, isComposite, attrs,
              Environment.newAttrs, Attributes.allocated, hVm]

end Object

/- What arrives can be put into an array again. -/
theorem makeArray_transmitted
    (env : ε)
    (executable : Bool)
    {es : List Object}
    (hLength : es.length ≤ maxArrayLength) :
    makeArray env executable
        (es.map (Object.transmitted env)) =
      .ok (.array (es.map (Object.transmitted env))
        { Environment.newAttrs env with
          executable := executable }) := by
  have hShort :
      ¬ maxArrayLength <
        (es.map (Object.transmitted env)).length := by
    rw [List.length_map]
    omega
  have hLegal :
      ¬ (es.map (Object.transmitted env)).any
        (Object.isIllegalIn (Environment.vm env)) = true := by
    rw [List.any_map, Bool.not_eq_true, List.any_eq_false]
    intro o _
    rw [Function.comp_apply, Object.isIllegalIn_transmitted]
    exact Bool.false_ne_true
  unfold makeArray
  rw [if_neg hShort, if_neg hLegal]

end PostScript
