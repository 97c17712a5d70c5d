import PostScript.Name.Basic
import PostScript.Numeric.Number

/-
  This file defines objects: a value with its attributes,
  where the value is simple or an array of objects.

  Key definitions include:
    * `Access`
    * `Vm`
    * `Attributes`
    * `Atom`
    * `Object`
    * `Object.agrees`
    * `Object.height`
    * `Object.total`
    * `Object.names`
-/

namespace PostScript

------------------------------------------------------------
-- Attributes
------------------------------------------------------------

/- What may be done with the contents of an object. -/
inductive Access where
  | unlimited
  | readOnly
  | executeOnly
  | noAccess
deriving DecidableEq, Repr

/- Whether the contents may be read. -/
def Access.canRead : Access → Bool
  | unlimited | readOnly => true
  | executeOnly | noAccess => false

/- The memory that an object lives in. -/
inductive Vm where
  | localVm
  | globalVm
deriving DecidableEq, Repr

/- What an object is beside its value. -/
structure Attributes where
  executable : Bool := false
  vm : Vm := .localVm
  access : Access := .unlimited
  level : UInt32 := 0
deriving DecidableEq, Repr

namespace Attributes

/- The attributes of a new composite object. -/
def allocated
    (vm : Vm)
    (level : UInt32) : Attributes :=
  { vm := vm, level := level }

/- The attributes as bits: 1 executable, 2 global. -/
def flags
    (a : Attributes) : Nat :=
  (if a.executable then 1 else 0) +
    (if a.vm = .globalVm then 2 else 0)

end Attributes

------------------------------------------------------------
-- Objects
------------------------------------------------------------

/- The values that hold no other objects. -/
inductive Atom where
  | null
  | mark
  | infinity
  | integer (v : Int32)
  | real (v : Real)
  | boolean (v : Bool)
  | name (v : Name)
  | string (v : Bytes)
deriving DecidableEq, Repr

/- An object is an atom or an array of objects. -/
inductive Object where
  | atom (value : Atom) (attrs : Attributes)
  | array (elements : List Object) (attrs : Attributes)

namespace Object

instance : Inhabited Object :=
  ⟨.atom .null {}⟩

/- The attributes of an object. -/
def attrs : Object → Attributes
  | atom _ a => a
  | array _ a => a

/- The object with other attributes. -/
def withAttrs
    (a : Attributes) : Object → Object
  | atom v _ => atom v a
  | array es _ => array es a

/- The object as executable or literal. -/
def withExecutable
    (executable : Bool)
    (o : Object) : Object :=
  o.withAttrs { o.attrs with executable := executable }

/- The object with another access. -/
def withAccess
    (access : Access)
    (o : Object) : Object :=
  o.withAttrs { o.attrs with access := access }

------------------------------------------------------------
-- Making Objects
------------------------------------------------------------

/- The null object. -/
def null : Object :=
  atom .null {}

/- The mark object. -/
def mark : Object :=
  atom .mark {}

/- A literal integer. -/
def integer
    (v : Int32) : Object :=
  atom (.integer v) {}

/- A literal boolean. -/
def boolean
    (v : Bool) : Object :=
  atom (.boolean v) {}

/- A literal real, or infinity. -/
def real
    (v : Real) : Object :=
  if v.isInfinite then
    atom .infinity {}
  else
    atom (.real v) {}

/- A number as an object. -/
def ofNumber : Number → Object
  | .integer v => integer v
  | .real v => real v

/- Whatever a number is, its object is literal and simple. -/
theorem ofNumber_cases
    (n : Number) :
    (∃ v, n = .integer v ∧
        ofNumber n = atom (.integer v) {}) ∨
      ofNumber n = atom .infinity {} ∨
        ∃ v, n = .real v ∧ v.isInfinite = false ∧
          ofNumber n = atom (.real v) {} := by
  cases n with
  | integer v => exact .inl ⟨v, rfl, rfl⟩
  | real v =>
      cases hInfinite : v.isInfinite with
      | true => exact .inr (.inl (if_pos hInfinite))
      | false =>
          refine .inr (.inr ⟨v, rfl, hInfinite, if_neg ?_⟩)
          rw [hInfinite]
          exact Bool.false_ne_true

/- A name, executable or literal. -/
def name
    (n : Name)
    (executable : Bool) : Object :=
  atom (.name n) { executable := executable }

/- A literal string. -/
def string
    (bytes : Bytes)
    (a : Attributes) : Object :=
  atom (.string bytes) a

------------------------------------------------------------
-- Looking at Objects
------------------------------------------------------------

/- Strings and arrays are composite. -/
def isComposite : Object → Bool
  | atom (.string _) _ => true
  | atom _ _ => false
  | array _ _ => true

/- Numbers are not. -/
theorem isComposite_ofNumber
    (n : Number) :
    (ofNumber n).isComposite = false := by
  rcases ofNumber_cases n with
    ⟨v, -, h⟩ | h | ⟨v, -, -, h⟩ <;>
    rw [h] <;> rfl

/- Whether the object may not be put into a global array. -/
def isIllegalIn
    (target : Vm)
    (o : Object) : Bool :=
  target == .globalVm && o.isComposite &&
    o.attrs.vm == .localVm

/- The name, if the object is one. -/
def asName? : Object → Option Name
  | atom (.name n) _ => some n
  | _ => none

/- The bytes, if the object is a string. -/
def asString? : Object → Option Bytes
  | atom (.string bytes) _ => some bytes
  | _ => none

/- The elements, if the object is an array. -/
def asArray? : Object → Option (List Object)
  | array es _ => some es
  | _ => none

/- The number, if the object is one. -/
def asNumber? : Object → Option Number
  | atom (.integer v) _ => some (.integer v)
  | atom (.real v) _ => some (.real v)
  | _ => none

end Object

------------------------------------------------------------
-- Comparing Objects
------------------------------------------------------------

/-
  Atoms agree if they show the same value. Reals compare as
  numbers and names by identity.
-/
def Atom.agrees : Atom → Atom → Bool
  | real a, real b => a.agrees b
  | name a, name b => a.is b
  | a, b => a == b

namespace Object

/- Objects agree in value and attributes at every depth. -/
mutual

def agrees : Object → Object → Bool
  | atom v a, atom w b => v.agrees w && a == b
  | array es a, array fs b => a == b && listAgrees es fs
  | _, _ => false

def listAgrees : List Object → List Object → Bool
  | [], [] => true
  | e :: es, f :: fs =>
      if agrees e f then listAgrees es fs else false
  | _, _ => false

end

------------------------------------------------------------
-- Measures
------------------------------------------------------------

/- How deep arrays nest; an atom has height zero. -/
mutual

def height : Object → Nat
  | atom _ _ => 0
  | array es _ => 1 + tallest 0 es

def tallest (n : Nat) : List Object → Nat
  | [] => n
  | e :: es => tallest (max n (height e)) es

end

/- The number of objects inside an object, at any depth. -/
mutual

def total : Object → Nat
  | atom _ _ => 0
  | array es _ => totalFrom 0 es

def totalFrom (n : Nat) : List Object → Nat
  | [] => n
  | e :: es => totalFrom (n + 1 + total e) es

end

/- The names in an object, at any depth, put before others. -/
mutual

def namesBefore (ns : List Name) : Object → List Name
  | atom (.name n) _ => n :: ns
  | atom _ _ => ns
  | array es _ => listNamesBefore ns es

def listNamesBefore (ns : List Name) :
    List Object → List Name
  | [] => ns
  | e :: es => listNamesBefore (namesBefore ns e) es

end

/- The names in an object, at any depth. -/
def names
    (o : Object) : List Name :=
  o.namesBefore []

end Object

end PostScript
