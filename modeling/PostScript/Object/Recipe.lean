import PostScript.Name.Table
import PostScript.Object.Basic

/-
  This file defines descriptions of objects, in which names
  are given by their bytes and objects made before may occur.

  Key definitions include:
    * `PlainValue`
    * `Recipe`
    * `Recipe.Maker`
    * `Recipe.make`
-/

namespace PostScript

/- The executable attribute and the access, where told. -/
structure Finish where
  executable : Option Bool := none
  access : Option Access := none
deriving DecidableEq, Repr

namespace Finish

/- Give an object the attributes that are told. -/
def apply
    (f : Finish)
    (o : Object) : Object :=
  (o.withExecutable
    (f.executable.getD o.attrs.executable)).withAccess
      (f.access.getD o.attrs.access)

end Finish

/-
  The values that are described as they are. A name is no such
  value, since it belongs to a table.
-/
inductive PlainValue where
  | null
  | mark
  | infinity
  | real (v : Real)
  | boolean (v : Bool)
deriving DecidableEq, Repr

/- The value that is described. -/
def PlainValue.atom : PlainValue → Atom
  | null => .null
  | mark => .mark
  | infinity => .infinity
  | real v => .real v
  | boolean v => .boolean v

/- The description of an object. -/
inductive Recipe where
  | atom (value : PlainValue) (finish : Finish)
  | number (value : Number) (finish : Finish)
  | name (bytes : Bytes) (finish : Finish)
  | string (bytes : Bytes) (attrs : Attributes)
      (finish : Finish)
  | array (items : List (Recipe × Nat)) (attrs : Attributes)
      (finish : Finish)
  | nest (inner : Recipe) (times : Nat)
      (attrs : Attributes) (finish : Finish)
  | held (id : String)

namespace Recipe

/- Why an object could not be made. -/
inductive Refusal where
  | cause (c : Cause)
  | noObject
deriving DecidableEq, Repr

/- Making objects may make names, also before it fails. -/
abbrev Maker (α : Type) : Type :=
  EStateM Refusal NameTable α

/- The name with the given bytes. -/
def makeName
    (bytes : Bytes) : Maker Name := do
  let names ← get
  match names.internLong bytes with
  | (.ok n, names) =>
      set names
      pure n
  | (.error cause, names) =>
      set names
      throw (.cause cause)

/- An object inside `n` arrays of one element. -/
def wrap
    (attrs : Attributes) : Nat → Object → Object
  | 0, o => o
  | n + 1, o => wrap attrs n (.array [o] attrs)

/- Make an object, given the objects that are held. -/
mutual

def make
    (held : String → Option Object) :
    Recipe → Maker Object
  | .atom v f => pure (f.apply (.atom v.atom {}))
  | .number n f => pure (f.apply (.ofNumber n))
  | .name bytes f => do
      let n ← makeName bytes
      pure (f.apply (.name n false))
  | .string bytes a f => pure (f.apply (.string bytes a))
  | .array items a f => do
      let es ← makeItems held #[] items
      pure (f.apply (.array es a))
  | .nest inner n a f => do
      let o ← make held inner
      pure (f.apply (wrap a n o))
  | .held id =>
      match held id with
      | some o => pure o
      | none => throw .noObject

def makeItems
    (held : String → Option Object)
    (done : Array Object) :
    List (Recipe × Nat) → Maker (List Object)
  | [] => pure done.toList
  | (r, n) :: items => do
      let o ← make held r
      makeItems held (done ++ Array.replicate n o) items

end

end Recipe

end PostScript
