import PostScript.Error
import PostScript.Name.Table
import PostScript.Object.Basic

/-
  This file defines what scanning and decoding need from the
  interpreter around them: bindings of names, the place of new
  composite objects and an ear for comments. It also builds
  arrays in such an environment.

  Key definitions include:
    * `Environment`
    * `Environment.newAttrs`
    * `NameTable.load`
    * `makeArray`
-/

namespace PostScript

/-
  An environment. `find` looks up a name whose entry carries
  the given hint, and gives the value with the hint that the
  entry carries from now on.
-/
class Environment (ε : Type) where
  find : ε → Option SlotId → Name →
    Option (Object × Option SlotId)
  vm : ε → Vm
  level : ε → UInt32
  comment : ε → Bytes → ε

/- The environment without bindings. -/
instance : Environment Unit where
  find _ _ _ := none
  vm _ := .localVm
  level _ := 0
  comment env _ := env

variable {ε : Type}
variable [Environment ε]

/- The attributes of a composite object made here. -/
def Environment.newAttrs
    (env : ε) : Attributes :=
  Attributes.allocated (vm env) (level env)

/-
  The value of a name. Nothing in the table changes but the
  hint of that name.
-/
def NameTable.load
    (t : NameTable)
    (env : ε)
    (name : Name) : Option Object × NameTable :=
  match Environment.find env (t.hint name) name with
  | none => (none, t)
  | some (value, hint) => (some value, t.setHint name hint)

/- The most elements of an array. -/
def maxArrayLength : Nat :=
  0xffff

/-
  Build an array. An array in global memory must not hold a
  composite in local memory.
-/
def makeArray
    (env : ε)
    (executable : Bool)
    (elements : List Object) : Except Cause Object :=
  if maxArrayLength < elements.length then
    .error .arrayTooLong
  else if elements.any
      (Object.isIllegalIn (Environment.vm env)) then
    .error .localInGlobal
  else
    .ok (.array elements
      { Environment.newAttrs env with
        executable := executable })

end PostScript
