import PostScript.Dictionary.Basic
import PostScript.Environment

/-
  This file defines the stack of dictionaries that names are
  looked up in. A name that is found at the bottom remembers
  its cell, and the next look-up goes there at once; to bind
  the name higher up makes it forget.

  Key definitions include:
    * `DictStack`
    * `DictStack.push`
    * `DictStack.pop`
    * `Scope`
    * `Scope.find`
    * `Scope.search`
    * `Scope.define`
    * `Scope.defineSystem`
-/

namespace PostScript

------------------------------------------------------------
-- Stacks
------------------------------------------------------------

/-
  The stack: dictionaries that were pushed, innermost first,
  above the two that always stay. The comments heard so far
  are kept, the last first.
-/
structure DictStack where
  pushed : List Dictionary
  user : Dictionary
  system : Dictionary
  vm : Vm
  level : UInt32
  comments : List Bytes

namespace DictStack

/- A stack with a system dictionary and an empty one. -/
def ofSystem
    (system : Dictionary) : DictStack :=
  ⟨[], .empty, system, .localVm, 0, []⟩

/- All dictionaries, innermost first. -/
def frames
    (s : DictStack) : List Dictionary :=
  s.pushed ++ [s.user, s.system]

/- The number of dictionaries. -/
def depth
    (s : DictStack) : Nat :=
  s.pushed.length + 2

/-
  Push a dictionary. Its keys forget where they were found.
-/
def push
    (s : DictStack)
    (d : Dictionary)
    (names : NameTable) : DictStack × NameTable :=
  ({ s with pushed := d :: s.pushed },
    d.keys.foldl (fun t key => t.setHint key none) names)

/- Pop a dictionary, but never the last two. -/
def pop
    (s : DictStack) : Option Dictionary × DictStack :=
  match s.pushed with
  | [] => (none, s)
  | d :: ds => (some d, { s with pushed := ds })

/-
  Enter a new save level. Levels are counted in 32 bits, so
  that the one behind the greatest is zero again.
-/
def save
    (s : DictStack)
    (names : NameTable) : DictStack × NameTable :=
  ({ s with level := s.level + 1 },
    names.setLevel (s.level + 1))

/- The level that a save level is in; the outermost stays. -/
def outerLevel
    (s : DictStack) : UInt32 :=
  if s.level = 0 then 0 else s.level - 1

/- Leave a save level. -/
def restore
    (s : DictStack)
    (names : NameTable)
    (referenced : Name → Bool)
    (alive : SlotId → Bool) : DictStack × NameTable :=
  ({ s with level := s.outerLevel },
    names.purge referenced alive s.outerLevel)

end DictStack

------------------------------------------------------------
-- Scopes
------------------------------------------------------------

/- A stack with the cells of its dictionaries. -/
structure Scope where
  stack : DictStack
  heap : Heap

namespace Scope

/- A scope without bindings. -/
def empty : Scope :=
  ⟨.ofSystem .empty, .empty⟩

/- The cell of a name in the innermost dictionary that binds
   it, above the system dictionary. -/
def findAbove
    (s : DictStack)
    (name : Name) : Option SlotId :=
  (s.pushed ++ [s.user]).findSome?
    (fun d => d.find? name)

/- The value of a name by search from the inside out. -/
def search
    (s : Scope)
    (name : Name) : Option Object :=
  (s.stack.frames.findSome? (fun d => d.find? name)).bind
    s.heap.read?

/-
  The value of a name, first by its hint and then by search.
  A name found at the bottom remembers its cell.
-/
def find
    (s : Scope)
    (hint : Option SlotId)
    (name : Name) : Option (Object × Option SlotId) :=
  match hint.bind s.heap.read? with
  | some value => some (value, hint)
  | none =>
      match findAbove s.stack name with
      | some slot =>
          (s.heap.read? slot).map (fun v => (v, hint))
      | none =>
          match s.stack.system.find? name with
          | some slot =>
              (s.heap.read? slot).map
                (fun v => (v, some slot))
          | none => none

instance : Environment Scope where
  find := find
  vm s := s.stack.vm
  level s := s.stack.level
  comment s text :=
    { s with stack :=
      { s.stack with comments := text :: s.stack.comments } }

/-
  Bind a name in the innermost dictionary. The name forgets
  where it was found.
-/
def define
    (s : Scope)
    (names : NameTable)
    (key : Name)
    (value : Object) : Scope × NameTable :=
  let names := names.setHint key none
  match s.stack.pushed with
  | [] =>
      let (user, heap) := s.stack.user.insert key value s.heap
      (⟨{ s.stack with user := user }, heap⟩, names)
  | d :: ds =>
      let (d, heap) := d.insert key value s.heap
      (⟨{ s.stack with pushed := d :: ds }, heap⟩, names)

/- Bind a name in the system dictionary. -/
def defineSystem
    (s : Scope)
    (key : Name)
    (value : Object) : Scope :=
  let (system, heap) := s.stack.system.insert key value s.heap
  ⟨{ s.stack with system := system }, heap⟩

end Scope

end PostScript
