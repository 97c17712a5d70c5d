import PostScript.Dictionary.Stack
import PostScript.Object.Recipe
import PostScript.Scanner.Settings
import PostScript.Source.Any
import Std.Data.HashMap
import Std.Data.HashSet

/-
  This file defines a workspace: a table of names and a stack
  of dictionaries with everything that a user keeps beside
  them. What is kept decides which names are referenced and
  which cells are alive.

  Key definitions include:
    * `Shelf`
    * `OpenSource`
    * `Workspace`
    * `Workspace.rootNames`
    * `Workspace.rootIds`
    * `Workspace.wantedSlots`
    * `Workspace.sweep`
-/

namespace PostScript

------------------------------------------------------------
-- Shelves
------------------------------------------------------------

/- Things that are kept under labels. -/
abbrev Shelf (α : Type) : Type :=
  Std.HashMap String α

namespace Shelf

variable {α : Type}

/-
  Keep things under one label followed by their numbers, of
  which the first is given.
-/
def insertNumbered
    (label : String)
    (s : Shelf α)
    (first : Nat) : List α → Shelf α
  | [] => s
  | thing :: things =>
      insertNumbered label
        (s.insert (label ++ first.repr) thing)
        (first + 1) things

end Shelf

------------------------------------------------------------
-- Workspaces
------------------------------------------------------------

/-
  A source and the byte that was just read from it alone,
  which may be pushed back.
-/
structure OpenSource where
  source : Source
  lastByte : Option UInt8
deriving DecidableEq, Repr

/- The state of a session. -/
structure Workspace where
  names : NameTable
  scope : Scope
  settings : ScanSettings
  handles : Shelf Name
  objects : Shelf Object
  dicts : Shelf Dictionary
  slots : Shelf SlotId
  sources : Shelf OpenSource

namespace Workspace

/- A workspace in which nothing is kept. -/
def initial
    (settings : ScanSettings) : Workspace :=
  ⟨.initial, .empty, settings, ∅, ∅, ∅, ∅, ∅⟩

/- All dictionaries, kept or on the stack. -/
def dictionaries
    (w : Workspace) : List Dictionary :=
  w.dicts.values ++ w.scope.stack.frames

/- The values of all cells. -/
def cellValues
    (w : Workspace) : List Object :=
  w.scope.heap.cells.map Prod.snd

/-
  The names that something refers to: handles, names in kept
  objects, keys, and names in the values of cells.
-/
def rootNames
    (w : Workspace) : List Name :=
  w.handles.values ++
    Object.listNamesBefore
      (w.dictionaries.flatMap Dictionary.keys)
      (w.objects.values ++ w.cellValues)

/- The numbers of the names that something refers to. -/
def rootIds
    (w : Workspace) : Std.HashSet Nat :=
  Std.HashSet.ofList (w.rootNames.map Name.id)

/- The cells that are kept or that a dictionary holds. -/
def wantedSlots
    (w : Workspace) : List SlotId :=
  w.slots.values ++
    w.dictionaries.flatMap Dictionary.slots

/- Give up the cells that nothing holds any more. -/
def sweep
    (w : Workspace) : Workspace :=
  let wanted := Std.HashSet.ofList w.wantedSlots
  { w with scope :=
    ⟨w.scope.stack, w.scope.heap.keep wanted.contains⟩ }

end Workspace

end PostScript
