import PostScript.Object.Basic

/-
  This file defines dictionaries. A dictionary binds names to
  cells, and copies of a dictionary share the cells that were
  there when they were copied.

  Key definitions include:
    * `Heap`
    * `Heap.allocate`
    * `Heap.read?`
    * `Heap.write`
    * `Heap.keep`
    * `Dictionary`
    * `Dictionary.find?`
    * `Dictionary.insert`
-/

namespace PostScript

------------------------------------------------------------
-- Cells
------------------------------------------------------------

/- The cells in use and the number of the next new cell. -/
structure Heap where
  cells : List (SlotId × Object)
  next : Nat

namespace Heap

/- A heap without cells. -/
def empty : Heap :=
  ⟨[], 0⟩

/- A new cell with a value. -/
def allocate
    (value : Object)
    (h : Heap) : SlotId × Heap :=
  (⟨h.next⟩, ⟨(⟨h.next⟩, value) :: h.cells, h.next + 1⟩)

/- The value of a cell, if the cell is in use. -/
def read?
    (h : Heap)
    (slot : SlotId) : Option Object :=
  (h.cells.find? (fun c => c.1 == slot)).map Prod.snd

/- Whether a cell is in use. -/
def isLive
    (h : Heap)
    (slot : SlotId) : Bool :=
  (h.read? slot).isSome

/- Give a cell another value. -/
def write
    (slot : SlotId)
    (value : Object)
    (h : Heap) : Heap :=
  { h with
    cells := h.cells.map
      (fun c => if c.1 == slot then (slot, value) else c) }

/- Give up the cells that are not wanted. -/
def keep
    (wanted : SlotId → Bool)
    (h : Heap) : Heap :=
  { h with cells := h.cells.filter (fun c => wanted c.1) }

end Heap

------------------------------------------------------------
-- Dictionaries
------------------------------------------------------------

/- Names with the cells they are bound to. -/
structure Dictionary where
  entries : List (Name × SlotId)
deriving DecidableEq, Repr

namespace Dictionary

/- A dictionary without entries. -/
def empty : Dictionary :=
  ⟨[]⟩

/- The number of entries. -/
def size
    (d : Dictionary) : Nat :=
  d.entries.length

/- The keys. -/
def keys
    (d : Dictionary) : List Name :=
  d.entries.map Prod.fst

/- The cells. -/
def slots
    (d : Dictionary) : List SlotId :=
  d.entries.map Prod.snd

/- The cell that a key is bound to. -/
def find?
    (d : Dictionary)
    (key : Name) : Option SlotId :=
  (d.entries.find? (fun e => e.1.is key)).map Prod.snd

/-
  Bind a key. The cell of a key that is already bound gets
  the new value, which every copy of the dictionary sees.
-/
def insert
    (d : Dictionary)
    (key : Name)
    (value : Object)
    (h : Heap) : Dictionary × Heap :=
  match d.find? key with
  | some slot => (d, h.write slot value)
  | none =>
      let (slot, h) := h.allocate value
      (⟨d.entries ++ [(key, slot)]⟩, h)

/- The keys with their values. -/
def bindings
    (d : Dictionary)
    (h : Heap) : List (Name × Object) :=
  d.entries.filterMap
    (fun e => (h.read? e.2).map (fun v => (e.1, v)))

end Dictionary

end PostScript
