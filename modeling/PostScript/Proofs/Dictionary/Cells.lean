import PostScript.Dictionary.Stack

/-
  This file describes what binding a key does to a dictionary
  and to the cells: a key that is bound already gets another
  value, and any other key gets a new cell.

  Key definitions include:
    * `Heap.Numbered`
    * `Heap.Follows`

  Main results:
    * `Heap.isLive_write`
    * `Dictionary.insert_cases`
    * `Dictionary.find?_insert_of_ne`
    * `Heap.Follows.insert`
    * `DictStack.mem_frames`
-/

namespace PostScript

namespace Heap

/- What a cell holds is old or has just been written. -/
theorem mem_cells_write
    {h : Heap}
    {slot : SlotId}
    {v : Object}
    {c : SlotId × Object}
    (hc : c ∈ (h.write slot v).cells) :
    (∃ c' ∈ h.cells, c'.1 = c.1) ∧
      (c ∈ h.cells ∨ c.2 = v) := by
  unfold write at hc
  rcases List.mem_map.mp hc with ⟨c', hc', rfl⟩
  split
  next hSlot =>
    rw [beq_iff_eq] at hSlot
    exact ⟨⟨c', hc', hSlot⟩, .inr rfl⟩
  next => exact ⟨⟨c', hc', rfl⟩, .inl hc'⟩

/- A cell is in use if it is there. -/
theorem isLive_iff
    (h : Heap)
    (slot : SlotId) :
    h.isLive slot = true ↔ ∃ c ∈ h.cells, c.1 = slot := by
  unfold isLive read?
  rw [Option.isSome_map, List.find?_isSome]
  simp

/- Writing takes no cell out of use and puts none into it. -/
theorem isLive_write
    (h : Heap)
    (slot other : SlotId)
    (v : Object) :
    (h.write slot v).isLive other = h.isLive other := by
  rw [Bool.eq_iff_iff, isLive_iff, isLive_iff]
  constructor
  · rintro ⟨c, hc, rfl⟩
    rcases (mem_cells_write hc).1 with ⟨c', hc', hSame⟩
    exact ⟨c', hc', hSame⟩
  · rintro ⟨c, hc, rfl⟩
    unfold write
    refine ⟨_, List.mem_map_of_mem hc, ?_⟩
    split
    next hSlot => exact (beq_iff_eq.mp hSlot).symm
    next => rfl

/- A new cell is the only one that comes into use. -/
theorem isLive_allocate
    (h : Heap)
    (v : Object)
    (slot : SlotId) :
    (h.allocate v).2.isLive slot = true ↔
      slot = ⟨h.next⟩ ∨ h.isLive slot = true := by
  rw [isLive_iff, isLive_iff]
  unfold allocate
  simp only [List.mem_cons, exists_eq_or_imp]
  rw [eq_comm]

/- Cells that are kept were in use. -/
theorem isLive_of_keep
    {h : Heap}
    {wanted : SlotId → Bool}
    {slot : SlotId}
    (hLive : (h.keep wanted).isLive slot = true) :
    h.isLive slot = true := by
  rw [isLive_iff] at hLive ⊢
  rcases hLive with ⟨c, hc, hSlot⟩
  exact ⟨c, (List.mem_filter.mp hc).1, hSlot⟩

end Heap

namespace Dictionary

/- The two ways in which a key is bound. -/
theorem insert_cases
    (d : Dictionary)
    (key : Name)
    (v : Object)
    (h : Heap) :
    (∃ slot, d.find? key = some slot ∧
      d.insert key v h = (d, h.write slot v)) ∨
    (d.find? key = none ∧
      d.insert key v h =
        (⟨d.entries ++ [(key, ⟨h.next⟩)]⟩,
          (h.allocate v).2)) := by
  unfold insert
  cases hFind : d.find? key with
  | some slot => exact .inl ⟨slot, rfl, rfl⟩
  | none => exact .inr ⟨rfl, rfl⟩

/- The keys are the old ones and the one that is bound. -/
theorem mem_keys_insert
    {d : Dictionary}
    {key n : Name}
    {v : Object}
    {h : Heap}
    (hn : n ∈ (d.insert key v h).1.keys) :
    n ∈ d.keys ∨ n = key := by
  rcases d.insert_cases key v h with
    ⟨slot, -, hInsert⟩ | ⟨-, hInsert⟩
  · rw [hInsert] at hn
    exact .inl hn
  · rw [hInsert] at hn
    simpa [keys, List.map_append] using hn

/- What a cell holds is old or has just been bound. -/
theorem mem_cells_insert
    {d : Dictionary}
    {key : Name}
    {v : Object}
    {h : Heap}
    {c : SlotId × Object}
    (hc : c ∈ (d.insert key v h).2.cells) :
    c ∈ h.cells ∨ c.2 = v := by
  rcases d.insert_cases key v h with
    ⟨slot, -, hInsert⟩ | ⟨-, hInsert⟩
  · rw [hInsert] at hc
    exact (Heap.mem_cells_write hc).2
  · rw [hInsert] at hc
    unfold Heap.allocate at hc
    rcases List.mem_cons.mp hc with rfl | hc
    · exact .inr rfl
    · exact .inl hc

/- Other keys stay bound to their cells. -/
theorem find?_insert_of_ne
    (d : Dictionary)
    {key n : Name}
    (hOther : key.is n = false)
    (v : Object)
    (h : Heap) :
    (d.insert key v h).1.find? n = d.find? n := by
  rcases d.insert_cases key v h with
    ⟨slot, -, hInsert⟩ | ⟨-, hInsert⟩
  · rw [hInsert]
  · rw [hInsert]
    simp [find?, List.find?_append, hOther]

/- A key that is bound stays bound to its cell. -/
theorem find?_insert_of_some
    (d : Dictionary)
    {key n : Name}
    {slot : SlotId}
    (hFind : d.find? n = some slot)
    (v : Object)
    (h : Heap) :
    (d.insert key v h).1.find? n = some slot := by
  rcases d.insert_cases key v h with
    ⟨slot, -, hInsert⟩ | ⟨-, hInsert⟩
  · rw [hInsert]
    exact hFind
  · rw [hInsert]
    unfold find? at hFind ⊢
    rcases Option.map_eq_some_iff.mp hFind with
      ⟨e, hEntry, hSlot⟩
    rw [List.find?_append, hEntry, Option.some_or,
      Option.map_some, hSlot]

end Dictionary

------------------------------------------------------------
-- Later Cells
------------------------------------------------------------

namespace Heap

/- Cells have been numbered in turn. -/
def Numbered
    (h : Heap) : Prop :=
  ∀ c ∈ h.cells, c.1.index < h.next

/-
  Cells at a later time. Cells that were made before and are
  not in use never come into use again.
-/
structure Follows
    (h h' : Heap) : Prop where
  next : h.next ≤ h'.next
  numbered : h.Numbered → h'.Numbered
  live :
    ∀ slot : SlotId, slot.index < h.next →
      h'.isLive slot = true → h.isLive slot = true

namespace Follows

/- The same cells. -/
theorem refl
    (h : Heap) :
    h.Follows h :=
  ⟨Nat.le_refl _, id, fun _ _ => id⟩

/- Writing into a cell. -/
theorem write
    (h : Heap)
    (slot : SlotId)
    (v : Object) :
    h.Follows (h.write slot v) := by
  constructor
  case next => exact Nat.le_refl _
  case numbered =>
    intro hNumbered c hc
    rcases (mem_cells_write hc).1 with ⟨c', hc', hSlot⟩
    rw [← hSlot]
    exact hNumbered c' hc'
  case live =>
    intro other _ hLive
    rwa [isLive_write] at hLive

/- Making a new cell. -/
theorem allocate
    (h : Heap)
    (v : Object) :
    h.Follows (h.allocate v).2 := by
  constructor
  case next => exact Nat.le_succ _
  case numbered =>
    intro hNumbered c hc
    rcases List.mem_cons.mp hc with rfl | hc
    · exact Nat.lt_succ_self _
    · exact Nat.lt_succ_of_lt (hNumbered c hc)
  case live =>
    intro slot hOld hLive
    rcases (isLive_allocate h v slot).mp hLive with rfl | hLive
    · exact absurd hOld (Nat.lt_irrefl _)
    · exact hLive

/- Giving up cells. -/
theorem keep
    (h : Heap)
    (wanted : SlotId → Bool) :
    h.Follows (h.keep wanted) := by
  constructor
  case next => exact Nat.le_refl _
  case numbered =>
    intro hNumbered c hc
    exact hNumbered c (List.mem_filter.mp hc).1
  case live => exact fun _ _ hLive => isLive_of_keep hLive

/- Binding a key. -/
theorem insert
    (d : Dictionary)
    (key : Name)
    (v : Object)
    (h : Heap) :
    h.Follows (d.insert key v h).2 := by
  rcases d.insert_cases key v h with
    ⟨slot, -, hInsert⟩ | ⟨-, hInsert⟩
  · rw [hInsert]
    exact write h slot v
  · rw [hInsert]
    exact allocate h v

end Follows

end Heap

/- The dictionaries of a stack. -/
theorem DictStack.mem_frames
    {s : DictStack}
    {d : Dictionary} :
    d ∈ s.frames ↔
      d ∈ s.pushed ∨ d = s.user ∨ d = s.system := by
  unfold frames
  simp

end PostScript
