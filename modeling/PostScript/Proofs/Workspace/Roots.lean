import PostScript.Proofs.Dictionary.Cells
import PostScript.Proofs.Name.Initial
import PostScript.Proofs.Workspace.Reads
import PostScript.Workspace.Basic

/-
  This file defines coherent workspaces, in which every name
  that something refers to is in the table.

  Key definitions include:
    * `Workspace.Coherent`
    * `Workspace.refers`

  Main results:
    * `Shelf.mem_values`
    * `Workspace.Coherent.holds_root`
    * `Workspace.Coherent.forgetting`
-/

namespace PostScript

------------------------------------------------------------
-- Shelves
------------------------------------------------------------

namespace Shelf

variable {α : Type}

/- What is kept is kept under a label. -/
theorem mem_values
    {s : Shelf α}
    {v : α} :
    v ∈ s.values ↔ ∃ label : String, s[label]? = some v := by
  have hList :
      s.values = s.toList.map Prod.snd := by
    have hValues :=
      Std.DHashMap.Internal.Raw.values_eq_values_toListModel
        (m := s.inner.inner)
    have hPairs :=
      Std.DHashMap.Internal.Raw.Const.toList_eq_toListModel_map
        (m := s.inner.inner)
    unfold Std.HashMap.values Std.DHashMap.values
      Std.HashMap.toList Std.DHashMap.Const.toList
    rw [hValues, hPairs, Std.Internal.List.values_eq_map,
      List.map_map]
    rfl
  rw [hList, List.mem_map]
  constructor
  · rintro ⟨⟨label, v⟩, hMem, rfl⟩
    exact ⟨label,
      Std.HashMap.mem_toList_iff_getElem?_eq_some.mp hMem⟩
  · rintro ⟨label, hFound⟩
    exact ⟨(label, v),
      Std.HashMap.mem_toList_iff_getElem?_eq_some.mpr hFound,
      rfl⟩

/- What is found is kept. -/
theorem mem_values_of_get?
    {s : Shelf α}
    {label : String}
    {v : α}
    (h : s.get? label = some v) :
    v ∈ s.values :=
  mem_values.mpr ⟨label, h⟩

/- What is kept is new or was kept before. -/
theorem mem_values_insert
    {s : Shelf α}
    {label : String}
    {v v' : α}
    (h : v' ∈ (s.insert label v).values) :
    v' ∈ s.values ∨ v' = v := by
  rcases mem_values.mp h with ⟨label', hFound⟩
  rw [Std.HashMap.getElem?_insert] at hFound
  split at hFound
  · simp only [Option.some.injEq] at hFound
    exact .inr hFound.symm
  · exact .inl (mem_values.mpr ⟨label', hFound⟩)

/- What is not dropped was kept before. -/
theorem mem_values_erase
    {s : Shelf α}
    {label : String}
    {v : α}
    (h : v ∈ (s.erase label).values) :
    v ∈ s.values := by
  rcases mem_values.mp h with ⟨label', hFound⟩
  rw [Std.HashMap.getElem?_erase] at hFound
  split at hFound
  · contradiction
  · exact mem_values.mpr ⟨label', hFound⟩

/- What is kept under numbers is kept. -/
theorem mem_values_insertNumbered
    {label : String}
    {s : Shelf α}
    {first : Nat}
    {things : List α}
    {v : α}
    (h : v ∈ (insertNumbered label s first things).values) :
    v ∈ s.values ∨ v ∈ things := by
  induction things generalizing s first with
  | nil => exact .inl h
  | cons thing things ih =>
      rcases ih h with h | h
      · rcases mem_values_insert h with h | rfl
        · exact .inl h
        · exact .inr (List.mem_cons_self ..)
      · exact .inr (List.mem_cons_of_mem _ h)

end Shelf

------------------------------------------------------------
-- Referenced Names
------------------------------------------------------------

namespace Workspace

/- Whether something refers to a name. -/
def refers
    (w : Workspace)
    (n : Name) : Bool :=
  w.rootIds.contains n.id

/- What it takes for something to refer to a name. -/
theorem mem_rootNames
    {w : Workspace}
    {n : Name} :
    n ∈ w.rootNames ↔
      n ∈ w.handles.values ∨
        (∃ o ∈ w.objects.values, n ∈ o.names) ∨
        (∃ c ∈ w.scope.heap.cells, n ∈ c.2.names) ∨
        ∃ d ∈ w.dictionaries, n ∈ d.keys := by
  unfold rootNames cellValues
  rw [List.mem_append, Object.mem_listNamesBefore,
    List.mem_flatMap]
  simp only [List.mem_append, List.mem_map, or_assoc,
    or_and_right, exists_or, exists_exists_and_eq_and]

/- Names are referenced by their numbers. -/
theorem refers_of_mem
    {w : Workspace}
    {n : Name}
    (hn : n ∈ w.rootNames) :
    w.refers n = true := by
  unfold refers rootIds
  rw [Std.HashSet.contains_ofList, List.contains_iff_mem]
  exact List.mem_map_of_mem hn

/-
  A workspace whose table holds all names that occur in it
  and whose cells have been numbered in turn.
-/
structure Coherent
    (w : Workspace) : Prop where
  names : w.names.Reachable
  handles : ∀ n ∈ w.handles.values, w.names.Holds n
  objects : ∀ o ∈ w.objects.values, w.names.Knows o
  cells : ∀ c ∈ w.scope.heap.cells, w.names.Knows c.2
  numbered : w.scope.heap.Numbered
  keys :
    ∀ d ∈ w.dictionaries, ∀ n ∈ d.keys, w.names.Holds n

namespace Coherent

variable {w w' : Workspace}

/- Reading gives names that are in the table. -/
theorem grounded
    (h : w.Coherent) :
    w.scope.Grounded w.names :=
  ⟨fun _ hn => h.names.wellFormed.holds_system hn, h.cells⟩

/- A name that something refers to is in the table. -/
theorem holds_root
    (h : w.Coherent)
    {n : Name}
    (hn : n ∈ w.rootNames) :
    w.names.Holds n := by
  rcases mem_rootNames.mp hn with
    hn | ⟨o, ho, hn⟩ | ⟨c, hc, hn⟩ | ⟨d, hd, hn⟩
  · exact h.handles n hn
  · exact h.objects o ho n hn
  · exact h.cells c hc n hn
  · exact h.keys d hd n hn

/- A table may grow while the rest stays as it is. -/
theorem growing
    (h : w.Coherent)
    {t : NameTable}
    (hTable : t.Reachable)
    (hHolds : ∀ n, w.names.Holds n → t.Holds n) :
    ({ w with names := t } : Workspace).Coherent :=
  ⟨hTable,
    fun n hn => hHolds n (h.handles n hn),
    fun o ho n hn => hHolds n (h.objects o ho n hn),
    fun c hc n hn => hHolds n (h.cells c hc n hn),
    h.numbered,
    fun d hd n hn => hHolds n (h.keys d hd n hn)⟩

/- Names may be forgotten if nothing refers to them. -/
theorem forgetting
    (h : w.Coherent)
    {t : NameTable}
    (hTable : t.Reachable)
    (hHolds :
      ∀ n, w.names.Holds n → w.refers n = true →
        t.Holds n) :
    ({ w with names := t } : Workspace).Coherent := by
  have hRoot : ∀ n ∈ w.rootNames, t.Holds n :=
    fun n hn => hHolds n (h.holds_root hn) (refers_of_mem hn)
  constructor
  case names => exact hTable
  case handles =>
    intro n hn
    exact hRoot n (mem_rootNames.mpr (.inl hn))
  case objects =>
    intro o ho n hn
    exact hRoot n (mem_rootNames.mpr (.inr (.inl ⟨o, ho, hn⟩)))
  case cells =>
    intro c hc n hn
    exact hRoot n
      (mem_rootNames.mpr (.inr (.inr (.inl ⟨c, hc, hn⟩))))
  case numbered => exact h.numbered
  case keys =>
    intro d hd n hn
    exact hRoot n
      (mem_rootNames.mpr (.inr (.inr (.inr ⟨d, hd, hn⟩))))

end Coherent

end Workspace

end PostScript
