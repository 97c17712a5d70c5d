import PostScript.Proofs.Workspace.Commands

/-
  This file shows that in every session names are the same if
  and only if their bytes are, for as long as something refers
  to them and whatever is forgotten in the meantime.

  Key definitions include:
    * `Workspace.Identifies`

  Main results:
    * `Workspace.Coherent.identifies`
    * `Workspace.identifies_performAll`
-/

namespace PostScript

namespace Workspace

/-
  What a table of names promises to the rest of a workspace.
  Entries stand in the buckets of their bytes, of which no two
  have the same; names that something refers to are found
  again; and system names are always the same.
-/
structure Identifies
    (w : Workspace) : Prop where
  placed :
    ∀ i : Fin bucketCount,
      ∀ e ∈ w.names.bucket i, bucketOf e.name.bytes = i
  distinct :
    (w.names.entries.map (fun e => e.name.bytes)).Nodup
  counted :
    w.names.size = w.names.entries.length
  found :
    ∀ n ∈ w.rootNames,
      w.names.Holds n ∧ w.names.lookup n.bytes = some n
  same :
    ∀ m ∈ w.rootNames, ∀ n ∈ w.rootNames,
      m.is n = true ↔ m.bytes = n.bytes
  system :
    ∀ i,
      w.names.systemName? i = NameTable.initial.systemName? i
  systemLevel :
    ∀ i n, w.names.systemName? i = some n →
      (w.names.entry? n).map NameEntry.level = some 0
  systemInterned :
    ∀ i n, w.names.systemName? i = some n →
      w.names.intern n.bytes = (.ok n, w.names) ∧
        w.names.internLong n.bytes = (.ok n, w.names)

end Workspace

------------------------------------------------------------
-- System Names
------------------------------------------------------------

namespace NameTable

/- The system names of a table that can be reached. -/
theorem WellFormed.systemName?_cases
    {t : NameTable}
    (hTable : t.WellFormed)
    {i : Nat}
    {n : Name}
    (hFound : t.systemName? i = some n) :
    n.bytes ∈ systemNames ∧
      ∃ e ∈ t.entries, e.name = n ∧ e.level = 0 := by
  unfold systemName? at hFound
  rw [hTable.recorded] at hFound
  rcases Option.map_eq_some_iff.mp hFound with
    ⟨bytes, hSystem, rfl⟩
  exact ⟨Array.mem_of_getElem? hSystem,
    hTable.system i bytes hSystem⟩

/- System names are the same in all tables of a run. -/
theorem WellFormed.systemName?_eq_initial
    {t : NameTable}
    (hTable : t.WellFormed)
    (i : Nat) :
    t.systemName? i = initial.systemName? i := by
  unfold systemName?
  rw [hTable.recorded,
    lists_initial.wellFormed.recorded]

end NameTable

------------------------------------------------------------
-- Sessions
------------------------------------------------------------

namespace Workspace

/- A coherent workspace keeps what its table promises. -/
theorem Coherent.identifies
    {w : Workspace}
    (h : w.Coherent) :
    w.Identifies := by
  have hTable := h.names.wellFormed
  constructor
  case placed => exact hTable.placed
  case distinct => exact hTable.distinct
  case counted => exact hTable.counted
  case found =>
    intro n hn
    have hHolds := h.holds_root hn
    exact ⟨hHolds,
      (hTable.lookup_eq_some_iff n.bytes n).mpr ⟨hHolds, rfl⟩⟩
  case same =>
    intro m hm n hn
    exact hTable.is_iff_bytes (h.holds_root hm)
      (h.holds_root hn)
  case system => exact hTable.systemName?_eq_initial
  case systemLevel =>
    intro i n hFound
    rcases (hTable.systemName?_cases hFound).2 with
      ⟨e, he, rfl, hLevel⟩
    rw [hTable.entry?_name he, Option.map_some, hLevel]
  case systemInterned =>
    intro i n hFound
    rcases hTable.systemName?_cases hFound with
      ⟨hSystem, e, he, hName, -⟩
    have hShort := size_le_of_mem_systemNames hSystem
    have hLong : n.bytes.size ≤ maxLongNameLength :=
      Nat.le_trans hShort (by decide)
    exact ⟨hTable.internWithin_of_holds ⟨e, he, hName⟩ hShort,
      hTable.internWithin_of_holds ⟨e, he, hName⟩ hLong⟩

/-
  In every session names are the same if and only if their
  bytes are, at any time and for all names that something
  refers to.
-/
theorem identifies_performAll
    (settings : ScanSettings)
    (cs : List Command) :
    ((initial settings).performAll cs).Identifies :=
  ((coherent_initial settings).performAll cs).identifies

end Workspace

end PostScript
