import PostScript.Proofs.Object.Names
import PostScript.Sequence.Writing

/-
  This file describes what the first walk over the objects of
  a sequence finds out: no block is too deep or too long, and
  the records are as many as the objects.

  Main results:
    * `Sequence.Writer.measureBlock_ok`
    * `Sequence.Writer.records_of_measureObject`
    * `Sequence.Writer.records_of_measureObjects`
-/

namespace PostScript.Sequence

namespace Writer

variable {w : Writer}

/- A block that may be written has a depth and a length. -/
theorem measureBlock_ok
    {x x' : Extent}
    {depth count : Nat}
    (h : measureBlock x depth count = .ok x') :
    depth ≤ maxNesting ∧ count ≤ maxRecordLength ∧
      x'.records = x.records + count := by
  unfold measureBlock at h
  split at h
  · contradiction
  next hDepth =>
    split at h
    · contradiction
    next hCount =>
      simp only [Except.ok.injEq] at h
      subst h
      exact ⟨Nat.le_of_not_lt hDepth,
        Nat.le_of_not_lt hCount, rfl⟩

/- An array that may be written holds a block that may. -/
theorem measureObject_array
    {x x' : Extent}
    {depth : Nat}
    {es : List Object}
    {a : Attributes}
    (h : w.measureObject x depth (.array es a) = .ok x') :
    ∃ x₁, measureBlock x (depth + 1) es.length = .ok x₁ ∧
      w.measureObjects x₁ (depth + 1) es = .ok x' := by
  unfold measureObject at h
  split at h
  · contradiction
  · cases hBlock : measureBlock x (depth + 1) es.length with
    | error cause =>
        rw [hBlock] at h
        contradiction
    | ok x₁ =>
        rw [hBlock] at h
        exact ⟨x₁, rfl, h⟩

/- Objects that may be written may be written in turn. -/
theorem measureObjects_cons
    {x x' : Extent}
    {depth : Nat}
    {e : Object}
    {es : List Object}
    (h : w.measureObjects x depth (e :: es) = .ok x') :
    ∃ x₁, w.measureObject x depth e = .ok x₁ ∧
      w.measureObjects x₁ depth es = .ok x' := by
  unfold measureObjects at h
  cases hHead : w.measureObject x depth e with
  | error cause =>
      rw [hHead] at h
      contradiction
  | ok x₁ =>
      rw [hHead] at h
      exact ⟨x₁, rfl, h⟩

/- A real that may be written is finite. -/
theorem measureAtom_real
    {x x' : Extent}
    {a : Attributes}
    {v : Real}
    (h : w.measureAtom x a (.real v) = .ok x') :
    v.isFinite = true ∧ x' = x := by
  unfold measureAtom at h
  dsimp only at h
  split at h
  next hFinite =>
    simp only [Except.ok.injEq] at h
    exact ⟨hFinite, h.symm⟩
  next => contradiction

/- The text of a name that may be written is of some length. -/
theorem measureAtom_name
    {x x' : Extent}
    {a : Attributes}
    {n : Name}
    (hIndex : w.nameIndex? n = none)
    (h : w.measureAtom x a (.name n) = .ok x') :
    n.bytes.size ≠ 0 ∧
      n.bytes.size ≤ maxLongNameLength ∧
      x' = x.addText n.bytes.size := by
  unfold measureAtom at h
  dsimp only at h
  rw [hIndex] at h
  dsimp only at h
  split at h
  · contradiction
  next hSome =>
    split at h
    · contradiction
    next hShort =>
      simp only [Except.ok.injEq] at h
      exact ⟨hSome, Nat.le_of_not_lt hShort, h.symm⟩

/- A string that may be written fits a record. -/
theorem measureAtom_string
    {x x' : Extent}
    {a : Attributes}
    {bytes : Bytes}
    (h : w.measureAtom x a (.string bytes) = .ok x') :
    bytes.size ≤ maxRecordLength ∧
      x' = x.addText bytes.size := by
  unfold measureAtom at h
  dsimp only at h
  split at h
  · contradiction
  · split at h
    · contradiction
    next hShort =>
      simp only [Except.ok.injEq] at h
      exact ⟨Nat.le_of_not_lt hShort, h.symm⟩

/- Atoms take no records but their own. -/
theorem records_of_measureAtom
    {x x' : Extent}
    {a : Attributes}
    {v : Atom}
    (h : w.measureAtom x a v = .ok x') :
    x'.records = x.records := by
  cases v with
  | infinity => contradiction
  | null | mark | integer v | boolean v =>
      unfold measureAtom at h
      simp only [Except.ok.injEq] at h
      rw [h]
  | real v =>
      rw [(measureAtom_real h).2]
  | name n =>
      cases hIndex : w.nameIndex? n with
      | some i =>
          unfold measureAtom at h
          dsimp only at h
          rw [hIndex] at h
          simp only [Except.ok.injEq] at h
          rw [h]
      | none =>
          rw [(measureAtom_name hIndex h).2.2]
          rfl
  | string bytes =>
      rw [(measureAtom_string h).2]
      rfl

/- The records of a sequence are the objects inside it. -/
mutual

theorem records_of_measureObject
    {x x' : Extent}
    {depth : Nat} :
    ∀ {o : Object},
      w.measureObject x depth o = .ok x' →
        x'.records = x.records + o.total
  | .atom v a => by
      intro h
      unfold measureObject at h
      exact records_of_measureAtom h
  | .array es a => by
      intro h
      rcases measureObject_array h with
        ⟨x₁, hBlock, hElements⟩
      have hHere := (measureBlock_ok hBlock).2.2
      have hBelow := records_of_measureObjects hElements
      rw [Object.total]
      omega

theorem records_of_measureObjects
    {x x' : Extent}
    {depth : Nat} :
    ∀ {es : List Object},
      w.measureObjects x depth es = .ok x' →
        x'.records + es.length =
          x.records + Object.totalFrom 0 es
  | [] => by
      intro h
      unfold measureObjects at h
      simp only [Except.ok.injEq] at h
      rw [h]
      rfl
  | e :: es => by
      intro h
      rcases measureObjects_cons h with ⟨x₁, hHead, hTail⟩
      have hFirst := records_of_measureObject hHead
      have hNext := records_of_measureObjects hTail
      rw [Object.totalFrom_cons, List.length_cons]
      omega

end

/- A sequence that may be written is a block that may. -/
theorem measure_ok
    {objs : List Object}
    {x : Extent}
    (h : w.measure objs = .ok x) :
    ∃ x₀, measureBlock ⟨0, 0⟩ 0 objs.length = .ok x₀ ∧
      w.measureObjects x₀ 0 objs = .ok x := by
  unfold measure at h
  cases hBlock : measureBlock ⟨0, 0⟩ 0 objs.length with
  | error cause =>
      rw [hBlock] at h
      contradiction
  | ok x₀ =>
      rw [hBlock] at h
      exact ⟨x₀, rfl, h⟩

/- A sequence that may be written has so many records. -/
theorem records_of_measure
    {objs : List Object}
    {x : Extent}
    (h : w.measure objs = .ok x) :
    x.records = Object.totalFrom 0 objs ∧
      objs.length ≤ maxRecordLength := by
  rcases measure_ok h with ⟨x₀, hBlock, hObjects⟩
  rcases measureBlock_ok hBlock with ⟨-, hCount, hStart⟩
  have hAll := records_of_measureObjects hObjects
  refine ⟨?_, hCount⟩
  dsimp only at hStart
  omega

end Writer

end PostScript.Sequence
