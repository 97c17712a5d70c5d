import PostScript.Proofs.Object.Parts
import PostScript.Proofs.Sequence.Measure

/-
  This file describes which objects can be written as a
  sequence, by conditions on the objects alone, and shows that
  the first walk of the writer decides them: it fails for a
  condition that is violated, and measures the space that is
  needed if there is none.

  Key definitions include:
    * `Sequence.Writer.textSize`
    * `Sequence.Writer.Encodable`
    * `Sequence.Writer.Violates`
    * `Sequence.Writer.Blocked`

  Main results:
    * `Sequence.Writer.blocked_cons`
    * `Sequence.Writer.measureObject_judges`
    * `Sequence.Writer.measure_judges`
-/

namespace PostScript.Sequence

------------------------------------------------------------
-- Conditions
------------------------------------------------------------

/- The contents of strings and arrays may be read. -/
def Readable
    (o : Object) : Prop :=
  o.isComposite = true → o.attrs.access.canRead = true

/- An object is no infinity, and no real that is not finite. -/
def IsFinite : Object → Prop
  | .atom .infinity _ => False
  | .atom (.real v) _ => v.isFinite = true
  | _ => True

/- A record can tell how long a string or an array is. -/
def FitsRecord : Object → Prop
  | .atom (.string bytes) _ => bytes.size ≤ maxRecordLength
  | .atom _ _ => True
  | .array es _ => es.length ≤ maxRecordLength

/- Some object, at any depth, is not as it should be. -/
def Fails
    (P : Object → Prop)
    (objs : List Object) : Prop :=
  ∃ o ∈ Object.allParts objs, ¬ P o

/- A list fails in its first object or in the others. -/
theorem fails_cons
    {P : Object → Prop}
    {e : Object}
    {es : List Object} :
    Fails P (e :: es) ↔ Fails P [e] ∨ Fails P es := by
  unfold Fails
  rw [← List.singleton_append, Object.allParts_append]
  simp only [List.mem_append, or_and_right, exists_or]

/- An empty list does not fail. -/
theorem not_fails_nil
    {P : Object → Prop} :
    ¬ Fails P [] :=
  fun ⟨_, h, _⟩ => nomatch h

/- An atom fails in itself. -/
theorem fails_atom
    {P : Object → Prop}
    {v : Atom}
    {a : Attributes} :
    Fails P [.atom v a] ↔ ¬ P (.atom v a) := by
  simp [Fails, Object.allParts, Object.parts]

/- An array fails in itself or in its elements. -/
theorem fails_array
    {P : Object → Prop}
    {es : List Object}
    {a : Attributes} :
    Fails P [.array es a] ↔
      ¬ P (.array es a) ∨ Fails P es := by
  have hParts :
      Object.allParts [.array es a] =
        .array es a :: Object.allParts es :=
    congrArg _ (List.append_nil _)
  unfold Fails
  rw [hParts]
  simp only [List.mem_cons, exists_eq_or_imp]

namespace Writer

variable (w : Writer)

/- The text that an atom is written with. -/
def text : Atom → Bytes
  | .name n =>
      match w.nameIndex? n with
      | some _ => #[]
      | none => n.bytes
  | .string bytes => bytes
  | _ => #[]

/- The text that an object is written with. -/
def textOf : Object → Bytes
  | .atom v _ => w.text v
  | .array _ _ => #[]

/- A name that is written as text is not empty. -/
def Named : Object → Prop
  | .atom (.name n) _ =>
      w.nameIndex? n = none → n.bytes.size ≠ 0
  | _ => True

/- The text of all strings and of all names as text. -/
def allText
    (objs : List Object) : List UInt8 :=
  (Object.allParts objs).flatMap (fun o => (w.textOf o).toList)

/- The number of bytes that this text has. -/
def textSize
    (objs : List Object) : Nat :=
  (w.allText objs).length

/- The bytes of all records and of all text. -/
def payloadSize
    (objs : List Object) : Nat :=
  recordSize * Object.totalFrom 0 objs + w.textSize objs

/- What objects must be like in order to be written. -/
structure Encodable
    (objs : List Object) : Prop where
  readable : ∀ o ∈ Object.allParts objs, Readable o
  finite : ∀ o ∈ Object.allParts objs, IsFinite o
  named : ∀ o ∈ Object.allParts objs, w.Named o
  fits : ∀ o ∈ Object.allParts objs, FitsRecord o
  count : objs.length ≤ maxRecordLength
  nesting : Object.tallest 0 objs ≤ maxNesting
  space : w.payloadSize objs + 8 ≤ 0xffffffff

/-
  Each kind of error stands for conditions. Objects violate
  them if one of these does not hold.
-/
def Violates
    (objs : List Object) : ErrorKind → Prop
  | .invalidAccess => Fails Readable objs
  | .undefinedResult => Fails IsFinite objs
  | .rangeCheck =>
      Fails w.Named objs ∨
        maxNesting < Object.tallest 0 objs
  | .limitCheck =>
      Fails FitsRecord objs ∨
        maxRecordLength < objs.length ∨
        0xffffffff < w.payloadSize objs + 8
  | _ => False

/- Objects can be written if they violate no condition. -/
theorem encodable_iff
    {objs : List Object} :
    w.Encodable objs ↔ ∀ kind, ¬ w.Violates objs kind := by
  have hAll :
      ∀ P : Object → Prop,
        (∀ o ∈ Object.allParts objs, P o) ↔
          ¬ Fails P objs := by
    intro P
    unfold Fails
    simp only [not_exists, not_and, Classical.not_not]
  constructor
  · intro h kind hNot
    cases kind with
    | invalidAccess => exact (hAll _).mp h.readable hNot
    | undefinedResult => exact (hAll _).mp h.finite hNot
    | rangeCheck =>
        rcases hNot with hNot | hNot
        · exact (hAll _).mp h.named hNot
        · exact Nat.not_lt.mpr h.nesting hNot
    | limitCheck =>
        rcases hNot with hNot | hNot | hNot
        · exact (hAll _).mp h.fits hNot
        · exact Nat.not_lt.mpr h.count hNot
        · exact Nat.not_lt.mpr h.space hNot
    | _ => exact hNot
  · intro h
    have hRange := not_or.mp (h .rangeCheck)
    have hLimit := not_or.mp (h .limitCheck)
    rw [not_or] at hLimit
    constructor
    case readable => exact (hAll _).mpr (h .invalidAccess)
    case finite => exact (hAll _).mpr (h .undefinedResult)
    case named => exact (hAll _).mpr hRange.1
    case fits => exact (hAll _).mpr hLimit.1
    case count => exact Nat.le_of_not_lt hLimit.2.1
    case nesting => exact Nat.le_of_not_lt hRange.2
    case space => exact Nat.le_of_not_lt hLimit.2.2

------------------------------------------------------------
-- Conditions within a Block
------------------------------------------------------------

/-
  What keeps the objects of a block from being written, if the
  block stands inside `depth` arrays. Its own length and the
  space for all are not looked at.
-/
def Blocked
    (depth : Nat)
    (objs : List Object) : ErrorKind → Prop
  | .invalidAccess => Fails Readable objs
  | .undefinedResult => Fails IsFinite objs
  | .rangeCheck =>
      Fails w.Named objs ∨
        maxNesting < depth + Object.tallest 0 objs
  | .limitCheck => Fails FitsRecord objs
  | _ => False

variable {w}

/- No objects are blocked if there are none. -/
theorem not_blocked_nil
    {depth : Nat}
    (hDepth : depth ≤ maxNesting)
    (kind : ErrorKind) :
    ¬ w.Blocked depth [] kind := by
  cases kind with
  | invalidAccess | undefinedResult | limitCheck =>
      exact not_fails_nil
  | rangeCheck =>
      exact not_or.mpr ⟨not_fails_nil, Nat.not_lt.mpr hDepth⟩
  | _ => exact id

/- A list is blocked by its first object or by the others. -/
theorem blocked_cons
    {depth : Nat}
    {e : Object}
    {es : List Object}
    (kind : ErrorKind) :
    w.Blocked depth (e :: es) kind ↔
      w.Blocked depth [e] kind ∨ w.Blocked depth es kind := by
  have hHeight :
      maxNesting < depth + Object.tallest 0 (e :: es) ↔
        maxNesting < depth + Object.tallest 0 [e] ∨
          maxNesting < depth + Object.tallest 0 es := by
    rw [← List.singleton_append, Object.tallest_append]
    omega
  cases kind with
  | invalidAccess | undefinedResult | limitCheck =>
      exact fails_cons
  | rangeCheck =>
      exact (or_congr fails_cons hHeight).trans
        or_or_or_comm
  | _ => exact (or_self_iff (a := False)).symm

/- An array is blocked by its elements, one level deeper. -/
theorem blocked_array
    {depth : Nat}
    {es : List Object}
    {a : Attributes}
    (kind : ErrorKind)
    (h : w.Blocked (depth + 1) es kind) :
    w.Blocked depth [.array es a] kind := by
  cases kind with
  | invalidAccess | undefinedResult | limitCheck =>
      exact fails_array.mpr (.inr h)
  | rangeCheck =>
      rcases h with h | h
      · exact .inl (fails_array.mpr (.inr h))
      · refine .inr ?_
        rw [Object.tallest_cons, Object.height]
        omega
  | _ => exact h

/- An array is blocked by nothing but itself besides. -/
theorem not_blocked_array
    {depth : Nat}
    {es : List Object}
    {a : Attributes}
    (hRead : a.access.canRead = true)
    (hCount : es.length ≤ maxRecordLength)
    (h : ∀ kind, ¬ w.Blocked (depth + 1) es kind)
    (kind : ErrorKind) :
    ¬ w.Blocked depth [.array es a] kind := by
  have hParts :
      ∀ {P : Object → Prop},
        P (.array es a) → ¬ Fails P es →
          ¬ Fails P [.array es a] :=
    fun hHere hBelow hFails =>
      (fails_array.mp hFails).elim (absurd hHere) hBelow
  cases kind with
  | invalidAccess =>
      exact hParts (fun _ => hRead) (h .invalidAccess)
  | undefinedResult =>
      exact hParts trivial (h .undefinedResult)
  | rangeCheck =>
      rcases not_or.mp (h .rangeCheck) with ⟨hNamed, hDeep⟩
      refine not_or.mpr ⟨hParts trivial hNamed, ?_⟩
      have hEmpty : Object.tallest 0 [] = 0 := rfl
      rw [Object.tallest_cons, Object.height]
      omega
  | limitCheck => exact hParts hCount (h .limitCheck)
  | _ => exact id

/- An atom is blocked by itself alone. -/
theorem not_blocked_atom
    {depth : Nat}
    {v : Atom}
    {a : Attributes}
    (hDepth : depth ≤ maxNesting)
    (hRead : Readable (.atom v a))
    (hFinite : IsFinite (.atom v a))
    (hNamed : w.Named (.atom v a))
    (hFits : FitsRecord (.atom v a))
    (kind : ErrorKind) :
    ¬ w.Blocked depth [.atom v a] kind := by
  cases kind with
  | invalidAccess => exact fun h => fails_atom.mp h hRead
  | undefinedResult => exact fun h => fails_atom.mp h hFinite
  | rangeCheck =>
      rintro (h | h)
      · exact fails_atom.mp h hNamed
      · exact Nat.not_lt.mpr hDepth h
  | limitCheck => exact fun h => fails_atom.mp h hFits
  | _ => exact id

/- The text of a list is that of its first and the others. -/
theorem textSize_cons
    (e : Object)
    (es : List Object) :
    w.textSize (e :: es) = w.textSize [e] + w.textSize es := by
  unfold textSize allText
  rw [← List.singleton_append, Object.allParts_append,
    List.flatMap_append, List.length_append]

/- The text of an array is that of its elements. -/
theorem textSize_array
    (es : List Object)
    (a : Attributes) :
    w.textSize [.array es a] = w.textSize es := by
  have hParts :
      Object.allParts [.array es a] =
        .array es a :: Object.allParts es :=
    congrArg _ (List.append_nil _)
  unfold textSize allText
  rw [hParts]
  rfl

/- The text of an atom is its own. -/
theorem textSize_atom
    (v : Atom)
    (a : Attributes) :
    w.textSize [.atom v a] = (w.text v).size :=
  congrArg List.length (List.append_nil _)

------------------------------------------------------------
-- The First Walk
------------------------------------------------------------

/-
  A measurement judges the objects of a block: it fails for
  what blocks them, or adds their text if nothing does.
-/
def Judges
    (w : Writer)
    (x : Extent)
    (depth : Nat)
    (objs : List Object)
    (result : Except Cause Extent) : Prop :=
  match result with
  | .ok x' =>
      (∀ kind, ¬ w.Blocked depth objs kind) ∧
        x'.text = x.text + w.textSize objs
  | .error cause => w.Blocked depth objs cause.kind

/- Atoms are judged. -/
theorem measureAtom_judges
    {x : Extent}
    {depth : Nat}
    {v : Atom}
    {a : Attributes}
    (hDepth : depth ≤ maxNesting)
    (hNames :
      ∀ n ∈ (Object.atom v a).names,
        n.bytes.size ≤ maxLongNameLength) :
    Judges w x depth [.atom v a] (w.measureAtom x a v) := by
  have hPlain :
      IsFinite (.atom v a) →
      Readable (.atom v a) →
      FitsRecord (.atom v a) →
      w.Named (.atom v a) →
        ∀ {x' : Extent}, x'.text = x.text + (w.text v).size →
          Judges w x depth [.atom v a] (.ok x') := by
    intro hFinite hRead hFits hNamed x' hText
    refine ⟨not_blocked_atom hDepth hRead hFinite hNamed
      hFits, ?_⟩
    rw [textSize_atom]
    exact hText
  cases v with
  | null | mark | integer v | boolean v =>
      exact hPlain trivial nofun trivial trivial rfl
  | infinity => exact fails_atom.mpr id
  | real v =>
      unfold measureAtom
      dsimp only
      split
      next hFinite =>
        exact hPlain hFinite nofun trivial trivial rfl
      next hNot => exact fails_atom.mpr hNot
  | name n =>
      unfold measureAtom
      dsimp only
      cases hIndex : w.nameIndex? n with
      | some i =>
          have hText : w.text (.name n) = #[] := by
            unfold text
            dsimp only
            rw [hIndex]
          refine hPlain trivial nofun trivial ?_ ?_
          · intro hNone
            rw [hIndex] at hNone
            contradiction
          · rw [hText]
            rfl
      | none =>
          have hText : w.text (.name n) = n.bytes := by
            unfold text
            dsimp only
            rw [hIndex]
          have hShort : ¬ maxLongNameLength < n.bytes.size :=
            Nat.not_lt.mpr
              (hNames n (List.mem_singleton.mpr rfl))
          dsimp only
          rw [if_neg hShort]
          split
          next hEmpty =>
            exact .inl (fails_atom.mpr
              (fun hNamed => hNamed hIndex hEmpty))
          next hSome =>
            refine hPlain trivial nofun trivial
              (fun _ => hSome) ?_
            rw [hText]
            rfl
  | string bytes =>
      unfold measureAtom
      dsimp only
      split
      next hNot =>
        rw [Bool.not_eq_true'] at hNot
        exact fails_atom.mpr (fun hRead =>
          Bool.false_ne_true (hNot.symm.trans (hRead rfl)))
      next hRead =>
        rw [Bool.not_eq_true', Bool.not_eq_false] at hRead
        split
        next hLong =>
          exact fails_atom.mpr (Nat.not_le.mpr hLong)
        next hShort =>
          exact hPlain trivial (fun _ => hRead)
            (Nat.le_of_not_lt hShort) trivial rfl

/-
  Objects are judged, by induction on the objects. A block is
  judged if the arrays around it are not too many already.
-/
mutual

theorem measureObject_judges
    {x : Extent}
    {depth : Nat} :
    ∀ {o : Object},
      depth ≤ maxNesting →
      (∀ n ∈ o.names, n.bytes.size ≤ maxLongNameLength) →
        Judges w x depth [o] (w.measureObject x depth o)
  | .atom v a => by
      intro hDepth hNames
      unfold measureObject
      exact measureAtom_judges hDepth hNames
  | .array es a => by
      intro hDepth hNames
      unfold measureObject
      split
      next hNot =>
        rw [Bool.not_eq_true'] at hNot
        exact fails_array.mpr (.inl (fun hRead =>
          Bool.false_ne_true (hNot.symm.trans (hRead rfl))))
      next hRead =>
        rw [Bool.not_eq_true', Bool.not_eq_false] at hRead
        unfold measureBlock
        by_cases hDeep : maxNesting < depth + 1
        · rw [if_pos hDeep]
          refine .inr ?_
          rw [Object.tallest_cons, Object.height]
          omega
        · rw [if_neg hDeep]
          by_cases hLong : maxRecordLength < es.length
          · rw [if_pos hLong]
            exact fails_array.mpr
              (.inl (Nat.not_le.mpr hLong))
          · rw [if_neg hLong]
            have hElements :
                Judges w ⟨x.records + es.length, x.text⟩
                  (depth + 1) es _ :=
              measureObjects_judges (Nat.le_of_not_lt hDeep)
                (fun e he n hn => hNames n
                  ((Object.mem_names_array n es a).mpr
                    ⟨e, he, hn⟩))
            dsimp only
            cases hMeasure :
                w.measureObjects
                  ⟨x.records + es.length, x.text⟩
                  (depth + 1) es with
            | ok x' =>
                rw [hMeasure] at hElements
                refine ⟨not_blocked_array hRead
                  (Nat.le_of_not_lt hLong) hElements.1, ?_⟩
                rw [textSize_array]
                exact hElements.2
            | error cause =>
                rw [hMeasure] at hElements
                exact blocked_array _ hElements

theorem measureObjects_judges
    {x : Extent}
    {depth : Nat} :
    ∀ {es : List Object},
      depth ≤ maxNesting →
      (∀ e ∈ es, ∀ n ∈ e.names,
        n.bytes.size ≤ maxLongNameLength) →
        Judges w x depth es (w.measureObjects x depth es)
  | [] => by
      intro hDepth _
      unfold measureObjects
      exact ⟨not_blocked_nil hDepth, rfl⟩
  | e :: es => by
      intro hDepth hNames
      have hFirst :=
        measureObject_judges (x := x) hDepth
          (hNames e (List.mem_cons_self ..))
      unfold measureObjects
      cases hHead : w.measureObject x depth e with
      | error cause =>
          rw [hHead] at hFirst
          exact (blocked_cons _).mpr (.inl hFirst)
      | ok x₁ =>
          rw [hHead] at hFirst
          have hNext : Judges w x₁ depth es _ :=
            measureObjects_judges hDepth
              (fun e' he' =>
                hNames e' (List.mem_cons_of_mem _ he'))
          dsimp only
          cases hMeasure : w.measureObjects x₁ depth es with
          | ok x' =>
              rw [hMeasure] at hNext
              refine ⟨?_, ?_⟩
              · intro kind hBlocked
                rcases (blocked_cons kind).mp hBlocked with
                  h | h
                · exact hFirst.1 kind h
                · exact hNext.1 kind h
              · rw [hNext.2, hFirst.2, textSize_cons e es,
                  Nat.add_assoc]
          | error cause =>
              rw [hMeasure] at hNext
              exact (blocked_cons _).mpr (.inr hNext)

end

/- What blocks objects at the top level is a violation. -/
theorem violates_of_blocked
    {objs : List Object}
    {kind : ErrorKind}
    (h : w.Blocked 0 objs kind) :
    w.Violates objs kind := by
  cases kind with
  | invalidAccess | undefinedResult => exact h
  | rangeCheck =>
      unfold Blocked at h
      rw [Nat.zero_add] at h
      exact h
  | limitCheck => exact .inl h
  | _ => exact h

/-
  Objects that are not blocked at the top level can be written
  if neither they nor their bytes are too many.
-/
theorem encodable_of_not_blocked
    {objs : List Object}
    (h : ∀ kind, ¬ w.Blocked 0 objs kind)
    (hCount : objs.length ≤ maxRecordLength)
    (hSpace : w.payloadSize objs + 8 ≤ 0xffffffff) :
    w.Encodable objs := by
  rw [encodable_iff]
  intro kind hNot
  cases kind with
  | invalidAccess => exact h .invalidAccess hNot
  | undefinedResult => exact h .undefinedResult hNot
  | rangeCheck =>
      refine h .rangeCheck ?_
      unfold Blocked
      rw [Nat.zero_add]
      exact hNot
  | limitCheck =>
      rcases hNot with hNot | hNot | hNot
      · exact h .limitCheck hNot
      · exact Nat.not_lt.mpr hCount hNot
      · exact Nat.not_lt.mpr hSpace hNot
  | _ => exact hNot

/-
  The first walk fails for a condition that is violated, or
  else finds nothing that blocks the objects and measures
  their bytes.
-/
theorem measure_judges
    {objs : List Object}
    (hNames :
      ∀ o ∈ objs, ∀ n ∈ o.names,
        n.bytes.size ≤ maxLongNameLength) :
    match w.measure objs with
    | .ok x =>
        (∀ kind, ¬ w.Blocked 0 objs kind) ∧
          objs.length ≤ maxRecordLength ∧
          x.records = Object.totalFrom 0 objs ∧
          x.text = w.textSize objs
    | .error cause => w.Violates objs cause.kind := by
  cases hMeasure : w.measure objs with
  | ok x =>
      rcases records_of_measure hMeasure with
        ⟨hRecords, hCount⟩
      rcases measure_ok hMeasure with ⟨x₀, hBlock, hObjects⟩
      have hJudges :=
        measureObjects_judges (w := w) (x := x₀)
          (Nat.zero_le maxNesting) hNames
      rw [hObjects] at hJudges
      have hStart : x₀.text = 0 := by
        unfold measureBlock at hBlock
        split at hBlock
        · contradiction
        · split at hBlock
          · contradiction
          · cases hBlock
            rfl
      rw [Judges, hStart, Nat.zero_add] at hJudges
      exact ⟨hJudges.1, hCount, hRecords, hJudges.2⟩
  | error cause =>
      unfold measure measureBlock at hMeasure
      rw [if_neg (Nat.not_lt_zero _)] at hMeasure
      by_cases hLong : maxRecordLength < objs.length
      · rw [if_pos hLong] at hMeasure
        cases hMeasure
        exact .inr (.inl hLong)
      · rw [if_neg hLong] at hMeasure
        have hJudges :=
          measureObjects_judges (w := w)
            (x := ⟨0 + objs.length, 0⟩)
            (Nat.zero_le maxNesting) hNames
        dsimp only at hMeasure
        rw [hMeasure] at hJudges
        exact violates_of_blocked hJudges

end Writer

end PostScript.Sequence
