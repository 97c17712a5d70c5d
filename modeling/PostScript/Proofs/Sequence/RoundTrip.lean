import PostScript.Proofs.Object.Transmitted
import PostScript.Proofs.Sequence.Contents
import PostScript.Proofs.Sequence.Fields
import PostScript.Proofs.Sequence.Measure

/-
  This file shows that objects that are written as a sequence
  are read back, by a simulation between the arena that is
  filled and the progress of the reader.

  Main results:
    * `Sequence.object_of_fillObject`
    * `Sequence.objectsAfter_of_fillObjects`
    * `Sequence.read_writeAll`
-/

namespace PostScript.Sequence

variable {ε : Type}
variable [Environment ε]
variable {w : Writer}
variable {p : Payload}
variable {t : NameTable}

------------------------------------------------------------
-- Atoms
------------------------------------------------------------

/- A finite real is no infinity. -/
theorem isInfinite_of_isFinite
    {v : Real}
    (hFinite : v.isFinite = true) :
    Real.isInfinite ⟨v.bits, 0⟩ = false := by
  have hSame :
      Real.isInfinite ⟨v.bits, 0⟩ = v.isInfinite := rfl
  rw [hSame]
  unfold Real.isFinite at hFinite
  unfold Real.isInfinite
  cases hValue : v.single with
  | infinite negative =>
      rw [hValue] at hFinite
      contradiction
  | nan | finite negative m e => rfl

/-
  An atom is read as it was written. Its text stands between
  the new and the old top.
-/
theorem contents_of_atomRecord
    (hTable : t.WellFormed)
    (env : ε)
    (nested : Nat → Nat → Reading (List Object))
    {v : Atom}
    {attrs : Attributes}
    (hNames : ∀ n ∈ (Object.atom v attrs).names, t.Holds n)
    {x x' : Extent}
    (hMeasure : w.measureAtom x attrs v = .ok x')
    {a b : Arena}
    {r : Record}
    (hRecord :
      w.atomRecord attrs.executable a v = .ok (r, b))
    (hSize : a.data.size = p.data.size)
    (hSmall : p.data.size < 0xffffffff)
    (hTop : a.top ≤ p.data.size)
    (hData :
      ∀ i, b.top ≤ i → i < a.top →
        p.data[i]? = b.data[i]?)
    (budget : Nat) :
    ∃ type, r.type = RecordType.code type ∧
      contents p env nested r type (a.progress t budget) =
        .ok ((Object.atom v attrs).transmitted env)
          (b.progress t budget) := by
  cases v with
  | infinity => contradiction
  | null =>
      simp only [Writer.atomRecord, Except.ok.injEq,
        Prod.mk.injEq] at hRecord
      rcases hRecord with ⟨rfl, rfl⟩
      exact ⟨.null, rfl, rfl⟩
  | mark =>
      simp only [Writer.atomRecord, Except.ok.injEq,
        Prod.mk.injEq] at hRecord
      rcases hRecord with ⟨rfl, rfl⟩
      exact ⟨.mark, rfl, rfl⟩
  | integer v =>
      simp only [Writer.atomRecord, Except.ok.injEq,
        Prod.mk.injEq] at hRecord
      rcases hRecord with ⟨rfl, rfl⟩
      exact ⟨.integer, rfl, rfl⟩
  | boolean v =>
      simp only [Writer.atomRecord, Except.ok.injEq,
        Prod.mk.injEq] at hRecord
      rcases hRecord with ⟨rfl, rfl⟩
      refine ⟨.boolean, rfl, ?_⟩
      cases v <;> rfl
  | real v =>
      simp only [Writer.atomRecord, Except.ok.injEq,
        Prod.mk.injEq] at hRecord
      rcases hRecord with ⟨rfl, rfl⟩
      have hFinite := (Writer.measureAtom_real hMeasure).1
      refine ⟨.real, rfl, ?_⟩
      unfold contents
      dsimp only
      rw [bind_of_ok
        (Payload.real_of_realFields v hFinite _ _ _)]
      unfold Object.real
      rw [isInfinite_of_isFinite hFinite]
      rfl
  | name n =>
      have hn : t.Holds n :=
        hNames n (by simp [Object.names, Object.namesBefore])
      rcases Payload.name_of_atomRecord hTable hn hMeasure
          hRecord hSize hSmall hTop hData budget with
        ⟨hType, hExecutable, hName⟩
      refine ⟨.name, hType, ?_⟩
      unfold contents
      dsimp only
      rw [bind_of_ok hName, hExecutable]
      rfl
  | string bytes =>
      rcases Writer.textRecord_ok hRecord with
        ⟨start, hPut, rfl⟩
      have hLength := (Writer.measureAtom_string hMeasure).1
      refine ⟨.string, rfl, ?_⟩
      unfold contents
      dsimp only
      rw [bind_of_ok (Payload.text_of_putText hPut hLength
        hSize hSmall hTop hData .string attrs.executable t
        budget)]
      rfl

------------------------------------------------------------
-- Objects
------------------------------------------------------------

/-
  Reading an atom leads the reader from where the arena was
  before the atom was filled in to where it was after it.
-/
theorem object_of_fillAtom
    (hTable : t.WellFormed)
    (hOrder : p.order = w.format.order)
    (hSmall : p.data.size < 0xffffffff)
    (env : ε)
    (nested : Nat → Nat → Reading (List Object))
    {v : Atom}
    {attrs : Attributes}
    {offset budget : Nat}
    {x x' : Extent}
    (hMeasure : w.measureAtom x attrs v = .ok x')
    {a a' : Arena}
    (hFill : w.fillObject offset a (.atom v attrs) = .ok a')
    (hNames : ∀ n ∈ (Object.atom v attrs).names, t.Holds n)
    (hReady : a.Ready p offset 1)
    (hShown : Arena.Shown p offset 1 a a')
    (hBudget : (Object.atom v attrs).total < budget) :
    object p env nested offset (a.progress t budget) =
      .ok ((Object.atom v attrs).transmitted env)
        (a'.progress t
          (budget - (1 + (Object.atom v attrs).total))) := by
  unfold Writer.fillObject at hFill
  cases hRecord : w.atomRecord attrs.executable a v with
  | error cause =>
      rw [hRecord] at hFill
      contradiction
  | ok found =>
      rcases found with ⟨r, b⟩
      rw [hRecord] at hFill
      simp only [Except.ok.injEq] at hFill
      subst hFill
      have hGrows :=
        Writer.atomRecord_grows hRecord hReady.apart
      have hBelow := hReady.below
      have hBottom := hGrows.bottom
      have hApart := hGrows.apart
      have hText :
          ∀ i, b.top ≤ i → i < a.top →
            p.data[i]? = b.data[i]? := by
        intro i hLow hHigh
        rw [hShown i (.inr (.inr ⟨hLow, hHigh⟩))]
        apply Arena.getElem?_put_of_outside
        rw [Record.length_bytes]
        omega
      rcases contents_of_atomRecord hTable env nested hNames
          hMeasure hRecord hReady.size hSmall hReady.top hText
          (budget - 1) with ⟨type, hType, hContents⟩
      have hStands :=
        hReady.stands hShown hGrows.size w.format.order r
          (fun _ _ _ => rfl)
      rw [← hOrder] at hStands
      have hRead :=
        Payload.record_of_stands type hType hStands t
          (Nat.zero_lt_of_lt hBudget) a
      rw [object_of_record env _ hRead type hType]
      exact hContents

/-
  An array is read if its elements are read, which stand in
  the block that was taken for them.
-/
theorem object_of_takeRecords
    (hOrder : p.order = w.format.order)
    (hSmall : p.data.size < 0xffffffff)
    (env : ε)
    (nested : Nat → Nat → Reading (List Object))
    {es : List Object}
    {attrs : Attributes}
    {offset start budget : Nat}
    (hCount : es.length ≤ maxRecordLength)
    {a b a' : Arena}
    (hTake : a.takeRecords es.length = .ok (start, b))
    (hFill :
      w.fillObjects start
        (b.putRecord w.format.order offset
          ⟨RecordType.array.code, attrs.executable,
            UInt16.ofNat es.length, UInt32.ofNat start⟩) es =
        .ok a')
    (hReady : a.Ready p offset 1)
    (hShown : Arena.Shown p offset 1 a a')
    (hBudget : 0 < budget)
    {st : Progress}
    (hNested :
      nested start es.length (b.progress t (budget - 1)) =
        .ok (es.map (Object.transmitted env)) st) :
    object p env nested offset (a.progress t budget) =
      .ok ((Object.array es attrs).transmitted env) st := by
  have hReserve :=
    Payload.reserve_of_takeRecords hTake hCount hSmall
      hReady.apart hReady.top hReady.aligned .array
      attrs.executable t (budget - 1)
  rcases Arena.takeRecords_ok hTake with ⟨rfl, rfl, hRoom⟩
  have hBelow := hReady.below
  have hTop := hReady.top
  have hGrows :=
    Writer.fillObjects_grows hFill (Nat.le_refl _) hRoom
  have hApart := hGrows.apart
  have hBottom := hGrows.bottom
  simp only [Arena.putRecord] at hBottom
  have hStart :
      (UInt32.ofNat a.bottom).toNat = a.bottom := by
    rw [UInt32.toNat_ofNat']
    omega
  have hStands :=
    hReady.stands hShown rfl w.format.order _
      (fun i hLow hHigh => hGrows.frame i (by
        simp only [Arena.Written, Arena.putRecord]
        omega))
  rw [← hOrder] at hStands
  have hRead :=
    Payload.record_of_stands .array rfl hStands t hBudget a
  rw [object_of_record env _ hRead .array rfl]
  unfold contents
  dsimp only
  rw [bind_of_ok hReserve, hStart,
    Record.toNat_length hCount, bind_of_ok hNested,
    makeArray_transmitted env attrs.executable hCount,
    Object.transmitted, Object.allTransmitted_eq_map]
  rfl

/-
  Reading an object leads the reader from where the arena was
  before the object was filled in to where it was after it. By
  induction on the object: its record is read, then its text
  or its elements, whose block was taken at the bottom.
-/
mutual

theorem object_of_fillObject
    (hTable : t.WellFormed)
    (hOrder : p.order = w.format.order)
    (hSmall : p.data.size < 0xffffffff)
    (env : ε)
    (levels budget : Nat)
    {offset depth : Nat}
    {x x' : Extent}
    {a a' : Arena} :
    ∀ {o : Object},
      w.measureObject x depth o = .ok x' →
      w.fillObject offset a o = .ok a' →
      (∀ n ∈ o.names, t.Holds n) →
      a.Ready p offset 1 →
      Arena.Shown p offset 1 a a' →
      levels + depth = maxNesting →
      o.total < budget →
        object p env (block p env levels) offset
            (a.progress t budget) =
          .ok (o.transmitted env)
            (a'.progress t (budget - (1 + o.total)))
  | .atom v attrs => by
      intro hMeasure hFill hNames hReady hShown _ hBudget
      unfold Writer.measureObject at hMeasure
      exact object_of_fillAtom hTable hOrder hSmall env
        (block p env levels) hMeasure hFill hNames hReady
        hShown hBudget
  | .array es attrs => by
      intro hMeasure hFill hNames hReady hShown hLevels
        hBudget
      rcases Writer.measureObject_array hMeasure with
        ⟨x₁, hBlock, hElements⟩
      rcases Writer.measureBlock_ok hBlock with
        ⟨hDepth, hCount, -⟩
      unfold Writer.fillObject at hFill
      cases hTake : a.takeRecords es.length with
      | error cause =>
          rw [hTake] at hFill
          contradiction
      | ok found =>
          rcases found with ⟨start, b⟩
          rw [hTake] at hFill
          dsimp only at hFill
          rw [Object.total] at hBudget ⊢
          have hInside :
              ∀ e ∈ es, ∀ n ∈ e.names, t.Holds n := by
            intro e he n hn
            exact hNames n
              ((Object.mem_names_array n es attrs).mpr
                ⟨e, he, hn⟩)
          have hBlockReady :=
            hReady.block hTake w.format.order
              ⟨RecordType.array.code, attrs.executable,
                UInt16.ofNat es.length, UInt32.ofNat start⟩
          have hGrows :=
            Writer.fillObjects_grows hFill hBlockReady.below
              hBlockReady.apart
          apply object_of_takeRecords hOrder hSmall env _
            hCount hTake hFill hReady hShown
            (Nat.zero_lt_of_lt hBudget)
          cases levels with
          | zero => omega
          | succ levels =>
              have hElems :=
                objectsAfter_of_fillObjects hTable hOrder
                  hSmall env levels (budget - 1) #[]
                  hElements hFill hInside hBlockReady
                  (hShown.block hTake hGrows) (by omega)
                  (by omega)
              rw [Arena.progress_putRecord, Array.toList_empty,
                List.nil_append, Nat.sub_sub] at hElems
              rw [block]
              exact hElems

theorem objectsAfter_of_fillObjects
    (hTable : t.WellFormed)
    (hOrder : p.order = w.format.order)
    (hSmall : p.data.size < 0xffffffff)
    (env : ε)
    (levels budget : Nat)
    (done : Array Object)
    {offset depth : Nat}
    {x x' : Extent}
    {a a' : Arena} :
    ∀ {es : List Object},
      w.measureObjects x depth es = .ok x' →
      w.fillObjects offset a es = .ok a' →
      (∀ e ∈ es, ∀ n ∈ e.names, t.Holds n) →
      a.Ready p offset es.length →
      Arena.Shown p offset es.length a a' →
      levels + depth = maxNesting →
      Object.totalFrom 0 es ≤ budget →
        objectsAfter (object p env (block p env levels))
            done es.length offset (a.progress t budget) =
          .ok (done.toList ++ es.map (Object.transmitted env))
            (a'.progress t
              (budget - Object.totalFrom 0 es))
  | [] => by
      intro _ hFill _ _ _ _ _
      unfold Writer.fillObjects at hFill
      simp only [Except.ok.injEq] at hFill
      subst hFill
      rw [List.map_nil, List.append_nil]
      rfl
  | e :: es => by
      intro hMeasure hFill hNames hReady hShown hLevels hBudget
      rw [List.length_cons, Nat.add_comm] at hReady hShown
      rcases Writer.measureObjects_cons hMeasure with
        ⟨x₁, hMeasureHead, hMeasureTail⟩
      unfold Writer.fillObjects at hFill
      rw [Object.totalFrom_cons] at hBudget ⊢
      cases hHead : w.fillObject offset a e with
      | error cause =>
          rw [hHead] at hFill
          contradiction
      | ok b =>
          rw [hHead] at hFill
          dsimp only at hFill
          have hBelow := hReady.below
          rw [Nat.add_mul, Nat.one_mul] at hBelow
          have hFirst :=
            Writer.fillObject_grows hHead (by omega)
              hReady.apart
          have hNextReady := hReady.next hFirst
          have hNext :=
            Writer.fillObjects_grows hFill hNextReady.below
              hFirst.apart
          have hRead :=
            object_of_fillObject hTable hOrder hSmall env
              levels budget
              hMeasureHead hHead
              (hNames e (List.mem_cons_self ..))
              ⟨hReady.size, by omega, hReady.apart,
                hReady.top, hReady.aligned⟩
              (hShown.first hReady.below hFirst hNext) hLevels
              (by omega)
          have hRest :=
            objectsAfter_of_fillObjects hTable hOrder hSmall
              env levels (budget - (1 + e.total))
              (done.push (e.transmitted env))
              hMeasureTail hFill
              (fun e' he' =>
                hNames e' (List.mem_cons_of_mem _ he'))
              hNextReady (hShown.next hFirst) hLevels
              (by omega)
          rw [List.length_cons, objectsAfter,
            bind_of_ok hRead, hRest, Nat.sub_sub,
            Array.toList_push, List.map_cons,
            List.append_assoc, List.singleton_append]

end

------------------------------------------------------------
-- Sequences
------------------------------------------------------------

/- The bytes that are written, and what they consist of. -/
theorem Writer.writeAll_ok
    {objs : List Object}
    {bytes : Bytes}
    (hWrite : w.writeAll objs = .ok bytes) :
    ∃ x h a,
      w.measure objs = .ok x ∧
      Header.forPayload w.format objs.length x.bytes =
        .ok h ∧
      w.fillObjects 0 (Arena.ofExtent x objs.length) objs =
        .ok a ∧
      a.bottom = a.top ∧
      bytes = h.bytes.toArray ++ a.data := by
  unfold Writer.writeAll at hWrite
  cases hMeasure : w.measure objs with
  | error cause =>
      rw [hMeasure] at hWrite
      contradiction
  | ok x =>
      rw [hMeasure] at hWrite
      dsimp only at hWrite
      cases hHeader :
          Header.forPayload w.format objs.length x.bytes with
      | error cause =>
          rw [hHeader] at hWrite
          contradiction
      | ok h =>
          rw [hHeader] at hWrite
          unfold Writer.fill at hWrite
          cases hFill :
              w.fillObjects 0
                (Arena.ofExtent x objs.length) objs with
          | error cause =>
              rw [hFill] at hWrite
              contradiction
          | ok a =>
              rw [hFill] at hWrite
              by_cases hFull : a.bottom = a.top
              · simp only [if_pos hFull, Except.ok.injEq]
                  at hWrite
                exact ⟨x, h, a, rfl, hHeader, hFill, hFull,
                  hWrite.symm⟩
              · simp only [if_neg hFull] at hWrite
                contradiction

/- The arena has room for all records before it is filled. -/
theorem Arena.ready_ofExtent
    {objs : List Object}
    {x : Extent}
    (hMeasure : w.measure objs = .ok x)
    (hSize : p.data.size = x.bytes) :
    (Arena.ofExtent x objs.length).Ready p 0 objs.length := by
  have hRecords := (Writer.records_of_measure hMeasure).1
  have hLength := Object.length_le_totalFrom objs
  have hBytes : x.bytes = x.records * recordSize + x.text :=
    rfl
  unfold recordSize at hBytes
  constructor
  case size =>
    rw [hSize]
    exact Array.size_replicate
  case below => exact Nat.le_of_eq (Nat.zero_add _)
  case apart =>
    unfold Arena.ofExtent recordSize
    dsimp only
    omega
  case top => exact Nat.le_of_eq hSize.symm
  case aligned => exact Nat.mul_mod_left _ _

/- The top level of a payload that is written is read back. -/
theorem run_of_fillObjects
    (hTable : t.WellFormed)
    (hOrder : p.order = w.format.order)
    (hSmall : p.data.size < 0xffffffff)
    (env : ε)
    {objs : List Object}
    (hNames : ∀ o ∈ objs, ∀ n ∈ o.names, t.Holds n)
    {x : Extent}
    (hMeasure : w.measure objs = .ok x)
    (hSize : p.data.size = x.bytes)
    {a : Arena}
    (hFill :
      w.fillObjects 0 (Arena.ofExtent x objs.length) objs =
        .ok a)
    (hData : p.data = a.data) :
    (block p env (maxNesting + 1) 0 objs.length).run
        objs.length p.data.size t =
      .ok (objs.map (Object.transmitted env)) t := by
  have hRecords := (Writer.records_of_measure hMeasure).1
  have hBytes : x.bytes = x.records * recordSize + x.text :=
    rfl
  unfold recordSize at hBytes
  rcases Writer.measure_ok hMeasure with ⟨x₀, -, hObjects⟩
  have hEnough :
      Object.totalFrom 0 objs ≤
        p.data.size / recordSize := by
    rw [hSize]
    unfold recordSize
    omega
  have hRead :=
    objectsAfter_of_fillObjects hTable hOrder hSmall env
      maxNesting (p.data.size / recordSize) #[] hObjects
      hFill hNames (Arena.ready_ofExtent hMeasure hSize)
      (fun _ _ => by rw [hData]) rfl hEnough
  have hStart :
      Progress.start t objs.length p.data.size =
        (Arena.ofExtent x objs.length).progress t
          (p.data.size / recordSize) := by
    unfold Progress.start Arena.progress Arena.ofExtent
    rw [hSize]
  rw [Array.toList_empty, List.nil_append, ← hStart] at hRead
  exact run_of_ok hRead

/- The payload that is written is read back. -/
theorem readPayload_of_fillObjects
    (hTable : t.WellFormed)
    (env : ε)
    {objs : List Object}
    (hNames : ∀ o ∈ objs, ∀ n ∈ o.names, t.Holds n)
    {x : Extent}
    (hMeasure : w.measure objs = .ok x)
    {h : Header}
    (hHeader :
      Header.forPayload w.format objs.length x.bytes = .ok h)
    {a : Arena}
    (hFill :
      w.fillObjects 0 (Arena.ofExtent x objs.length) objs =
        .ok a) :
    a.data.size = x.bytes ∧
      readPayload env h a.data t =
        .ok (.array (objs.map (Object.transmitted env))
          { Environment.newAttrs env with
            executable := true }) t := by
  rcases Writer.records_of_measure hMeasure with
    ⟨hRecords, hCount⟩
  rcases Header.forPayload_ok hHeader with
    ⟨hFormat, hNumber, -, hSmall, -⟩
  have hLength := Object.length_le_totalFrom objs
  have hBytes : x.bytes = x.records * recordSize + x.text :=
    rfl
  unfold recordSize at hBytes
  have hRoom :=
    (Arena.ready_ofExtent
      (p := ⟨Array.replicate x.bytes 0, h.format.order⟩)
      hMeasure Array.size_replicate).apart
  have hSize : a.data.size = x.bytes := by
    rw [(Writer.fillObjects_grows hFill
      (Nat.le_of_eq (Nat.zero_add _)) hRoom).size]
    exact Array.size_replicate
  refine ⟨hSize, ?_⟩
  have hRun :=
    run_of_fillObjects (p := ⟨a.data, h.format.order⟩) hTable
      (by rw [hFormat]) (by rw [hSize]; exact hSmall) env
      hNames hMeasure hSize hFill rfl
  have hEnough :
      ¬ a.data.size < objs.length * recordSize := by
    rw [hSize]
    unfold recordSize
    omega
  unfold readPayload
  dsimp only
  rw [hNumber, if_neg hEnough, bind_of_ok hRun,
    makeArray_transmitted env true hCount]
  rfl

/-
  Objects that are written are read back, whatever follows
  them, and no name is added to the table.
-/
theorem read_writeAll
    (hTable : t.WellFormed)
    (env : ε)
    {objs : List Object}
    (hNames : ∀ o ∈ objs, ∀ n ∈ o.names, t.Holds n)
    {bytes : Bytes}
    (hWrite : w.writeAll objs = .ok bytes)
    (rest : Bytes) :
    read env (bytes ++ rest) t =
      .ok (.array (objs.map (Object.transmitted env))
        { Environment.newAttrs env with executable := true },
        bytes.size) t := by
  rcases Writer.writeAll_ok hWrite with
    ⟨x, h, a, hMeasure, hHeader, hFill, -, rfl⟩
  rcases readPayload_of_fillObjects hTable env hNames
      hMeasure hHeader hFill with ⟨hSize, hPayload⟩
  rcases Header.forPayload_ok hHeader with
    ⟨-, -, hLength, -, -⟩
  have hParse :
      Header.parse (h.bytes.toArray ++ a.data ++ rest) =
        .ok h := by
    rw [Array.append_assoc]
    exact Header.parse_bytes hHeader _
  have hHead : h.bytes.toArray.size = h.size := by
    rw [List.size_toArray, Header.length_bytes]
  have hTotal :
      (h.bytes.toArray ++ a.data).size = h.length.toNat := by
    rw [Array.size_append, hHead, hSize, hLength]
  have hEnough :
      ¬ (h.bytes.toArray ++ a.data ++ rest).size <
        h.length.toNat := by
    rw [Array.size_append, hTotal]
    omega
  have hSlice :
      (h.bytes.toArray ++ a.data ++ rest).extract h.size
        h.length.toNat = a.data := by
    rw [hLength, Array.append_assoc, ← hHead, ← hSize,
      Array.extract_append_right, Array.extract_append_left,
      Array.extract_size]
  unfold read
  rw [hParse]
  dsimp only
  rw [if_neg hEnough, hSlice, bind_of_ok hPayload, hTotal]
  rfl

/-
  What was written is read back: the same law for a list of
  objects and for a single object, the elements of which stand
  at the top level if it is an array.
-/
theorem read_written
    {t : NameTable}
    (hTable : t.Reachable)
    (env : ε)
    (w : Writer)
    (bytes rest : Bytes) :
    (∀ objs : List Object,
      (∀ o ∈ objs, ∀ n ∈ o.names, t.Holds n) →
      w.writeAll objs = .ok bytes →
        read env (bytes ++ rest) t =
          .ok (.array (objs.map (Object.transmitted env))
            { Environment.newAttrs env with
              executable := true }, bytes.size) t) ∧
    (∀ o : Object,
      (∀ n ∈ o.names, t.Holds n) →
      w.write o = .ok bytes →
        read env (bytes ++ rest) t =
          .ok (.array
            ((o.asArray?.getD [o]).map
              (Object.transmitted env))
            { Environment.newAttrs env with
              executable := true }, bytes.size) t) := by
  have hAll :
      ∀ objs : List Object,
        (∀ o ∈ objs, ∀ n ∈ o.names, t.Holds n) →
        w.writeAll objs = .ok bytes →
          read env (bytes ++ rest) t =
            .ok (.array (objs.map (Object.transmitted env))
              { Environment.newAttrs env with
                executable := true }, bytes.size) t := by
    intro objs hNames hWrite
    exact read_writeAll hTable.wellFormed env hNames hWrite
      rest
  refine ⟨hAll, ?_⟩
  intro o hNames hWrite
  cases o with
  | atom v a =>
      refine hAll [.atom v a] ?_ hWrite
      intro o ho
      rw [List.mem_singleton.mp ho]
      exact hNames
  | array es a =>
      unfold Writer.write at hWrite
      dsimp only at hWrite
      split at hWrite
      · refine hAll es ?_ hWrite
        intro e he n hn
        exact hNames n
          ((Object.mem_names_array n es a).mpr ⟨e, he, hn⟩)
      · contradiction

/-
  A nested array with a real that is written as a fixed-point
  number and with a system name that is written by number.
-/
theorem read_written_nested :
    read ()
        (#[131, 2, 38, 0,
          137, 0, 2, 0, 16, 0, 0, 0,
          5, 0, 2, 0, 32, 0, 0, 0,
          2, 0, 1, 0, 1, 0, 0, 0,
          131, 0, 255, 255, 0, 0, 0, 0,
          104, 105] ++ #[1, 2]) NameTable.initial =
      .ok (.array
        [.array
          [.atom (.real ⟨0x3f000000, 0⟩) {},
            .atom (.name ⟨0, Bytes.ofText "abs", some 0⟩)
              { executable := true }]
          { executable := true },
          .atom (.string #[104, 105]) {}]
        { executable := true }, 38) NameTable.initial := by
  refine (read_written .initial () ⟨⟨.little, .native⟩, true⟩
    _ #[1, 2]).1
    [.array
      [.atom (.real ⟨0x3f000000, 7⟩) {},
        .atom (.name ⟨0, Bytes.ofText "abs", some 0⟩)
          { executable := true }]
      { executable := true, level := 3 },
      .atom (.string #[104, 105]) {}] ?_ ?_
  · intro o ho n hn
    simp only [List.mem_cons, List.not_mem_nil, or_false]
      at ho
    rcases ho with rfl | rfl
    · simp only [Object.names, Object.namesBefore,
        Object.listNamesBefore, List.mem_singleton] at hn
      rw [hn]
      exact
        NameTable.Reachable.initial.wellFormed.holds_abs
    · simp [Object.names, Object.namesBefore] at hn
  · decide +kernel

end PostScript.Sequence
