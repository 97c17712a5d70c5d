import PostScript.Proofs.Name.Lengths
import PostScript.Proofs.Sequence.Encodable
import PostScript.Proofs.Sequence.Puts
import PostScript.Proofs.Sequence.RoundTrip

/-
  This file shows that the second walk of the writer finds the
  space that the first one measured: it never runs out of it
  and leaves none of it. So objects are written if and only if
  they can be written by the conditions on them, and no byte
  behind the header is left out or put twice.

  Main results:
    * `Sequence.Writer.fillObjects_room`
    * `Sequence.Writer.writeAll_of_encodable`
    * `Sequence.Writer.writeAll_decides`
-/

namespace PostScript.Sequence

------------------------------------------------------------
-- Room
------------------------------------------------------------

/- There is room for text that fits between the two ends. -/
theorem Arena.putText_room
    {a : Arena}
    {text : Bytes}
    (hRoom : a.bottom + text.size ≤ a.top)
    (hSmall : a.top ≤ 0xffffffff) :
    ∃ start a', a.putText text = .ok (start, a') ∧
      a'.bottom = a.bottom ∧ a'.top + text.size = a.top := by
  unfold putText
  split
  next hEmpty =>
    rw [Array.isEmpty_iff] at hEmpty
    subst hEmpty
    exact ⟨0, a, rfl, rfl, rfl⟩
  next =>
    rw [if_neg (by omega)]
    exact ⟨_, _, rfl, rfl, Nat.sub_add_cancel (by omega)⟩

namespace Writer

variable {w : Writer}

/- So there is for a record with text. -/
theorem textRecord_room
    (type : RecordType)
    (executable : Bool)
    {a : Arena}
    {text : Bytes}
    (hRoom : a.bottom + text.size ≤ a.top)
    (hSmall : a.top ≤ 0xffffffff) :
    ∃ r a', textRecord type executable text a = .ok (r, a') ∧
      a'.bottom = a.bottom ∧ a'.top + text.size = a.top := by
  rcases Arena.putText_room hRoom hSmall with
    ⟨start, a', hPut, hBottom, hTop⟩
  unfold textRecord
  rw [hPut]
  exact ⟨_, a', rfl, hBottom, hTop⟩

/- So there is for the record of an atom. -/
theorem atomRecord_room
    (executable : Bool)
    {a : Arena}
    {v : Atom}
    {attrs : Attributes}
    (hFinite : IsFinite (.atom v attrs))
    (hRoom : a.bottom + (w.text v).size ≤ a.top)
    (hSmall : a.top ≤ 0xffffffff) :
    ∃ r a', w.atomRecord executable a v = .ok (r, a') ∧
      a'.bottom = a.bottom ∧
      a'.top + (w.text v).size = a.top := by
  cases v with
  | infinity => contradiction
  | null | mark | integer v | boolean v | real v =>
      exact ⟨_, a, rfl, rfl, rfl⟩
  | string bytes =>
      exact textRecord_room .string executable hRoom hSmall
  | name n =>
      unfold text at hRoom ⊢
      unfold atomRecord
      dsimp only at hRoom ⊢
      cases hIndex : w.nameIndex? n with
      | some i => exact ⟨_, a, rfl, rfl, rfl⟩
      | none =>
          rw [hIndex] at hRoom
          exact textRecord_room .name executable hRoom hSmall

/-
  Objects find the space that their records and their text
  need, by induction on the objects. The record of an object
  itself has its place already.
-/
mutual

theorem fillObject_room
    (offset : Nat)
    {a : Arena} :
    ∀ {o : Object},
      (∀ part ∈ Object.allParts [o], IsFinite part) →
      a.bottom + recordSize * o.total + w.textSize [o] ≤
        a.top →
      a.top ≤ 0xffffffff →
        ∃ a', w.fillObject offset a o = .ok a' ∧
          a'.bottom = a.bottom + recordSize * o.total ∧
          a'.top + w.textSize [o] = a.top
  | .atom v attrs => by
      intro hFinite hRoom hSmall
      have hHere := hFinite _ (List.mem_cons_self ..)
      rw [textSize_atom] at hRoom ⊢
      rcases atomRecord_room (w := w) attrs.executable hHere
          hRoom hSmall with ⟨r, a', hRecord, hBottom, hTop⟩
      unfold fillObject
      rw [hRecord]
      exact ⟨_, rfl, hBottom, hTop⟩
  | .array es attrs => by
      intro hFinite hRoom hSmall
      have hInside :
          ∀ part ∈ Object.allParts es, IsFinite part :=
        ((Object.forall_allParts_cons _ _).mp hFinite).1.2
      have hLength := Object.length_le_totalFrom es
      rw [textSize_array] at hRoom ⊢
      rw [Object.total] at hRoom ⊢
      unfold recordSize at hRoom ⊢
      unfold fillObject Arena.takeRecords recordSize
      dsimp only
      rw [if_neg (by omega)]
      dsimp only
      rcases fillObjects_room a.bottom
          (a := Arena.putRecord w.format.order offset
            ⟨RecordType.array.code, attrs.executable,
              UInt16.ofNat es.length,
              UInt32.ofNat a.bottom⟩
            ⟨a.data, a.bottom + es.length * 8, a.top⟩)
          hInside
          (by
            unfold Arena.putRecord recordSize
            dsimp only
            omega)
          hSmall with ⟨a', hFill, hBottom, hTop⟩
      unfold Arena.putRecord recordSize at hBottom
      dsimp only at hBottom
      exact ⟨a', hFill, by omega, hTop⟩

theorem fillObjects_room
    (offset : Nat)
    {a : Arena} :
    ∀ {es : List Object},
      (∀ part ∈ Object.allParts es, IsFinite part) →
      a.bottom + recordSize * Object.totalFrom 0 es +
          w.textSize es ≤
        a.top + recordSize * es.length →
      a.top ≤ 0xffffffff →
        ∃ a', w.fillObjects offset a es = .ok a' ∧
          a'.bottom + recordSize * es.length =
            a.bottom + recordSize * Object.totalFrom 0 es ∧
          a'.top + w.textSize es = a.top
  | [] => fun _ _ _ => ⟨a, rfl, rfl, rfl⟩
  | e :: es => by
      intro hFinite hRoom hSmall
      rcases (Object.forall_allParts_cons e es).mp hFinite
        with ⟨⟨hHere, hBelow⟩, hRest⟩
      have hFirst :
          ∀ part ∈ Object.allParts [e], IsFinite part :=
        (Object.forall_allParts_cons e []).mpr
          ⟨⟨hHere, hBelow⟩, nofun⟩
      have hLength := Object.length_le_totalFrom es
      rw [textSize_cons, Object.totalFrom_cons,
        List.length_cons] at hRoom ⊢
      unfold recordSize at hRoom ⊢
      rcases fillObject_room offset hFirst
          (by
            unfold recordSize
            omega)
          hSmall with ⟨a₁, hHead, hBottom, hTop⟩
      unfold recordSize at hBottom
      rcases fillObjects_room (offset + recordSize)
          (a := a₁) hRest
          (by
            unfold recordSize
            omega)
          (by omega) with ⟨a', hTail, hBottom', hTop'⟩
      unfold recordSize at hBottom'
      refine ⟨a', ?_, by omega, by omega⟩
      unfold fillObjects
      rw [hHead]
      exact hTail

end

------------------------------------------------------------
-- Sequences
------------------------------------------------------------

/- Objects that can be written are written. -/
theorem writeAll_of_encodable
    {objs : List Object}
    (hNames :
      ∀ o ∈ objs, ∀ n ∈ o.names,
        n.bytes.size ≤ maxLongNameLength)
    (h : w.Encodable objs) :
    ∃ bytes, w.writeAll objs = .ok bytes := by
  have hJudges := measure_judges (w := w) hNames
  cases hMeasure : w.measure objs with
  | error cause =>
      rw [hMeasure] at hJudges
      exact absurd hJudges ((w.encodable_iff).mp h _)
  | ok x =>
      rw [hMeasure] at hJudges
      rcases hJudges with ⟨-, -, hRecords, hText⟩
      have hSpace := h.space
      unfold payloadSize recordSize at hSpace
      have hBytes : x.bytes = x.records * recordSize + x.text :=
        rfl
      unfold recordSize at hBytes
      have hRoom :
          (Arena.ofExtent x objs.length).bottom +
              recordSize * Object.totalFrom 0 objs +
              w.textSize objs ≤
            (Arena.ofExtent x objs.length).top +
              recordSize * objs.length := by
        unfold Arena.ofExtent recordSize
        dsimp only
        omega
      rcases fillObjects_room 0 h.finite hRoom
          (by
            unfold Arena.ofExtent
            dsimp only
            omega) with ⟨a, hFill, hBottom, hTop⟩
      unfold Arena.ofExtent recordSize at hBottom hTop
      dsimp only at hBottom hTop
      have hHeader :
          ∃ head, Header.forPayload w.format objs.length
            x.bytes = .ok head := by
        have hCount := h.count
        unfold maxRecordLength at hCount
        unfold Header.forPayload Header.shortSize
          Header.extendedSize
        rw [if_neg (by omega)]
        split
        · exact ⟨_, rfl⟩
        · rw [if_pos (by omega)]
          exact ⟨_, rfl⟩
      rcases hHeader with ⟨head, hHeader⟩
      unfold writeAll fill
      rw [hMeasure]
      dsimp only
      rw [hHeader]
      dsimp only
      rw [hFill]
      dsimp only
      rw [if_pos (by omega)]
      exact ⟨_, rfl⟩

/- A header leaves room for itself in the longest sequence. -/
theorem space_of_forPayload
    {format : SequenceFormat}
    {count payload : Nat}
    {h : Header}
    (hHeader : Header.forPayload format count payload = .ok h) :
    payload + 8 ≤ 0xffffffff := by
  rcases Header.forPayload_ok hHeader with
    ⟨-, -, hLength, -, hShort⟩
  have hLess := h.length.toNat_lt
  unfold Header.size Header.extendedSize Header.shortSize
    at hLength
  cases hForm : h.extended with
  | true =>
      rw [hForm, if_pos rfl] at hLength
      omega
  | false =>
      have hSmall := (hShort hForm).2.2
      omega

/- Objects that are written can be written. -/
theorem encodable_of_writeAll
    {objs : List Object}
    (hNames :
      ∀ o ∈ objs, ∀ n ∈ o.names,
        n.bytes.size ≤ maxLongNameLength)
    {bytes : Bytes}
    (hWrite : w.writeAll objs = .ok bytes) :
    w.Encodable objs := by
  rcases writeAll_ok hWrite with
    ⟨x, h, a, hMeasure, hHeader, -, -, -⟩
  have hJudges := measure_judges (w := w) hNames
  rw [hMeasure] at hJudges
  rcases hJudges with ⟨hFree, hCount, hRecords, hText⟩
  refine encodable_of_not_blocked hFree hCount ?_
  have hSpace := space_of_forPayload hHeader
  have hBytes : x.bytes = x.records * recordSize + x.text :=
    rfl
  unfold recordSize at hBytes
  unfold payloadSize recordSize
  omega

/- Objects that are not written violate a condition. -/
theorem violates_of_writeAll
    {objs : List Object}
    (hNames :
      ∀ o ∈ objs, ∀ n ∈ o.names,
        n.bytes.size ≤ maxLongNameLength)
    {cause : Cause}
    (hWrite : w.writeAll objs = .error cause) :
    w.Violates objs cause.kind := by
  have hJudges := measure_judges (w := w) hNames
  cases hMeasure : w.measure objs with
  | error first =>
      rw [hMeasure] at hJudges
      unfold writeAll at hWrite
      rw [hMeasure] at hWrite
      cases hWrite
      exact hJudges
  | ok x =>
      rw [hMeasure] at hJudges
      rcases hJudges with ⟨hFree, hCount, hRecords, hText⟩
      by_cases hSpace : w.payloadSize objs + 8 ≤ 0xffffffff
      · rcases writeAll_of_encodable hNames
            (encodable_of_not_blocked hFree hCount hSpace) with
          ⟨bytes, hWritten⟩
        rw [hWritten] at hWrite
        contradiction
      · have hLong := hSpace
        unfold payloadSize recordSize at hLong
        have hBytes :
            x.bytes = x.records * recordSize + x.text := rfl
        unfold recordSize at hBytes
        have hHeader :
            Header.forPayload w.format objs.length x.bytes =
              .error .longSequence := by
          unfold maxRecordLength at hCount
          unfold Header.forPayload Header.shortSize
            Header.extendedSize
          rw [if_neg (by omega), if_neg (by omega),
            if_neg (by omega)]
        unfold writeAll at hWrite
        rw [hMeasure] at hWrite
        dsimp only at hWrite
        rw [hHeader] at hWrite
        cases hWrite
        exact .inr (.inr (Nat.lt_of_not_le hSpace))

/-
  On success the records and the text meet exactly, and each
  byte behind the header has been put once.
-/
theorem logAll_layout
    {objs : List Object}
    {h : Header}
    {l : Log}
    (hLog : w.logAll objs = .ok (h, l)) :
    l.arena.bottom = l.arena.top ∧
      l.arena.data.size = h.payloadSize ∧
      l.arena.data =
        replay (Array.replicate h.payloadSize 0) l.puts ∧
      ∀ i, timesPut i l.puts =
        if i < h.payloadSize then 1 else 0 := by
  unfold logAll at hLog
  cases hMeasure : w.measure objs with
  | error cause =>
      rw [hMeasure] at hLog
      contradiction
  | ok x =>
      rw [hMeasure] at hLog
      dsimp only at hLog
      cases hHeader :
          Header.forPayload w.format objs.length x.bytes with
      | error cause =>
          rw [hHeader] at hLog
          contradiction
      | ok head =>
          rw [hHeader] at hLog
          dsimp only at hLog
          cases hFill :
              w.logObjects 0
                ⟨Arena.ofExtent x objs.length, []⟩ objs with
          | error cause =>
              rw [hFill] at hLog
              contradiction
          | ok l' =>
              rw [hFill] at hLog
              by_cases hFull : l'.arena.bottom = l'.arena.top
              · simp only [if_pos hFull, Except.ok.injEq,
                  Prod.mk.injEq] at hLog
                rcases hLog with ⟨rfl, rfl⟩
                have hPayload : head.payloadSize = x.bytes := by
                  have hLength :=
                    (Header.forPayload_ok hHeader).2.2.1
                  unfold Header.payloadSize
                  omega
                have hApart :=
                  (Arena.ready_ofExtent
                    (p := ⟨Array.replicate x.bytes 0,
                      head.format.order⟩)
                    hMeasure Array.size_replicate).apart
                have hExtends :=
                  logObjects_extends hFill
                    (Nat.le_of_eq (Nat.zero_add _)) hApart
                have hBottom := hExtends.grows.bottom
                have hTop := hExtends.grows.top
                rw [hPayload]
                refine ⟨hFull, ?_, hExtends.replayed _ rfl, ?_⟩
                · rw [hExtends.grows.size]
                  exact Array.size_replicate
                · intro i
                  rw [hExtends.once i]
                  refine (Nat.zero_add _).trans
                    (if_congr ?_ rfl rfl)
                  unfold Arena.ofExtent
                    at hApart hBottom hTop ⊢
                  unfold Arena.Written
                  dsimp only at hApart hBottom hTop ⊢
                  omega
              · simp only [if_neg hFull] at hLog
                contradiction

/-
  Objects whose names exist are written if and only if they
  can be written by the conditions on them. Otherwise the
  error stands for a condition that is violated, so it is
  never one of the layout. The writer with notes writes the
  same bytes; where it succeeds, the records end where the
  text begins, and each byte behind the header has been put
  once and none elsewhere.
-/
theorem writeAll_decides
    (w : Writer)
    (objs : List Object)
    (hNames : ∀ o ∈ objs, ∀ n ∈ o.names, n.Exists) :
    ((∃ bytes, w.writeAll objs = .ok bytes) ↔
        w.Encodable objs) ∧
      (∀ cause, w.writeAll objs = .error cause →
        w.Violates objs cause.kind) ∧
      (w.logAll objs).map
          (fun x => x.1.bytes.toArray ++ x.2.arena.data) =
        w.writeAll objs ∧
      ∀ h l, w.logAll objs = .ok (h, l) →
        l.arena.bottom = l.arena.top ∧
          l.arena.data.size = h.payloadSize ∧
          l.arena.data =
            replay (Array.replicate h.payloadSize 0) l.puts ∧
          ∀ i, timesPut i l.puts =
            if i < h.payloadSize then 1 else 0 := by
  have hShort :
      ∀ o ∈ objs, ∀ n ∈ o.names,
        n.bytes.size ≤ maxLongNameLength :=
    fun o ho n hn => (hNames o ho n hn).size_le
  refine ⟨⟨?_, writeAll_of_encodable hShort⟩,
    fun _ => violates_of_writeAll hShort,
    logAll_erases objs, fun _ _ => logAll_layout⟩
  rintro ⟨bytes, hWrite⟩
  exact encodable_of_writeAll hShort hWrite

/- A name that is written as text, inside an array. -/
theorem writeAll_decides_nested :
    (∀ o ∈ [Object.array
        [Object.name ⟨0, Bytes.ofText "abs", some 0⟩ true] {}],
      ∀ n ∈ o.names, n.Exists) ∧
      Writer.Encodable ⟨⟨.big, .ieee⟩, false⟩
        [.array
          [Object.name ⟨0, Bytes.ofText "abs", some 0⟩ true]
          {}] := by
  have hNames :
      ∀ o ∈ [Object.array
          [Object.name ⟨0, Bytes.ofText "abs", some 0⟩ true]
          {}],
        ∀ n ∈ o.names, n.Exists := by
    intro o ho n hn
    rw [List.mem_singleton.mp ho, Object.name] at hn
    simp only [Object.names, Object.namesBefore,
      Object.listNamesBefore, List.mem_singleton] at hn
    rw [hn]
    exact ⟨_, .initial,
      NameTable.Reachable.initial.wellFormed.holds_abs⟩
  refine ⟨hNames,
    (writeAll_decides ⟨⟨.big, .ieee⟩, false⟩ _ hNames).1.mp
      ⟨#[128, 1, 0, 23,
          9, 0, 0, 1, 0, 0, 0, 8,
          131, 0, 0, 3, 0, 0, 0, 16,
          97, 98, 115], ?_⟩⟩
  decide +kernel

end Writer

end PostScript.Sequence
