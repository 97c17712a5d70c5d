import PostScript.Proofs.BinaryToken.Decoded
import PostScript.Proofs.Sequence.Written

/-
  This file shows that whatever binary token can be decoded,
  its object can be written as a sequence, unless that would
  be too long, and the token that is written is decoded to the
  same objects.

  Main results:
    * `BinaryToken.encodable_of_decoded`
    * `BinaryToken.decode_bytes`
    * `BinaryToken.decode_written`
-/

namespace PostScript

------------------------------------------------------------
-- Readers
------------------------------------------------------------

namespace Reader

/- Bytes that are there are taken. -/
theorem takeAfter_append
    (taken : Bytes)
    (xs ys : List UInt8)
    (offset : Nat)
    (lines : LineCount) :
    ∃ lines',
      takeAfter taken xs.length
          (⟨xs ++ ys, offset, lines⟩ : Reader) =
        (.ok (taken ++ xs.toArray),
          ⟨ys, offset + xs.length, lines'⟩) := by
  induction xs generalizing taken offset lines with
  | nil => exact ⟨lines, by simp [takeAfter]⟩
  | cons x xs ih =>
      rcases ih (taken.push x) (offset + 1)
          (lines.advance x) with ⟨lines', hRest⟩
      have hDemand :
          demand (⟨x :: xs ++ ys, offset, lines⟩ : Reader) =
            (.ok x,
              ⟨xs ++ ys, offset + 1, lines.advance x⟩) :=
        rfl
      refine ⟨lines', ?_⟩
      rw [List.length_cons, takeAfter, hDemand]
      dsimp only
      rw [hRest, Nat.add_assoc, Nat.add_comm 1]
      simp

/- The same for bytes taken from the start. -/
theorem takeBytes_append
    (xs ys : List UInt8)
    (offset : Nat)
    (lines : LineCount) :
    ∃ lines',
      takeBytes xs.length
          (⟨xs ++ ys, offset, lines⟩ : Reader) =
        (.ok xs.toArray,
          ⟨ys, offset + xs.length, lines'⟩) := by
  rcases takeAfter_append #[] xs ys offset lines with
    ⟨lines', hTaken⟩
  refine ⟨lines', ?_⟩
  unfold takeBytes
  rw [hTaken, Array.empty_append]

end Reader

------------------------------------------------------------
-- Headers
------------------------------------------------------------

/-
  A header begins with the token of its format and a byte that
  tells how many bytes are left of it.
-/
theorem Header.bytes_split
    {format : SequenceFormat}
    {count payload : Nat}
    {h : Header}
    (hHeader : forPayload format count payload = .ok h) :
    ∃ c more,
      h.bytes = format.token :: c :: more ∧
        more.length = if c = 0 then 6 else 2 := by
  rcases forPayload_ok hHeader with
    ⟨hFormat, hCount, -, -, hShort⟩
  unfold bytes
  rw [hFormat]
  dsimp only
  cases hForm : h.extended with
  | true =>
      refine ⟨0, _, rfl, ?_⟩
      rw [List.length_append, ByteOrder.bytes16,
        ByteOrder.bytes32, ByteOrder.length_bytes,
        ByteOrder.length_bytes]
      rfl
  | false =>
      rcases hShort hForm with ⟨hLow, hHigh, -⟩
      refine ⟨UInt8.ofNat h.count.toNat, _, rfl, ?_⟩
      have hSome : UInt8.ofNat h.count.toNat ≠ 0 := by
        intro hZero
        have hByte := congrArg UInt8.toNat hZero
        rw [UInt8.toNat_ofNat', hCount] at hByte
        change count % 256 = 0 at hByte
        omega
      rw [if_neg hSome, ByteOrder.length_bytes]

namespace BinaryToken

open Sequence

/- A format is read as a sequence. -/
theorem read_format
    {σ : Type}
    [ByteSource σ]
    (format : SequenceFormat)
    (src : σ) :
    isLead format.token = true ∧
      read format.token src = sequenceOf format.token src := by
  rcases format with ⟨order, reals⟩
  cases order with
  | big => cases reals with
    | ieee => exact ⟨rfl, rfl⟩
    | native => exact ⟨rfl, rfl⟩
  | little => cases reals with
    | ieee => exact ⟨rfl, rfl⟩
    | native => exact ⟨rfl, rfl⟩

/- A token that is read and has an object is decoded. -/
theorem decode_of_read
    {t t' : NameTable}
    {data : Bytes}
    {lead : UInt8}
    {r r' : Reader}
    {token : BinaryToken}
    {o : Object}
    (hNext :
      Reader.next (Reader.ofList data.toList) =
        (.byte lead, r))
    (hLead : isLead lead = true)
    (hRead : read lead r = (.ok token, r'))
    (hObject : token.object () t = .ok o t') :
    decode () data t = .ok (o, r'.offset) t' := by
  have hNot : ¬ (!isLead lead) = true := by
    rw [hLead]
    exact Bool.false_ne_true
  unfold decode
  rw [hNext]
  dsimp only
  rw [if_neg hNot, hRead]
  exact bind_of_ok hObject _

/- A header and a payload are decoded as a sequence. -/
theorem decode_bytes
    {t t' : NameTable}
    {format : SequenceFormat}
    {count : Nat}
    {payload : Bytes}
    {h : Header}
    (hHeader :
      Header.forPayload format count payload.size = .ok h)
    {o : Object}
    (hPayload : readPayload () h payload t = .ok o t') :
    decode () (h.bytes.toArray ++ payload) t =
      .ok (o, (h.bytes.toArray ++ payload).size) t' := by
  rcases Header.bytes_split hHeader with
    ⟨c, more, hBytes, hMore⟩
  have hParse :
      Header.parse (#[format.token, c] ++ more.toArray) =
        .ok h := by
    have hAlone := Header.parse_bytes hHeader #[]
    have hFirst :
        h.bytes.toArray = #[format.token, c] ++ more.toArray :=
      by
      rw [hBytes]
      simp
    rw [Array.append_empty, hFirst] at hAlone
    exact hAlone
  have hSize : h.payloadSize = payload.toList.length := by
    have hLength := (Header.forPayload_ok hHeader).2.2.1
    rw [Array.length_toList]
    unfold Header.payloadSize
    omega
  rcases Reader.takeBytes_append more payload.toList 2
      (((LineCount.startingAt 1).advance format.token).advance
        c) with ⟨lines, hFields⟩
  rcases Reader.takeBytes_append payload.toList []
      (2 + more.length) lines with ⟨lines', hTaken⟩
  rw [List.append_nil, ← hSize] at hTaken
  have hList :
      (h.bytes.toArray ++ payload).toList =
        format.token :: c :: (more ++ payload.toList) := by
    rw [Array.toList_append, hBytes]
    rfl
  have hToken :
      sequenceOf format.token
          (⟨c :: (more ++ payload.toList), 1,
            (LineCount.startingAt 1).advance format.token⟩ :
              Reader) =
        (.ok (.sequence h payload),
          ⟨[], 2 + more.length + h.payloadSize, lines'⟩) := by
    unfold sequenceOf
    change andThen (takeBytes (if c = 0 then 6 else 2)
      (⟨more ++ payload.toList, 2, _⟩ : Reader)) _ = _
    rw [← hMore, hFields]
    unfold andThen
    dsimp only
    rw [hParse]
    dsimp only
    rw [hTaken]
  rcases read_format format
      (⟨c :: (more ++ payload.toList), 1,
        (LineCount.startingAt 1).advance format.token⟩ :
          Reader) with ⟨hLead, hRead⟩
  have hNext :
      Reader.next
          (Reader.ofList (h.bytes.toArray ++ payload).toList) =
        (.byte format.token,
          ⟨c :: (more ++ payload.toList), 1,
            (LineCount.startingAt 1).advance
              format.token⟩) := by
    rw [hList]
    rfl
  have hEnd :
      2 + more.length + h.payloadSize =
        (h.bytes.toArray ++ payload).size := by
    rw [← Array.length_toList, hList, hSize]
    simp only [List.length_cons, List.length_append]
    omega
  rw [hToken] at hRead
  rw [decode_of_read hNext hLead hRead hPayload, hEnd]

------------------------------------------------------------
-- Writing What Was Decoded
------------------------------------------------------------

/- A system name is short and has a number. -/
theorem systemIndex_of_mem
    {t : NameTable}
    (hTable : t.WellFormed)
    {n : Name}
    (hn : n ∈ t.system) :
    n.bytes.size ≤ maxLongNameLength ∧
      n.systemIndex ≠ none := by
  rcases Array.mem_iff_getElem?.mp hn with ⟨i, hi⟩
  rw [hTable.recorded] at hi
  rcases Option.map_eq_some_iff.mp hi with
    ⟨bytes, hSystem, rfl⟩
  have hShort :=
    size_le_of_mem_systemNames (Array.mem_of_getElem? hSystem)
  exact ⟨Nat.le_trans hShort (by decide), nofun⟩

/- A name that was decoded is no longer than it may be. -/
theorem size_le_of_decoded
    {t : NameTable}
    (hTable : t.WellFormed)
    {n : Name}
    (h : (Atom.name n).Decoded t) :
    n.bytes.size ≤ maxLongNameLength := by
  rcases h.2 with hSystem | hText
  · exact (systemIndex_of_mem hTable hSystem).1
  · exact hText.2

/- Each object that was decoded keeps to the conditions. -/
theorem keeps_of_decoded
    {t : NameTable}
    (hTable : t.WellFormed)
    (format : SequenceFormat)
    {o : Object}
    (h : o.Decoded t) :
    Readable o ∧ IsFinite o ∧
      Writer.Named ⟨format, true⟩ o ∧ FitsRecord o := by
  cases h with
  | array hElements hCount executable =>
      exact ⟨fun _ => rfl, trivial, trivial, hCount⟩
  | @atom v h executable =>
      cases v with
      | null | mark | integer | boolean =>
          exact ⟨nofun, trivial, trivial, trivial⟩
      | infinity => contradiction
      | real v => exact ⟨nofun, h.1, trivial, trivial⟩
      | string bytes =>
          exact ⟨fun _ => rfl, trivial, trivial, h⟩
      | name n =>
          refine ⟨nofun, trivial, ?_, trivial⟩
          intro hIndex
          rcases h.2 with hSystem | hText
          · exact absurd hIndex
              (systemIndex_of_mem hTable hSystem).2
          · exact hText.1

/-
  Objects that were decoded violate no condition but that they
  may be too long together.
-/
theorem violates_of_decoded
    {t : NameTable}
    (hTable : t.WellFormed)
    (format : SequenceFormat)
    {objs : List Object}
    (h : ∀ o ∈ objs, o.Decoded t)
    (hCount : objs.length ≤ maxRecordLength)
    (hNesting : Object.tallest 0 objs ≤ maxNesting)
    {kind : ErrorKind}
    (hNot : Writer.Violates ⟨format, true⟩ objs kind) :
    kind = .limitCheck ∧
      0xffffffff <
        Writer.payloadSize ⟨format, true⟩ objs + 8 := by
  have hParts :
      ∀ part ∈ Object.allParts objs, part.Decoded t := by
    intro part hPart
    rcases (Object.mem_allParts part objs).mp hPart with
      ⟨e, he, rfl | hInside⟩
    · exact h part he
    · exact (h e he).parts part hInside
  have hKeeps :
      ∀ {P : Object → Prop},
        (∀ o, o.Decoded t → P o) → ¬ Fails P objs := by
    rintro P hAll ⟨part, hPart, hFails⟩
    exact hFails (hAll part (hParts part hPart))
  cases kind with
  | invalidAccess =>
      exact absurd hNot (hKeeps (fun o ho =>
        (keeps_of_decoded hTable format ho).1))
  | undefinedResult =>
      exact absurd hNot (hKeeps (fun o ho =>
        (keeps_of_decoded hTable format ho).2.1))
  | rangeCheck =>
      rcases hNot with hNot | hNot
      · exact absurd hNot (hKeeps (fun o ho =>
          (keeps_of_decoded hTable format ho).2.2.1))
      · exact absurd hNesting (Nat.not_le.mpr hNot)
  | limitCheck =>
      refine ⟨rfl, ?_⟩
      rcases hNot with hNot | hNot | hNot
      · exact absurd hNot (hKeeps (fun o ho =>
          (keeps_of_decoded hTable format ho).2.2.2))
      · exact absurd hCount (Nat.not_le.mpr hNot)
      · exact hNot
  | _ => exact hNot.elim

/-
  Objects that were decoded are written, and what is written
  is decoded to them, unless they are too long together.
-/
theorem decode_writeAll
    {t : NameTable}
    (hTable : t.WellFormed)
    (format : SequenceFormat)
    {objs : List Object}
    (h : ∀ o ∈ objs, o.Decoded t)
    (hCount : objs.length ≤ maxRecordLength)
    (hNesting : Object.tallest 0 objs ≤ maxNesting) :
    (Writer.payloadSize ⟨format, true⟩ objs + 8 ≤ 0xffffffff →
      ∃ bytes,
        Writer.writeAll ⟨format, true⟩ objs = .ok bytes ∧
        decode () bytes t =
          .ok (.array objs { executable := true },
            bytes.size) t) ∧
    (0xffffffff < Writer.payloadSize ⟨format, true⟩ objs + 8 →
      ∃ cause,
        Writer.writeAll ⟨format, true⟩ objs = .error cause ∧
        cause.kind = .limitCheck) := by
  have hNames :
      ∀ o ∈ objs, ∀ n ∈ o.names, (Atom.name n).Decoded t :=
    fun o ho => (h o ho).names
  have hShort :
      ∀ o ∈ objs, ∀ n ∈ o.names,
        n.bytes.size ≤ maxLongNameLength :=
    fun o ho n hn =>
      size_le_of_decoded hTable (hNames o ho n hn)
  constructor
  · intro hSpace
    have hEncodable :
        Writer.Encodable ⟨format, true⟩ objs := by
      rw [Writer.encodable_iff]
      intro kind hNot
      have hLong :=
        (violates_of_decoded hTable format h hCount hNesting
          hNot).2
      exact absurd hSpace (Nat.not_le.mpr hLong)
    rcases Writer.writeAll_of_encodable hShort hEncodable with
      ⟨bytes, hWrite⟩
    refine ⟨bytes, hWrite, ?_⟩
    rcases Writer.writeAll_ok hWrite with
      ⟨x, head, a, hMeasure, hHeader, hFill, -, rfl⟩
    rcases readPayload_of_fillObjects hTable ()
        (fun o ho n hn => (hNames o ho n hn).1) hMeasure
        hHeader hFill with ⟨hSize, hPayload⟩
    have hSame :
        objs.map (Object.transmitted ()) = objs :=
      (List.map_congr_left
        (fun o ho => (h o ho).transmitted)).trans
          (List.map_id objs)
    rw [hSame] at hPayload
    rw [← hSize] at hHeader
    exact decode_bytes hHeader hPayload
  · intro hLong
    cases hWrite : Writer.writeAll ⟨format, true⟩ objs with
    | ok bytes =>
        have hSpace :=
          (Writer.encodable_of_writeAll hShort hWrite).space
        exact absurd hSpace (Nat.not_le.mpr hLong)
    | error cause =>
        have hNot := Writer.violates_of_writeAll hShort hWrite
        exact ⟨cause, rfl,
          (violates_of_decoded hTable format h hCount hNesting
            hNot).1⟩

/-
  Whatever is decoded where names have no values can be
  written in any format, unless it is too long. What is
  written is decoded to the end, with the same names, as an
  executable array of the elements of the first object, or of
  the object itself if it is no array. If it is too long, a
  limit is reported, and nothing else can go wrong.
-/
theorem decode_written
    {t t' : NameTable}
    (hTable : t.Reachable)
    {data : Bytes}
    {o : Object}
    {used : Nat}
    (hDecode : decode () data t = .ok (o, used) t')
    (format : SequenceFormat) :
    (Writer.payloadSize ⟨format, true⟩
          (o.asArray?.getD [o]) + 8 ≤ 0xffffffff →
      ∃ bytes, Writer.write ⟨format, true⟩ o = .ok bytes ∧
        decode () bytes t' =
          .ok (.array (o.asArray?.getD [o])
            { executable := true }, bytes.size) t') ∧
    (0xffffffff <
        Writer.payloadSize ⟨format, true⟩
          (o.asArray?.getD [o]) + 8 →
      ∃ cause,
        Writer.write ⟨format, true⟩ o = .error cause ∧
        cause.kind = .limitCheck) := by
  have hGrounded : Scope.empty.Grounded t :=
    ⟨fun _ => hTable.wellFormed.holds_system, nofun⟩
  rcases decode_decoded hGrounded hDecode with
    ⟨hReads, hDecoded, hHeight⟩
  have hTable' := (Reads.reachable hReads hTable).wellFormed
  cases hDecoded with
  | @atom v h executable =>
      refine decode_writeAll hTable' format ?_ ?_ ?_
      · intro e he
        rw [List.mem_singleton.mp he]
        exact .atom h executable
      · exact Nat.le_add_left 1 _
      · exact Nat.zero_le _
  | @array es hElements hCount executable =>
      rw [Object.height] at hHeight
      have hNesting : Object.tallest 0 es ≤ maxNesting := by
        omega
      exact decode_writeAll hTable' format hElements hCount
        hNesting

/- An array of two numbers is written as a sequence. -/
theorem decode_written_numbers :
    ∃ bytes,
      Writer.write ⟨⟨.little, .native⟩, true⟩
          (.array [.atom (.integer 1) {}, .atom (.integer 2) {}]
            {}) = .ok bytes ∧
        decode () bytes NameTable.initial =
          .ok (.array
            [.atom (.integer 1) {}, .atom (.integer 2) {}]
            { executable := true }, bytes.size)
            NameTable.initial := by
  have hDecode :
      decode () #[149, 32, 0, 2, 0, 1, 0, 2]
          NameTable.initial =
        .ok (.array
          [.atom (.integer 1) {}, .atom (.integer 2) {}] {},
          8) NameTable.initial := by
    rfl
  exact (decode_written .initial hDecode
    ⟨.little, .native⟩).1 (by decide)

end BinaryToken

end PostScript
