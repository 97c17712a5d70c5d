import PostScript.Proofs.ByteOrder
import PostScript.Proofs.Sequence.Header

/-
  This file shows that the bytes of a header and its fields
  determine each other. What is read as a header are its bytes
  and nothing else, and the header that is chosen for a payload
  is the shortest that is read with its count and its size.

  Key definitions include:
    * `Header.FitsShort`
    * `Header.Fits`

  Main results:
    * `Header.parse_eq_ok_iff`
    * `Header.forPayload_eq_ok_iff`
    * `Header.forPayload_parse`
-/

namespace PostScript

/- A format is selected by no token but its own. -/
theorem SequenceFormat.token_of_ofToken?
    {token : UInt8}
    {f : SequenceFormat}
    (h : ofToken? token = some f) :
    f.token = token := by
  unfold ofToken? at h
  repeat' split at h
  all_goals
    simp_all only [Option.some.injEq, beq_iff_eq,
      reduceCtorEq]
  all_goals
    subst h
    rfl

namespace Header

------------------------------------------------------------
-- Reading
------------------------------------------------------------

/- The bytes behind the first two, or behind the first four. -/
theorem slice_two
    (token c : UInt8)
    (rest : List UInt8)
    (n : Nat) :
    slice (token :: c :: rest).toArray 2 (n + 2) =
      rest.take n := by
  simp [slice]

theorem slice_four
    (token c : UInt8)
    (rest : List UInt8)
    (n : Nat) :
    slice (token :: c :: rest).toArray 4 (n + 2) =
      (rest.take n).drop 2 := by
  simp [slice, List.drop_take]

/- An extended header that is read has the bytes it had. -/
theorem bytes_extended
    (format : SequenceFormat)
    {rest : List UInt8}
    (hEnough : 6 ≤ rest.length) :
    bytes
        ⟨format, format.order.word16 (rest.take 2),
          format.order.word32 ((rest.take 6).drop 2), true⟩ =
      format.token :: 0 :: rest.take 6 := by
  have hCount : (rest.take 2).length = 2 :=
    List.length_take_of_le (by omega)
  have hLength : ((rest.take 6).drop 2).length = 4 := by
    rw [List.length_drop, List.length_take_of_le hEnough]
  have hSplit :
      rest.take 2 ++ (rest.take 6).drop 2 = rest.take 6 := by
    have h := List.take_append_drop 2 (rest.take 6)
    rwa [List.take_take] at h
  unfold bytes
  dsimp only
  rw [if_pos rfl, format.order.bytes16_word16 hCount,
    format.order.bytes32_word32 hLength, hSplit]

/- So does a short one, whose count takes one byte. -/
theorem bytes_short
    (format : SequenceFormat)
    (c : UInt8)
    (rest : List UInt8)
    (hEnough : 2 ≤ rest.length) :
    (UInt32.ofNat
          (format.order.value (rest.take 2))).toNat ≤
        0xffff ∧
      bytes
          ⟨format, UInt16.ofNat c.toNat,
            UInt32.ofNat (format.order.value (rest.take 2)),
            false⟩ =
        format.token :: c :: rest.take 2 := by
  have hLength : (rest.take 2).length = 2 :=
    List.length_take_of_le hEnough
  have hValue : format.order.value (rest.take 2) < 65536 := by
    have h := format.order.value_lt (rest.take 2)
    rw [hLength] at h
    exact h
  have hWord :
      (UInt32.ofNat
        (format.order.value (rest.take 2))).toNat =
          format.order.value (rest.take 2) := by
    rw [UInt32.toNat_ofNat']
    exact Nat.mod_eq_of_lt (by omega)
  have hByte :
      UInt8.ofNat (UInt16.ofNat c.toNat).toNat = c := by
    have hLow := c.toNat_lt
    rw [UInt16.toNat_ofNat', Nat.mod_eq_of_lt (by omega),
      UInt8.ofNat_toNat]
  have hBytes :=
    format.order.bytes_value (rest.take 2)
  rw [hLength] at hBytes
  refine ⟨by omega, ?_⟩
  unfold bytes
  dsimp only
  rw [if_neg Bool.false_ne_true, hWord, hBytes, hByte]

/- Data that fields are read from begins with their bytes. -/
theorem fields_ok
    {format : SequenceFormat}
    {data : Bytes}
    {h : Header}
    (hToken : data[0]? = some format.token)
    (hFields : fields format data = .ok h) :
    h.bytes <+: data.toList ∧
      (h.extended = false →
        1 ≤ h.count.toNat ∧ h.count.toNat ≤ 255 ∧
          h.length.toNat ≤ 0xffff) := by
  rcases data with ⟨_ | ⟨token, _ | ⟨c, rest⟩⟩⟩
  · contradiction
  · contradiction
  · obtain rfl : token = format.token := by
      simpa using hToken
    have hSecond :
        (format.token :: c :: rest).toArray[1]? = some c :=
      rfl
    have hPrefix :
        ∀ n, format.token :: c :: rest.take n <+:
          format.token :: c :: rest :=
      fun n => (List.prefix_cons_inj _).mpr
        ((List.prefix_cons_inj _).mpr (rest.take_prefix n))
    unfold fields at hFields
    rw [hSecond] at hFields
    dsimp only at hFields
    rw [slice_two _ _ _ 2, slice_four _ _ _ 6,
      List.size_toArray, List.length_cons, List.length_cons]
      at hFields
    unfold extendedSize shortSize at hFields
    split at hFields
    next hZero =>
      split at hFields
      · contradiction
      next hEnough =>
        rw [beq_iff_eq] at hZero
        subst hZero
        cases hFields
        refine ⟨?_, nofun⟩
        rw [bytes_extended format (by omega)]
        exact hPrefix 6
    next hNonzero =>
      split at hFields
      · contradiction
      next hEnough =>
        rcases bytes_short format c rest (by omega) with
          ⟨hShort, hBytes⟩
        cases hFields
        refine ⟨?_, fun _ => ⟨?_, ?_, hShort⟩⟩
        · rw [hBytes]
          exact hPrefix 2
        · have hLow := c.toNat_lt
          have hSome : c.toNat ≠ 0 := by
            intro hNone
            apply hNonzero
            rw [beq_iff_eq, ← UInt8.toNat_inj, hNone]
            rfl
          rw [UInt16.toNat_ofNat',
            Nat.mod_eq_of_lt (by omega)]
          omega
        · have hLow := c.toNat_lt
          rw [UInt16.toNat_ofNat',
            Nat.mod_eq_of_lt (by omega)]
          omega

/-
  Data is read as a header exactly if it begins with the bytes
  of that header, and the header can be written.
-/
theorem parse_eq_ok_iff
    (data : Bytes)
    (h : Header) :
    parse data = .ok h ↔
      h.Writable ∧ h.bytes <+: data.toList := by
  constructor
  · intro hParse
    unfold parse at hParse
    split at hParse
    next h' hCheck =>
      cases hParse
      unfold check at hCheck
      split at hCheck
      · contradiction
      next token hToken =>
        split at hCheck
        · contradiction
        next format hFormat =>
          rw [← SequenceFormat.token_of_ofToken? hFormat]
            at hToken
          split at hCheck
          · contradiction
          next h' hFields =>
            split at hCheck
            · contradiction
            next hSpans =>
              cases hCheck
              rcases fields_ok hToken hFields with
                ⟨hBytes, hShort⟩
              exact ⟨⟨Nat.le_of_not_lt hSpans, hShort⟩,
                hBytes⟩
    next => contradiction
  · rintro ⟨hWritable, rest, hData⟩
    have hSplit : data = h.bytes.toArray ++ rest.toArray := by
      rw [List.append_toArray, hData]
    rw [hSplit]
    exact hWritable.parse_bytes rest.toArray

------------------------------------------------------------
-- Choosing
------------------------------------------------------------

/- A count of one byte and a length of two are enough. -/
def FitsShort
    (count payload : Nat) : Prop :=
  1 ≤ count ∧ count ≤ 255 ∧ payload + 4 ≤ 0xffff
deriving Decidable

/- Some form can hold the count and the length. -/
def Fits
    (count payload : Nat) : Prop :=
  count ≤ 0xffff ∧
    (FitsShort count payload ∨ payload + 8 ≤ 0xffffffff)
deriving Decidable

variable {format : SequenceFormat}
variable {count payload : Nat}
variable {h : Header}

/- A header that is chosen is as short as it can be. -/
theorem extended_of_forPayload
    (hHeader : forPayload format count payload = .ok h) :
    Fits count payload ∧
      (h.extended = false ↔ FitsShort count payload) := by
  unfold forPayload at hHeader
  split at hHeader
  · contradiction
  next hCount =>
    have hFew : count ≤ 0xffff := Nat.le_of_not_lt hCount
    split at hHeader
    next hShort =>
      cases hHeader
      exact ⟨⟨hFew, .inl hShort⟩, fun _ => hShort,
        fun _ => rfl⟩
    next hLong =>
      split at hHeader
      next hFits =>
        cases hHeader
        exact ⟨⟨hFew, .inr hFits⟩, nofun,
          fun hShort => absurd hShort hLong⟩
      next => contradiction

/- Some header is chosen if one fits, and else none is. -/
theorem forPayload_of_fits
    (format : SequenceFormat)
    (hFits : Fits count payload) :
    ∃ h, forPayload format count payload = .ok h := by
  unfold forPayload
  rw [if_neg (Nat.not_lt_of_le hFits.1)]
  split
  · exact ⟨_, rfl⟩
  next hLong =>
    have hExtended := hFits.2.resolve_left hLong
    exact ⟨_, if_pos hExtended⟩

theorem forPayload_of_not_fits
    (format : SequenceFormat)
    (hNot : ¬ Fits count payload) :
    ∃ cause,
      forPayload format count payload = .error cause ∧
        cause.kind = .limitCheck := by
  cases hHeader : forPayload format count payload with
  | ok h => exact absurd (extended_of_forPayload hHeader).1 hNot
  | error cause =>
      refine ⟨cause, rfl, ?_⟩
      unfold forPayload at hHeader
      repeat' split at hHeader
      all_goals
        cases hHeader
      · rfl
      · rfl

/- No header with the same count and payload is shorter. -/
theorem size_le_of_forPayload
    (hHeader : forPayload format count payload = .ok h)
    {h' : Header}
    (hWritable : h'.Writable)
    (hCount : h'.count.toNat = count)
    (hPayload : h'.payloadSize = payload) :
    h.size ≤ h'.size := by
  have hForm := (extended_of_forPayload hHeader).2
  unfold payloadSize at hPayload
  have hSpans := hWritable.spans
  cases hExtended' : h'.extended with
  | true =>
      have hSize' : h'.size = 8 := by
        unfold size
        rw [hExtended']
        rfl
      rw [hSize']
      unfold size
      split <;> decide
  | false =>
      have hSize' : h'.size = 4 := by
        unfold size
        rw [hExtended']
        rfl
      rcases hWritable.short hExtended' with
        ⟨hLow, hHigh, hShort⟩
      have hFits : FitsShort count payload :=
        ⟨by omega, by omega, by omega⟩
      rw [hSize']
      unfold size
      rw [hForm.mpr hFits]
      decide

/-
  Headers and their bytes determine each other. A header is
  chosen exactly if one form can hold the count and the length,
  and otherwise the error is a limit. What is chosen is short
  exactly if it can be, is read back from its bytes, whatever
  follows them, with its count and its payload, and no header
  that is read with these is shorter. Whatever is read as a
  header spans itself and is written as the bytes that it was
  read from.
-/
theorem forPayload_parse
    (format : SequenceFormat)
    (count payload : Nat) :
    ((∃ h, forPayload format count payload = .ok h) ↔
        Fits count payload) ∧
      (¬ Fits count payload →
        ∃ cause,
          forPayload format count payload = .error cause ∧
            cause.kind = .limitCheck) ∧
      (∀ h, forPayload format count payload = .ok h →
        (h.extended = false ↔
            1 ≤ count ∧ count ≤ 255 ∧ payload ≤ 65531) ∧
          h.format = format ∧ h.count.toNat = count ∧
          h.payloadSize = payload ∧
          (∀ rest, parse (h.bytes.toArray ++ rest) = .ok h) ∧
          ∀ data h', parse data = .ok h' →
            h'.count.toNat = count →
              h'.payloadSize = payload → h.size ≤ h'.size) ∧
      ∀ data h, parse data = .ok h →
        h.size ≤ h.length.toNat ∧ h.size ≤ data.size ∧
          h.bytes = slice data 0 h.size := by
  refine ⟨⟨?_, forPayload_of_fits format⟩,
    forPayload_of_not_fits format, ?_, ?_⟩
  · rintro ⟨h, hHeader⟩
    exact (extended_of_forPayload hHeader).1
  · intro h hHeader
    rcases forPayload_ok hHeader with
      ⟨hFormat, hCount, hLength, -, -⟩
    refine ⟨?_, hFormat, hCount, ?_, parse_bytes hHeader, ?_⟩
    · rw [(extended_of_forPayload hHeader).2]
      unfold FitsShort
      omega
    · rw [payloadSize, hLength, Nat.add_sub_cancel_left]
    · intro data h' hParse
      exact size_le_of_forPayload hHeader
        ((parse_eq_ok_iff data h').mp hParse).1
  · intro data h hParse
    rcases (parse_eq_ok_iff data h).mp hParse with
      ⟨hWritable, hPrefix⟩
    have hSize := hPrefix.length_le
    have hBytes := List.prefix_iff_eq_take.mp hPrefix
    rw [length_bytes] at hSize hBytes
    refine ⟨hWritable.spans, hSize, ?_⟩
    rw [slice, Array.toList_extract, List.extract_eq_take_drop,
      List.drop_zero, Nat.sub_zero]
    exact hBytes

/-
  The greatest payload behind a short header and the least
  behind an extended one, a count that no header holds, and an
  extended header in front of other bytes.
-/
theorem forPayload_parse_boundary :
    (∃ h,
      forPayload ⟨.big, .ieee⟩ 255 65531 = .ok h ∧
        h.extended = false ∧ h.payloadSize = 65531 ∧
        parse (h.bytes.toArray ++ #[7]) = .ok h) ∧
      (∃ h,
        forPayload ⟨.big, .ieee⟩ 255 65532 = .ok h ∧
          h.extended ≠ false ∧ h.payloadSize = 65532 ∧
          parse (h.bytes.toArray ++ #[7]) = .ok h) ∧
      (∃ cause,
        forPayload ⟨.big, .ieee⟩ 65536 0 = .error cause ∧
          cause.kind = .limitCheck) ∧
      parse #[131, 0, 3, 0, 32, 0, 0, 0, 7] =
        .ok ⟨⟨.little, .native⟩, 3, 32, true⟩ ∧
      bytes ⟨⟨.little, .native⟩, 3, 32, true⟩ =
        [131, 0, 3, 0, 32, 0, 0, 0] := by
  rcases forPayload_parse ⟨.big, .ieee⟩ 255 65531 with
    ⟨hFits, -, hChosen, hRead⟩
  rcases forPayload_parse ⟨.big, .ieee⟩ 255 65532 with
    ⟨hFits', -, hChosen', -⟩
  rcases forPayload_parse ⟨.big, .ieee⟩ 65536 0 with
    ⟨-, hRefused, -⟩
  rcases hFits.mpr (by decide) with ⟨h, hHeader⟩
  rcases hFits'.mpr (by decide) with ⟨h', hHeader'⟩
  rcases hChosen h hHeader with
    ⟨hShort, -, -, hPayload, hParse, -⟩
  rcases hChosen' h' hHeader' with
    ⟨hLong, -, -, hPayload', hParse', -⟩
  have hNine :
      parse #[131, 0, 3, 0, 32, 0, 0, 0, 7] =
        .ok ⟨⟨.little, .native⟩, 3, 32, true⟩ := by
    decide
  exact ⟨⟨h, hHeader, hShort.mpr (by decide), hPayload,
      hParse #[7]⟩,
    ⟨h', hHeader', fun hNot => absurd (hLong.mp hNot)
      (by decide), hPayload', hParse' #[7]⟩,
    hRefused (by decide), hNine, (hRead _ _ hNine).2.2⟩

end Header

end PostScript
