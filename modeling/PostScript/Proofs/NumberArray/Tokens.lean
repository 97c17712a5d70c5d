import PostScript.Proofs.BinaryToken.Extent
import PostScript.Proofs.BinaryToken.Rewriting
import PostScript.Proofs.NumberArray.Quantised

/-
  This file shows what becomes of an array of numbers that is
  written as a token and decoded again: an array object of the
  numbers, unless they are more than an array can hold.

  Main results:
    * `NumberArray.readLead_heading`
    * `NumberArray.decode_encode`
-/

namespace PostScript

open List (Forall₂)

/- The object of a number may stand in any array. -/
theorem Object.isIllegalIn_ofNumber
    (target : Vm)
    (n : Number) :
    (ofNumber n).isIllegalIn target = false := by
  unfold isIllegalIn
  rw [isComposite_ofNumber, Bool.and_false, Bool.false_and]

namespace NumberArray

------------------------------------------------------------
-- Tokens
------------------------------------------------------------

open BinaryToken

/-
  A heading in front of as many bytes as it tells is read as
  the token of these bytes.
-/
theorem readLead_heading
    {f : NumberFormat}
    (hCanonical : f.form.IsCanonical)
    {count : Nat}
    {head body : List UInt8}
    (hHead : heading f count = .ok head)
    (hBody : body.length = count * f.size) :
    ∃ lines,
      readLead (Reader.ofList (head ++ body)) =
        (.ok (.numbers f body.toArray),
          ⟨[], head.length + body.length, lines⟩) := by
  have hFormat : NumberFormat.ofByte? f.byte = some f :=
    f.ofByte?_byte_eq_some_iff.mpr hCanonical
  have hWhole : ¬ body.length % f.size ≠ 0 := by
    rw [hBody, Nat.mul_mod_left]
    simp
  -- The size is read behind the token and the format.
  have hSized :
      ∀ (token : UInt8) (n : Nat) (unit : NumberFormat → Nat)
        (size : Nat),
        size < power 256 n → size * unit f = body.length →
        ∃ lines,
          numberArray n unit
              (⟨f.byte :: (f.order.bytes n size ++ body), 1,
                (LineCount.startingAt 1).advance token⟩ :
                  Reader) =
            (.ok (.numbers f body.toArray),
              ⟨[], 2 + n + body.length, lines⟩) := by
    intro token n unit size hSize hUnit
    have hLength := f.order.length_bytes n size
    rcases Reader.takeBytes_append (f.order.bytes n size) body 2
        (((LineCount.startingAt 1).advance token).advance
          f.byte) with ⟨lines, hTaken⟩
    rcases Reader.takeBytes_append body [] (2 + n) lines with
      ⟨lines', hRest⟩
    rw [hLength] at hTaken
    rw [List.append_nil] at hRest
    have hFirst :
        BinaryToken.format
            (⟨f.byte :: (f.order.bytes n size ++ body), 1,
              (LineCount.startingAt 1).advance token⟩ :
                Reader) =
          (.ok f,
            ⟨f.order.bytes n size ++ body, 2,
              ((LineCount.startingAt 1).advance token).advance
                f.byte⟩) := by
      have hDemand :
          demand (⟨f.byte :: (f.order.bytes n size ++ body), 1,
              (LineCount.startingAt 1).advance token⟩ :
                Reader) =
            (.ok f.byte,
              ⟨f.order.bytes n size ++ body, 2,
                ((LineCount.startingAt 1).advance
                  token).advance f.byte⟩) := rfl
      unfold BinaryToken.format
      rw [hDemand]
      unfold BinaryToken.andThen
      dsimp only
      rw [hFormat]
    refine ⟨lines', ?_⟩
    unfold numberArray
    rw [hFirst]
    unfold BinaryToken.andThen
    dsimp only
    rw [hTaken]
    dsimp only
    rw [f.order.value_bytes, Nat.mod_eq_of_lt hSize, hUnit]
    unfold numbersOf
    rw [if_neg hWhole, hRest]
    rfl
  rcases heading_eq_ok hHead with
    ⟨hCount, rfl⟩ | ⟨hCount, hFits, rfl⟩
  · rcases hSized shortToken 2 NumberFormat.size count
        (Nat.lt_succ_of_le hCount) hBody.symm with
      ⟨lines, hRead⟩
    refine ⟨lines, ?_⟩
    rw [List.length_cons, List.length_cons,
      f.order.length_bytes, Nat.add_comm 2 2]
    exact hRead
  · rcases hSized longToken 4 (fun _ => 1) (count * f.size)
        (Nat.lt_succ_of_le hFits)
        ((Nat.mul_one _).trans hBody.symm) with ⟨lines, hRead⟩
    refine ⟨lines, ?_⟩
    rw [List.length_cons, List.length_cons,
      f.order.length_bytes, Nat.add_comm 4 2]
    exact hRead

variable {ε : Type}
variable [Environment ε]

/- Numbers that are read become an array if they fit. -/
theorem numbersObject_eq
    (env : ε)
    {f : NumberFormat}
    {bytes : Bytes}
    {vs : List Number}
    (h : decode f bytes = .ok vs) :
    numbersObject env f bytes =
      if vs.length ≤ maxArrayLength then
        .ok (.array (vs.map Object.ofNumber)
          { Environment.newAttrs env with executable := false })
      else
        .error .arrayTooLong := by
  unfold numbersObject
  rw [h]
  dsimp only
  split
  next hFits =>
    apply makeArray_of_legal
    · rw [List.length_map]
      exact hFits
    · intro e he
      rcases List.mem_map.mp he with ⟨v, -, rfl⟩
      exact Object.isIllegalIn_ofNumber _ v
  next hLong =>
    unfold makeArray
    rw [List.length_map, if_pos (Nat.lt_of_not_le hLong)]

/-
  Numbers behind their heading are decoded to the end, as a
  literal array of what is read, unless they are too many.
-/
theorem decode_token
    (env : ε)
    (t : NameTable)
    {f : NumberFormat}
    (hCanonical : f.form.IsCanonical)
    {ns vs : List Number}
    {head : List UInt8}
    {parts : List (List UInt8)}
    (hHead : heading f ns.length = .ok head)
    (hParts : Forall₂ (fun n part => f.write n = .ok part)
      ns parts)
    (hRead : Forall₂ (fun part v => f.read part = .ok v)
      parts vs) :
    BinaryToken.decode env
        (head ++ parts.flatten).toArray t =
      if ns.length ≤ maxArrayLength then
        .ok (.array (vs.map Object.ofNumber)
          { Environment.newAttrs env with
            executable := false },
          (head ++ parts.flatten).toArray.size) t
      else
        .error .arrayTooLong t := by
  have hDecode := (decode_payload_iff hHead hParts).mpr hRead
  have hObject := numbersObject_eq env hDecode
  rw [payload_eq hHead, ← hRead.length_eq,
    ← hParts.length_eq] at hObject
  have hBody : parts.flatten.length = ns.length * f.size := by
    rw [length_flatten (length_of_write hParts),
      hParts.length_eq]
  rcases readLead_heading hCanonical hHead hBody with
    ⟨lines, hLead⟩
  rw [decode_eq, List.toList_toArray, hLead]
  unfold object
  dsimp only
  rw [hObject, List.size_toArray, List.length_append]
  split <;> rfl

/-
  An array of numbers that is written in a canonical format is
  decoded to its end, as a literal array of the numbers that
  its payload is read as. It is refused if there are more of
  them than an array can hold.
-/
theorem decode_encode
    (env : ε)
    (t : NameTable)
    {f : NumberFormat}
    (hCanonical : f.form.IsCanonical)
    {ns : List Number}
    {bytes : Bytes}
    (hEncode : encode f ns = .ok bytes) :
    ∃ vs, decode f (payload bytes) = .ok vs ∧
      (ns.length ≤ maxArrayLength →
        BinaryToken.decode env bytes t =
          .ok (.array (vs.map Object.ofNumber)
            { Environment.newAttrs env with
              executable := false }, bytes.size) t) ∧
      (maxArrayLength < ns.length →
        BinaryToken.decode env bytes t =
          .error .arrayTooLong t) := by
  rcases encode_eq_ok_iff.mp hEncode with
    ⟨head, parts, hHead, hParts, rfl⟩
  rcases quantises_of_writes hCanonical hParts with
    ⟨vs, hRead, -⟩
  refine ⟨vs, (decode_payload_iff hHead hParts).mpr hRead,
    ?_, ?_⟩
  · intro hFits
    rw [decode_token env t hCanonical hHead hParts hRead,
      if_pos hFits]
  · intro hLong
    rw [decode_token env t hCanonical hHead hParts hRead,
      if_neg (Nat.not_le.mpr hLong)]

/- Two numbers of 16 bits are decoded again. -/
theorem decode_encode_two :
    encode ⟨.fixed16 8, .little⟩
        [.real ⟨0x3fc00000, 0⟩, .integer (-1)] =
      .ok #[149, 168, 2, 0, 128, 1, 0, 255] ∧
    BinaryToken.decode () #[149, 168, 2, 0, 128, 1, 0, 255]
        NameTable.initial =
      .ok (.array
        [.atom (.real ⟨0x3fc00000, 0⟩) {},
          .atom (.real ⟨0xbf800000, 0⟩) {}] {}, 8)
        NameTable.initial := by
  have hEncode :
      encode ⟨.fixed16 8, .little⟩
          [.real ⟨0x3fc00000, 0⟩, .integer (-1)] =
        .ok #[149, 168, 2, 0, 128, 1, 0, 255] := by
    rfl
  rcases decode_encode () NameTable.initial (by decide)
      hEncode with ⟨vs, hRead, hToken, -⟩
  have hValues :
      [Number.real ⟨0x3fc00000, 0⟩, .real ⟨0xbf800000, 0⟩] =
        vs := by
    exact Except.ok.inj hRead
  subst hValues
  exact ⟨hEncode, hToken (by decide)⟩

/- Copies of related things are related one by one. -/
theorem forall₂_replicate
    {α β : Type}
    {R : α → β → Prop}
    {a : α}
    {b : β}
    (h : R a b)
    (n : Nat) :
    Forall₂ R (List.replicate n a) (List.replicate n b) := by
  induction n with
  | zero => exact .nil
  | succ n ih => exact .cons h ih

/-
  An array may be written that is too long to be decoded: one
  more number than an array can hold.
-/
theorem decode_too_many :
    ∃ bytes,
      encode ⟨.fixed16 0, .big⟩
          (List.replicate 65536 (.integer 5)) = .ok bytes ∧
      BinaryToken.decode () bytes NameTable.initial =
        .error .arrayTooLong NameTable.initial := by
  have hLength :
      (List.replicate 65536 (Number.integer 5)).length =
        65536 :=
    List.length_replicate
  have hHeading :
      ∃ head, heading ⟨.fixed16 0, .big⟩ 65536 = .ok head :=
    exists_heading (by decide)
  rcases hHeading with ⟨head, hHead⟩
  rw [← hLength] at hHead
  have hParts :=
    forall₂_replicate
      (R := fun n part =>
        NumberFormat.write ⟨.fixed16 0, .big⟩ n = .ok part)
      (a := .integer 5) (b := [0, 5]) rfl 65536
  have hRead :=
    forall₂_replicate
      (R := fun part v =>
        NumberFormat.read ⟨.fixed16 0, .big⟩ part = .ok v)
      (a := [0, 5]) (b := .integer 5) rfl 65536
  refine ⟨_, encode_eq_ok_iff.mpr
    ⟨head, _, hHead, hParts, rfl⟩, ?_⟩
  rw [decode_token () NameTable.initial (by decide) hHead
      hParts hRead, if_neg]
  rw [hLength]
  decide

end NumberArray

end PostScript
