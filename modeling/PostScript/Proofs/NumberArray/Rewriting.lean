import PostScript.Proofs.Environment.Sealed
import PostScript.Proofs.NumberArray.Quantised
import PostScript.Proofs.Numeric.Leading

/-
  This file shows when an array of numbers that was read can be
  written again in its own format. Single precision keeps 24
  bits of a mantissa, so that the greatest mantissas of a
  scaled 32-bit form are rounded up to 2^31, which does not
  fit. All other arrays are read back unchanged.

  Key definitions include:
    * `NumberFormat.rewritten`
    * `NumberFormat.RoundsUp`

  Main results:
    * `NumberFormat.mantissaAt_scaledNumber`
    * `NumberFormat.rewrite_of_read`
    * `NumberFormat.refuse_of_read`
    * `NumberArray.rewrite_of_reads`
    * `NumberArray.refuse_of_reads`
    * `NumberArray.encode_decode`
-/

namespace PostScript

open List (Forall₂)

------------------------------------------------------------
-- Mantissas
------------------------------------------------------------

namespace NumberFormat

/- The mantissa that is written for one that was read. -/
def rewritten
    (v : Int32)
    (scale : UInt8) : Int :=
  if scale = 0 then
    v.toInt
  else
    FixedPoint.kept ⟨v, scale.toNat⟩

/- At its own scale a number has the rewritten mantissa. -/
theorem mantissaAt_scaledNumber
    (v : Int32)
    {scale : UInt8}
    (hScale : scale.toNat ≤ 31) :
    (scaledNumber v scale).mantissaAt scale.toNat =
      some (rewritten v scale) := by
  unfold scaledNumber rewritten Number.mantissaAt
  by_cases hNone : scale = 0
  · subst hNone
    rw [if_pos rfl, if_pos rfl]
    simp [Number.exact, roundAway_intCast]
  · have hPower : (2 : ℚ) ^ scale.toNat ≠ 0 := by positivity
    have hExact :=
      FixedPoint.exact_toSingle (x := ⟨v, scale.toNat⟩) hScale
    rw [if_neg hNone, if_neg hNone]
    unfold Number.exact
    dsimp only
    rw [hExact, Option.map_some, div_mul_cancel₀ _ hPower,
      roundAway_intCast]

/- It is written for the same number, if it fits 32 bits. -/
theorem scaledNumber_rewritten
    {v : Int32}
    {scale : UInt8}
    (hScale : scale.toNat ≤ 31)
    (hFits : FitsBits 32 (rewritten v scale)) :
    scaledNumber (Int32.ofInt (rewritten v scale)) scale =
      scaledNumber v scale := by
  unfold rewritten at hFits ⊢
  unfold scaledNumber
  by_cases hNone : scale = 0
  · rw [if_pos hNone, if_pos hNone, if_pos hNone,
      Int32.ofInt_toInt]
  · rw [if_neg hNone] at hFits
    rw [if_neg hNone, if_neg hNone, if_neg hNone,
      FixedPoint.toSingle_kept
        (x := ⟨v, scale.toNat⟩) hScale hFits.2]

/- The 64 greatest alone do not fit, where there is a scale. -/
theorem fitsBits_rewritten_iff
    (v : Int32)
    (scale : UInt8) :
    FitsBits 32 (rewritten v scale) ↔
      (scale ≠ 0 → v.toInt < 2 ^ 31 - 64) := by
  have hLow := v.le_toInt
  have hHigh := v.toInt_lt
  have hKept := FixedPoint.kept_lt_iff ⟨v, scale.toNat⟩
  unfold FitsBits rewritten
  by_cases hNone : scale = 0
  · rw [if_pos hNone]
    exact ⟨fun _ h => absurd hNone h, fun _ => ⟨hLow, hHigh⟩⟩
  · rw [if_neg hNone]
    exact ⟨fun h _ => hKept.2.mp h.2,
      fun h => ⟨hKept.1, hKept.2.mpr (h hNone)⟩⟩

/- A mantissa of 16 bits is written again. -/
theorem rewritten_toInt32
    (v : Int16)
    (scale : UInt8) :
    rewritten v.toInt32 scale = v.toInt := by
  have hLow := v.le_toInt
  have hHigh := v.toInt_lt
  unfold rewritten
  split
  · exact v.toInt_toInt32
  · rw [FixedPoint.kept_eq_self]
    · exact v.toInt_toInt32
    · rw [v.toInt_toInt32]
      omega

------------------------------------------------------------
-- Single Numbers
------------------------------------------------------------

/-
  Whether the bytes are those of a mantissa that is rounded up
  to 2^31: one of the 64 greatest in a 32-bit form with a
  scale.
-/
def RoundsUp
    (f : NumberFormat)
    (piece : List UInt8) : Prop :=
  match f.form with
  | .fixed32 scale =>
      scale ≠ 0 ∧
        2 ^ 31 - 64 ≤ (f.order.word32 piece).toInt32.toInt
  | _ => False

/- A number that was read is written for itself. -/
theorem rewrite_of_read
    {f : NumberFormat}
    (hCanonical : f.form.IsCanonical)
    {piece : List UInt8}
    {v : Number}
    (hRead : f.read piece = .ok v)
    (hNot : ¬ f.RoundsUp piece) :
    ∃ part, f.write v = .ok part ∧ f.read part = .ok v := by
  rcases f with ⟨form, order⟩
  cases form with
  | fixed32 scale =>
      cases hRead
      have hFits :=
        (fitsBits_rewritten_iff
          (order.word32 piece).toInt32 scale).mpr
          (fun hSome => Int.not_le.mp
            (fun hGreat => hNot ⟨hSome, hGreat⟩))
      rw [write_fixed32,
        (mantissa_eq_ok_iff _ hCanonical (by decide)).mpr
          ⟨mantissaAt_scaledNumber _ hCanonical, hFits⟩]
      refine ⟨_, rfl, ?_⟩
      rw [read_bytes32,
        scaledNumber_rewritten hCanonical hFits]
  | fixed16 scale =>
      cases hRead
      have hScale : scale.toNat ≤ 31 :=
        Nat.le_trans hCanonical (by decide)
      have hMantissa :=
        mantissaAt_scaledNumber
          (order.word16 piece).toInt16.toInt32 hScale
      rw [rewritten_toInt32] at hMantissa
      rw [write_fixed16,
        (mantissa_eq_ok_iff _ hScale (by decide)).mpr
          ⟨hMantissa, Int16.le_toInt _, Int16.toInt_lt _⟩]
      refine ⟨_, rfl, ?_⟩
      rw [read_bytes16, Int16.ofInt_toInt]
  | ieee | native =>
      unfold read finiteNumber at hRead
      dsimp only at hRead
      split at hRead
      next hFinite =>
        cases hRead
        refine ⟨order.bytes32 (order.word32 piece), ?_, ?_⟩
        · exact if_pos hFinite
        · unfold read finiteNumber
          dsimp only
          rw [order.word32_bytes32, if_pos hFinite]
      next => contradiction

/- It is refused if it was rounded up. -/
theorem refuse_of_read
    {f : NumberFormat}
    (hCanonical : f.form.IsCanonical)
    {piece : List UInt8}
    {v : Number}
    (hRead : f.read piece = .ok v)
    (hUp : f.RoundsUp piece) :
    ∃ cause, f.write v = .error cause ∧
      cause.kind = .rangeCheck := by
  rcases f with ⟨form, order⟩
  cases form with
  | fixed32 scale =>
      cases hRead
      rcases hUp with ⟨hSome, hGreat⟩
      have hMantissa :=
        mantissaAt_scaledNumber
          (order.word32 piece).toInt32 hCanonical
      rw [write_fixed32]
      cases hWrite :
          mantissa
            (scaledNumber (order.word32 piece).toInt32 scale)
            scale 32 with
      | ok m =>
          rcases (mantissa_eq_ok_iff _ hCanonical
              (by decide)).mp hWrite with
            ⟨hSame, hFits⟩
          rw [hMantissa, Option.some.injEq] at hSame
          rw [← hSame, fitsBits_rewritten_iff] at hFits
          exact absurd (hFits hSome) (Int.not_lt.mpr hGreat)
      | error cause =>
          refine ⟨cause, rfl, ?_⟩
          rw [mantissa_eq_error (by decide) hWrite, if_neg]
          intro hNan
          have hNone :=
            (Number.exact_eq_none_iff _).mpr (.inl hNan)
          unfold Number.mantissaAt at hMantissa
          rw [hNone] at hMantissa
          contradiction
  | fixed16 _ | ieee | native => contradiction

end NumberFormat

------------------------------------------------------------
-- Arrays
------------------------------------------------------------

namespace NumberArray

/- Numbers that were read are written for themselves. -/
theorem rewrite_of_reads
    {f : NumberFormat}
    (hCanonical : f.form.IsCanonical)
    {pieces : List (List UInt8)}
    {vs : List Number}
    (hRead : Forall₂ (fun piece v => f.read piece = .ok v)
      pieces vs)
    (hNot : ∀ piece ∈ pieces, ¬ f.RoundsUp piece) :
    ∃ parts,
      Forall₂ (fun v part => f.write v = .ok part) vs parts ∧
        Forall₂ (fun part v => f.read part = .ok v) parts vs :=
    by
  induction hRead with
  | nil => exact ⟨[], .nil, .nil⟩
  | cons hFirst _ ih =>
      rcases List.forall_mem_cons.mp hNot with ⟨hHere, hThere⟩
      rcases NumberFormat.rewrite_of_read hCanonical hFirst
        hHere with ⟨part, hWrite, hAgain⟩
      rcases ih hThere with ⟨parts, hWrites, hAgains⟩
      exact ⟨part :: parts, .cons hWrite hWrites,
        .cons hAgain hAgains⟩

/- Numbers that were read fit into as many bytes again. -/
theorem length_of_decode
    {f : NumberFormat}
    {data : Bytes}
    (hLength : data.size < 2 ^ 32)
    {vs : List Number}
    (hDecode : decode f data = .ok vs) :
    vs.length * f.size ≤ 0xffffffff := by
  rw [length_decode hDecode]
  exact Nat.le_trans (Nat.div_mul_le_self _ _)
    (Nat.le_of_lt_succ hLength)

/-
  Numbers of which one was rounded up are refused. Others that
  would be refused before it were rounded up too.
-/
theorem refuse_of_reads
    {f : NumberFormat}
    (hCanonical : f.form.IsCanonical)
    {pieces : List (List UInt8)}
    {vs : List Number}
    (hRead : Forall₂ (fun piece v => f.read piece = .ok v)
      pieces vs)
    (hLength : vs.length * f.size ≤ 0xffffffff)
    (hUp : ∃ piece ∈ pieces, f.RoundsUp piece) :
    ∃ cause, encode f vs = .error cause ∧
      cause.kind = .rangeCheck := by
  rcases hUp with ⟨piece, hPiece, hUp⟩
  cases hEncode : encode f vs with
  | ok bytes =>
      rcases (exists_encode_iff hLength).mp ⟨_, hEncode⟩ with
        ⟨parts, hWrite⟩
      rcases exists_of_forall₂ hRead hPiece with
        ⟨v, hv, hHere⟩
      rcases exists_of_forall₂ hWrite hv with
        ⟨part, -, hPart⟩
      rcases NumberFormat.refuse_of_read hCanonical hHere hUp
        with ⟨cause, hRefuse, -⟩
      rw [hPart] at hRefuse
      contradiction
  | error cause =>
      rcases encode_eq_error hLength hEncode with
        ⟨before, v, after, rfl, -, hRefuse⟩
      rcases exists_of_forall₂ hRead.flip
          (List.mem_append_right before List.mem_cons_self)
        with ⟨first, -, hFirst⟩
      refine ⟨cause, rfl, ?_⟩
      by_cases hFirstUp : f.RoundsUp first
      · rcases NumberFormat.refuse_of_read hCanonical hFirst
          hFirstUp with ⟨cause', hRefuse', hKind⟩
        rw [hRefuse] at hRefuse'
        cases hRefuse'
        exact hKind
      · rcases NumberFormat.rewrite_of_read hCanonical hFirst
          hFirstUp with ⟨part, hWrite, -⟩
        rw [hRefuse] at hWrite
        contradiction

/-
  An array of numbers that was read in a canonical format is
  written in this format and read back unchanged, unless the
  mantissa of one of the numbers was rounded up to 2^31. Then
  it is refused.
-/
theorem encode_decode
    {f : NumberFormat}
    (hCanonical : f.form.IsCanonical)
    {data : Bytes}
    (hLength : data.size < 2 ^ 32)
    {vs : List Number}
    (hDecode : decode f data = .ok vs) :
    ((∀ piece ∈
          pieces f.size (data.size / f.size) data.toList,
          ¬ f.RoundsUp piece) →
        ∃ bytes, encode f vs = .ok bytes ∧
          decode f (payload bytes) = .ok vs) ∧
      ((∃ piece ∈
          pieces f.size (data.size / f.size) data.toList,
          f.RoundsUp piece) →
        ∃ cause, encode f vs = .error cause ∧
          cause.kind = .rangeCheck) := by
  have hRead := (decode_eq_ok_iff.mp hDecode).2
  have hFits := length_of_decode hLength hDecode
  constructor
  · intro hNot
    rcases exists_heading hFits with ⟨head, hHead⟩
    rcases rewrite_of_reads hCanonical hRead hNot with
      ⟨parts, hWrite, hAgain⟩
    refine ⟨_, encode_eq_ok_iff.mpr
      ⟨head, parts, hHead, hWrite, rfl⟩, ?_⟩
    exact (decode_payload_iff hHead hWrite).mpr hAgain
  · exact refuse_of_reads hCanonical hRead hFits

/- A mantissa of 25 bits is rounded, and read back rounded. -/
theorem encode_decode_rounded :
    decode ⟨.fixed32 1, .big⟩ #[1, 0, 0, 1] =
      .ok [.real ⟨0x4b000000, 0⟩] ∧
    ∃ bytes,
      encode ⟨.fixed32 1, .big⟩ [.real ⟨0x4b000000, 0⟩] =
        .ok bytes ∧
      decode ⟨.fixed32 1, .big⟩ (payload bytes) =
        .ok [.real ⟨0x4b000000, 0⟩] := by
  have hDecode :
      decode ⟨.fixed32 1, .big⟩ #[1, 0, 0, 1] =
        .ok [.real ⟨0x4b000000, 0⟩] := by
    rfl
  have hNot :
      ∀ piece ∈ pieces 4 1 [1, 0, 0, 1],
        ¬ NumberFormat.RoundsUp ⟨.fixed32 1, .big⟩ piece := by
    intro piece hPiece
    rw [List.mem_singleton.mp hPiece]
    rintro ⟨-, hGreat⟩
    revert hGreat
    decide
  exact ⟨hDecode,
    (encode_decode (by decide) (by decide) hDecode).1 hNot⟩

/- The greatest mantissa is read as 2^30, and then refused. -/
theorem encode_decode_greatest :
    decode ⟨.fixed32 1, .big⟩ #[127, 255, 255, 255] =
      .ok [.real ⟨0x4e800000, 0⟩] ∧
    encode ⟨.fixed32 1, .big⟩ [.real ⟨0x4e800000, 0⟩] =
      .error .doesNotFit :=
  ⟨rfl, rfl⟩

end NumberArray

end PostScript
