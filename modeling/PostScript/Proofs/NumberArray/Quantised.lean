import PostScript.Proofs.NumberArray.Canonical
import PostScript.Proofs.NumberArray.Scaled

/-
  This file shows which numbers of an array each format can
  hold, and what is read back of them: in fixed point the
  nearest multiple of the last place, in single precision the
  nearest such number.

  Key definitions include:
    * `Number.Scales`
    * `Number.HasSingle`
    * `NumberForm.Holds`
    * `NumberForm.Quantises`
    * `NumberForm.refusal`

  Main results:
    * `NumberForm.Quantises.unique`
    * `NumberFormat.exists_write_iff`
    * `NumberFormat.quantises_of_write`
    * `NumberFormat.kind_of_write_error`
    * `NumberArray.quantises_of_encode`
    * `NumberArray.refusal_of_encode`
    * `NumberArray.encode_quantises`
-/

namespace PostScript

open List (Forall₂)

open Ieee

------------------------------------------------------------
-- What a Format Holds
------------------------------------------------------------

namespace Number

/-
  What a mantissa at a scale is read as: at scale zero an
  integer, otherwise a real without extension that is the
  nearest to `m / 2 ^ scale` in single precision.
-/
def Scales
    (m : Int)
    (scale : Nat) : Number → Prop
  | integer v => scale = 0 ∧ v.toInt = m
  | real r =>
      scale ≠ 0 ∧ r.extension = 0 ∧
        single.Rounds ((m : ℚ) / (2 : ℚ) ^ scale) r.bits.toNat

/-
  What a number is in single precision: an integer is rounded
  to the nearest, a real loses its extension.
-/
def HasSingle
    (bits : UInt32) : Number → Prop
  | integer v => single.Rounds (v.toInt : ℚ) bits.toNat
  | real r => r.bits = bits

end Number

namespace NumberForm

/- Whether a form can hold a number. -/
def Holds
    (n : Number) : NumberForm → Prop
  | fixed32 scale =>
      ∃ m, n.mantissaAt scale.toNat = some m ∧ FitsBits 32 m
  | fixed16 scale =>
      ∃ m, n.mantissaAt scale.toNat = some m ∧ FitsBits 16 m
  | ieee | native =>
      ∃ bits, n.HasSingle bits ∧
        Real.isFinite ⟨bits, 0⟩ = true

/- Whether `v` is what is left of `n` in a form. -/
def Quantises
    (n v : Number) : NumberForm → Prop
  | fixed32 scale | fixed16 scale =>
      ∃ m, n.mantissaAt scale.toNat = some m ∧
        v.Scales m scale.toNat
  | ieee | native =>
      ∃ bits, n.HasSingle bits ∧ v = .real ⟨bits, 0⟩

/- The error for a number that a form cannot hold. -/
def refusal
    (n : Number) : NumberForm → ErrorKind
  | fixed32 _ | fixed16 _ =>
      if n.value = .nan then .undefinedResult else .rangeCheck
  | ieee | native => .undefinedResult

end NumberForm

------------------------------------------------------------
-- Uniqueness
------------------------------------------------------------

/- A mantissa at a scale is read as one number alone. -/
theorem Number.Scales.unique
    {m : Int}
    {scale : Nat}
    {v w : Number}
    (hv : v.Scales m scale)
    (hw : w.Scales m scale) :
    v = w := by
  cases v with
  | integer v =>
      cases w with
      | integer w =>
          rw [Int32.toInt_inj.mp (hv.2.trans hw.2.symm)]
      | real r => exact absurd hv.1 hw.1
  | real r =>
      cases w with
      | integer w => exact absurd hw.1 hv.1
      | real r' =>
          rcases r with ⟨bits, extension⟩
          rcases r' with ⟨bits', extension'⟩
          rcases hv with ⟨-, rfl, hBits⟩
          rcases hw with ⟨-, rfl, hBits'⟩
          have hSame : bits = bits' :=
            single_bits_unique hBits hBits'
          rw [hSame]

/- A number has one single precision alone. -/
theorem Number.HasSingle.unique
    {n : Number}
    {bits bits' : UInt32}
    (h : n.HasSingle bits)
    (h' : n.HasSingle bits') :
    bits = bits' := by
  cases n with
  | integer v => exact single_bits_unique h h'
  | real r => exact h.symm.trans h'

/- What is left of a number in a form is one number alone. -/
theorem NumberForm.Quantises.unique
    {form : NumberForm}
    {n v w : Number}
    (hv : form.Quantises n v)
    (hw : form.Quantises n w) :
    v = w := by
  cases form with
  | fixed32 scale | fixed16 scale =>
      rcases hv with ⟨m, hm, hv⟩
      rcases hw with ⟨m', hm', hw⟩
      rw [hm, Option.some.injEq] at hm'
      subst hm'
      exact hv.unique hw
  | ieee | native =>
      rcases hv with ⟨bits, hBits, rfl⟩
      rcases hw with ⟨bits', hBits', rfl⟩
      rw [hBits.unique hBits']

------------------------------------------------------------
-- Mantissas
------------------------------------------------------------

namespace NumberFormat

/- A mantissa is read as the number it stands for. -/
theorem scales_scaledNumber
    (v : Int32)
    (scale : UInt8) :
    (scaledNumber v scale).Scales v.toInt scale.toNat := by
  unfold scaledNumber
  split
  next hNone =>
    subst hNone
    exact ⟨rfl, rfl⟩
  next hSome =>
    refine ⟨?_, rfl, FixedPoint.rounds_toSingle _⟩
    intro hZero
    exact hSome (UInt8.toNat_inj.mp hZero)

/- A mantissa of 32 bits is read as it was written. -/
theorem read_mantissa32
    (order : ByteOrder)
    (scale : UInt8)
    {m : Int}
    (hFits : FitsBits 32 m) :
    ∃ v,
      read ⟨.fixed32 scale, order⟩
          (order.bytes32 (Int32.ofInt m).toUInt32) = .ok v ∧
        v.Scales m scale.toNat := by
  have hInt : (Int32.ofInt m).toInt = m := by
    apply Int32.toInt_ofInt_of_le
    · exact hFits.1
    · exact hFits.2
  have hScales := scales_scaledNumber (Int32.ofInt m) scale
  rw [hInt] at hScales
  exact ⟨_, read_bytes32 order scale _, hScales⟩

/- So is a mantissa of 16 bits. -/
theorem read_mantissa16
    (order : ByteOrder)
    (scale : UInt8)
    {m : Int}
    (hFits : FitsBits 16 m) :
    ∃ v,
      read ⟨.fixed16 scale, order⟩
          (order.bytes16 (Int16.ofInt m).toUInt16) = .ok v ∧
        v.Scales m scale.toNat := by
  have hInt : (Int16.ofInt m).toInt32.toInt = m := by
    rw [Int16.toInt_toInt32]
    apply Int16.toInt_ofInt_of_le
    · exact hFits.1
    · exact hFits.2
  have hScales :=
    scales_scaledNumber (Int16.ofInt m).toInt32 scale
  rw [hInt] at hScales
  exact ⟨_, read_bytes16 order scale _, hScales⟩

------------------------------------------------------------
-- Single Numbers
------------------------------------------------------------

/- Every number is what it is in single precision. -/
theorem hasSingle_toSingle
    (n : Number) :
    n.HasSingle n.toSingle := by
  cases n with
  | integer v => exact Number.rounds_toSingle v
  | real r => rfl

/- A number is written if the form can hold it. -/
theorem exists_write_iff
    {f : NumberFormat}
    (hCanonical : f.form.IsCanonical)
    (n : Number) :
    (∃ part, f.write n = .ok part) ↔ f.form.Holds n := by
  rcases f with ⟨form, order⟩
  cases form with
  | fixed32 scale =>
      rw [write_fixed32, exists_map_ok_iff]
      exact exists_congr
        (fun _ => mantissa_eq_ok_iff n hCanonical (by decide))
  | fixed16 scale =>
      have hScale : scale.toNat ≤ 31 :=
        Nat.le_trans hCanonical (by decide)
      rw [write_fixed16, exists_map_ok_iff]
      exact exists_congr
        (fun _ => mantissa_eq_ok_iff n hScale (by decide))
  | ieee | native =>
      unfold write
      dsimp only
      constructor
      · rintro ⟨part, h⟩
        split at h
        next hFinite =>
          exact ⟨_, hasSingle_toSingle n, hFinite⟩
        next => contradiction
      · rintro ⟨bits, hBits, hFinite⟩
        rw [(hasSingle_toSingle n).unique hBits, if_pos hFinite]
        exact ⟨_, rfl⟩

/- What is written for a number is read as what is left. -/
theorem quantises_of_write
    {f : NumberFormat}
    (hCanonical : f.form.IsCanonical)
    {n : Number}
    {part : List UInt8}
    (h : f.write n = .ok part) :
    ∃ v, f.read part = .ok v ∧ f.form.Quantises n v := by
  rcases f with ⟨form, order⟩
  cases form with
  | fixed32 scale =>
      rw [write_fixed32] at h
      rcases of_map_ok h with ⟨m, hm, rfl⟩
      rcases (mantissa_eq_ok_iff n hCanonical
          (by decide)).mp hm with
        ⟨hMantissa, hFits⟩
      rcases read_mantissa32 order scale hFits with
        ⟨v, hRead, hScales⟩
      exact ⟨v, hRead, m, hMantissa, hScales⟩
  | fixed16 scale =>
      have hScale : scale.toNat ≤ 31 :=
        Nat.le_trans hCanonical (by decide)
      rw [write_fixed16] at h
      rcases of_map_ok h with ⟨m, hm, rfl⟩
      rcases (mantissa_eq_ok_iff n hScale
          (by decide)).mp hm with
        ⟨hMantissa, hFits⟩
      rcases read_mantissa16 order scale hFits with
        ⟨v, hRead, hScales⟩
      exact ⟨v, hRead, m, hMantissa, hScales⟩
  | ieee | native =>
      unfold write at h
      dsimp only at h
      split at h
      next hFinite =>
        cases h
        refine ⟨.real ⟨n.toSingle, 0⟩, ?_, _,
          hasSingle_toSingle n, rfl⟩
        unfold read finiteNumber
        dsimp only
        rw [order.word32_bytes32, if_pos hFinite]
      next => contradiction

/- The error says why a number is not written. -/
theorem kind_of_write_error
    {f : NumberFormat}
    {n : Number}
    {cause : Cause}
    (h : f.write n = .error cause) :
    cause.kind = f.form.refusal n := by
  rcases f with ⟨form, order⟩
  cases form with
  | fixed32 scale =>
      rw [write_fixed32] at h
      exact mantissa_eq_error (by decide) (of_map_error h)
  | fixed16 scale =>
      rw [write_fixed16] at h
      exact mantissa_eq_error (by decide) (of_map_error h)
  | ieee | native =>
      unfold write at h
      dsimp only at h
      split at h
      · contradiction
      · cases h
        rfl

end NumberFormat

------------------------------------------------------------
-- Arrays
------------------------------------------------------------

namespace NumberArray

/- All numbers of an array are written if all can be held. -/
theorem exists_writes_iff
    {f : NumberFormat}
    (hCanonical : f.form.IsCanonical)
    (ns : List Number) :
    (∃ parts, Forall₂ (fun n part => f.write n = .ok part)
        ns parts) ↔
      ∀ n ∈ ns, f.form.Holds n := by
  induction ns with
  | nil => simp
  | cons n ns ih =>
      rw [List.forall_mem_cons, ← ih,
        ← NumberFormat.exists_write_iff hCanonical]
      simp only [List.forall₂_cons_left_iff]
      constructor
      · rintro ⟨-, part, parts, hWrite, hRest, rfl⟩
        exact ⟨⟨part, hWrite⟩, parts, hRest⟩
      · rintro ⟨⟨part, hWrite⟩, parts, hRest⟩
        exact ⟨_, part, parts, hWrite, hRest, rfl⟩

/- They are read as what is left of them, one by one. -/
theorem quantises_of_writes
    {f : NumberFormat}
    (hCanonical : f.form.IsCanonical)
    {ns : List Number}
    {parts : List (List UInt8)}
    (h : Forall₂ (fun n part => f.write n = .ok part)
      ns parts) :
    ∃ vs,
      Forall₂ (fun part v => f.read part = .ok v) parts vs ∧
        Forall₂ (fun n v => f.form.Quantises n v) ns vs := by
  induction h with
  | nil => exact ⟨[], .nil, .nil⟩
  | cons hWrite _ ih =>
      rcases NumberFormat.quantises_of_write hCanonical hWrite
        with ⟨v, hRead, hQuantises⟩
      rcases ih with ⟨vs, hReads, hRest⟩
      exact ⟨v :: vs, .cons hRead hReads,
        .cons hQuantises hRest⟩

/- What is left of the numbers is one list alone. -/
theorem quantises_unique
    {form : NumberForm}
    {ns vs ws : List Number}
    (hvs : Forall₂ (fun n v => form.Quantises n v) ns vs)
    (hws : Forall₂ (fun n v => form.Quantises n v) ns ws) :
    ws = vs := by
  apply List.right_unique_forall₂' _ hws hvs
  intro n v w hv hw
  exact hv.unique hw

/- An array that is written is read as what is left of it. -/
theorem quantises_of_encode
    {f : NumberFormat}
    (hCanonical : f.form.IsCanonical)
    {ns : List Number}
    {bytes : Bytes}
    (h : encode f ns = .ok bytes) :
    ∃ vs, decode f (payload bytes) = .ok vs ∧
      Forall₂ (fun n v => f.form.Quantises n v) ns vs := by
  rcases encode_eq_ok_iff.mp h with
    ⟨head, parts, hHead, hParts, rfl⟩
  rcases quantises_of_writes hCanonical hParts with
    ⟨vs, hReads, hQuantises⟩
  exact ⟨vs, (decode_payload_iff hHead hParts).mpr hReads,
    hQuantises⟩

/- The first number that cannot be held says why not. -/
theorem refusal_of_encode
    {f : NumberFormat}
    (hCanonical : f.form.IsCanonical)
    {ns : List Number}
    (hLength : ns.length * f.size ≤ 0xffffffff)
    {cause : Cause}
    (h : encode f ns = .error cause) :
    ∃ before n after, ns = before ++ n :: after ∧
      (∀ v ∈ before, f.form.Holds v) ∧
      ¬ f.form.Holds n ∧
      cause.kind = f.form.refusal n := by
  rcases encode_eq_error hLength h with
    ⟨before, n, after, hList, hBefore, hn⟩
  refine ⟨before, n, after, hList, ?_, ?_, ?_⟩
  · intro v hv
    exact (NumberFormat.exists_write_iff hCanonical v).mp
      (hBefore v hv)
  · rw [← NumberFormat.exists_write_iff hCanonical]
    rintro ⟨part, hPart⟩
    rw [hn] at hPart
    contradiction
  · exact NumberFormat.kind_of_write_error hn

/-
  An array of numbers is written if the format can hold each
  of them, and is read as what the format leaves of each, in
  order. If it is refused, the error is that of the first
  number that cannot be held.
-/
theorem encode_quantises
    {f : NumberFormat}
    (hCanonical : f.form.IsCanonical)
    {ns : List Number}
    (hLength : ns.length * f.size < 2 ^ 32) :
    ((∃ bytes, encode f ns = .ok bytes) ↔
        ∀ n ∈ ns, f.form.Holds n) ∧
      (∀ bytes, encode f ns = .ok bytes →
        ∃ vs, decode f (payload bytes) = .ok vs ∧
          ∀ ws,
            Forall₂ (fun n v => f.form.Quantises n v) ns ws ↔
              ws = vs) ∧
      (∀ cause, encode f ns = .error cause →
        ∃ before n after, ns = before ++ n :: after ∧
          (∀ v ∈ before, f.form.Holds v) ∧
          ¬ f.form.Holds n ∧
          cause.kind = f.form.refusal n) := by
  have hFits : ns.length * f.size ≤ 0xffffffff :=
    Nat.le_of_lt_succ hLength
  refine ⟨?_, ?_, ?_⟩
  · rw [exists_encode_iff hFits, exists_writes_iff hCanonical]
  · intro bytes h
    rcases quantises_of_encode hCanonical h with
      ⟨vs, hDecode, hQuantises⟩
    refine ⟨vs, hDecode, fun ws => ?_⟩
    constructor
    · exact quantises_unique hQuantises
    · rintro rfl
      exact hQuantises
  · intro cause h
    exact refusal_of_encode hCanonical hFits h

/- At scale 1 three is held, and 1.75 is left as two. -/
theorem encode_quantises_two :
    encode ⟨.fixed32 1, .big⟩
        [.integer 3, .real ⟨0x3fe00000, 0⟩] =
      .ok #[149, 1, 0, 2, 0, 0, 0, 6, 0, 0, 0, 4] ∧
    (∀ n ∈ [Number.integer 3, .real ⟨0x3fe00000, 0⟩],
      NumberForm.Holds n (.fixed32 1)) ∧
    Forall₂ (fun n v => NumberForm.Quantises n v (.fixed32 1))
      [.integer 3, .real ⟨0x3fe00000, 0⟩]
      [.real ⟨0x40400000, 0⟩, .real ⟨0x40000000, 0⟩] := by
  have hEncode :
      encode ⟨.fixed32 1, .big⟩
          [.integer 3, .real ⟨0x3fe00000, 0⟩] =
        .ok #[149, 1, 0, 2, 0, 0, 0, 6, 0, 0, 0, 4] := by
    rfl
  have hLength :
      [Number.integer 3, .real ⟨0x3fe00000, 0⟩].length *
          NumberFormat.size ⟨.fixed32 1, .big⟩ < 2 ^ 32 := by
    decide
  rcases encode_quantises (by decide) hLength with
    ⟨hHolds, hRead, -⟩
  rcases hRead _ hEncode with ⟨vs, hDecode, hAlone⟩
  have hValues :
      [Number.real ⟨0x40400000, 0⟩, .real ⟨0x40000000, 0⟩] =
        vs := by
    exact Except.ok.inj hDecode
  subst hValues
  exact ⟨hEncode, hHolds.mp ⟨_, hEncode⟩,
    (hAlone _).mpr rfl⟩

end NumberArray

end PostScript
