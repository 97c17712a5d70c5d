import Mathlib.Tactic.IntervalCases
import PostScript.Proofs.NumberArray.Layout

/-
  This file shows what the byte of a number format tells. It
  names a format of the same size and order, whose scale is
  the greatest one there is where the scale is beyond it.

  Key definitions include:
    * `NumberForm.canonical`
    * `NumberForm.IsCanonical`
    * `NumberForm.Misstates`

  Main results:
    * `NumberFormat.ofByte?_byte`
    * `NumberFormat.ofByte?_byte_eq_some_iff`
    * `NumberArray.byte_canonical`
-/

namespace PostScript

------------------------------------------------------------
-- Canonical Forms
------------------------------------------------------------

namespace NumberForm

/- A scale, or the greatest one in its place. -/
def atMost
    (greatest : Nat)
    (scale : UInt8) : UInt8 :=
  UInt8.ofNat (min scale.toNat greatest)

/- The form that the number of a form stands for. -/
def canonical : NumberForm → NumberForm
  | fixed32 scale => fixed32 (atMost 31 scale)
  | fixed16 scale => fixed16 (atMost 15 scale)
  | ieee => ieee
  | native => native

/- Whether the scale is one that a byte can tell. -/
def IsCanonical : NumberForm → Prop
  | fixed32 scale => scale.toNat ≤ 31
  | fixed16 scale => scale.toNat ≤ 15
  | ieee | native => True

/-
  Whether numbers are written at another scale than the byte
  tells: they are multiplied by up to 2^31, while the byte of
  a 16-bit form tells 15 at most.
-/
def Misstates : NumberForm → Prop
  | fixed16 scale => 15 < scale.toNat
  | _ => False

/- The binary scale of a form. -/
def scale : NumberForm → Nat
  | fixed32 scale | fixed16 scale => scale.toNat
  | ieee | native => 0

instance
    (form : NumberForm) :
    Decidable form.IsCanonical := by
  cases form <;> unfold IsCanonical <;> infer_instance

instance
    (form : NumberForm) :
    Decidable form.Misstates := by
  cases form <;> unfold Misstates <;> infer_instance

/- The lesser scale is the lesser number. -/
@[simp] theorem toNat_atMost
    (greatest : Nat)
    (scale : UInt8) :
    (atMost greatest scale).toNat =
      min scale.toNat greatest := by
  have hScale := scale.toNat_lt
  unfold atMost
  rw [UInt8.toNat_ofNat']
  exact Nat.mod_eq_of_lt (by omega)

/- A scale up to the greatest one stays as it is. -/
theorem atMost_eq_self_iff
    (greatest : Nat)
    (scale : UInt8) :
    atMost greatest scale = scale ↔ scale.toNat ≤ greatest := by
  rw [← UInt8.toNat_inj, toNat_atMost]
  omega

/- A form that is canonical is its own canonical form. -/
theorem canonical_eq_self_iff
    (form : NumberForm) :
    form.canonical = form ↔ form.IsCanonical := by
  cases form with
  | fixed32 scale | fixed16 scale =>
      simp [canonical, IsCanonical, atMost_eq_self_iff]
  | ieee | native => simp [canonical, IsCanonical]

/- The number of a form stands for its canonical form. -/
theorem ofNat?_toNat
    (form : NumberForm) :
    ofNat? form.toNat = some form.canonical := by
  cases form with
  | fixed32 scale =>
      have hScale : min scale.toNat 31 < 32 := by omega
      simp only [toNat, ofNat?]
      exact if_pos hScale
  | fixed16 scale =>
      have hLow : ¬ 32 + min scale.toNat 15 < 32 := by omega
      have hHigh : 32 + min scale.toNat 15 < 48 := by omega
      simp only [toNat, ofNat?, if_neg hLow, if_pos hHigh,
        Nat.add_sub_cancel_left]
      rfl
  | ieee | native => rfl

/- It leaves the high bit of a byte free. -/
theorem toNat_lt
    (form : NumberForm) :
    form.toNat < 128 := by
  cases form with
  | fixed32 scale | fixed16 scale =>
      simp only [toNat]
      omega
  | ieee | native => decide

end NumberForm

namespace NumberFormat

/- The format with the canonical form. -/
def canonical
    (f : NumberFormat) : NumberFormat :=
  ⟨f.form.canonical, f.order⟩

/- The byte of a format stands for its canonical format. -/
theorem ofByte?_byte
    (f : NumberFormat) :
    ofByte? f.byte = some f.canonical := by
  have hForm := f.form.toNat_lt
  unfold ofByte? byte
  cases hOrder : f.order with
  | big =>
      have hByte :
          (UInt8.ofNat f.form.toNat).toNat = f.form.toNat := by
        rw [UInt8.toNat_ofNat']
        omega
      have hHigh : UInt8.ofNat f.form.toNat < 128 := by
        rw [UInt8.lt_iff_toNat_lt, hByte]
        exact hForm
      dsimp only
      rw [hByte, Nat.mod_eq_of_lt hForm, f.form.ofNat?_toNat,
        Option.map_some, if_pos hHigh]
      unfold canonical
      rw [hOrder]
  | little =>
      have hByte :
          (UInt8.ofNat (f.form.toNat + 128)).toNat =
            f.form.toNat + 128 := by
        rw [UInt8.toNat_ofNat']
        omega
      have hHigh : ¬ UInt8.ofNat (f.form.toNat + 128) < 128 := by
        rw [UInt8.lt_iff_toNat_lt, hByte]
        exact Nat.not_lt.mpr (Nat.le_add_left 128 _)
      dsimp only
      rw [hByte, Nat.add_mod_right, Nat.mod_eq_of_lt hForm,
        f.form.ofNat?_toNat, Option.map_some, if_neg hHigh]
      unfold canonical
      rw [hOrder]

/- It stands for the format itself if that is canonical. -/
theorem ofByte?_byte_eq_some_iff
    (f : NumberFormat) :
    ofByte? f.byte = some f ↔ f.form.IsCanonical := by
  rw [ofByte?_byte, ← f.form.canonical_eq_self_iff,
    Option.some.injEq]
  unfold canonical
  constructor
  · intro h
    exact congrArg form h
  · intro h
    rw [h]

/- A canonical form takes as many bytes. -/
theorem size_canonical
    (f : NumberFormat) :
    f.canonical.size = f.size := by
  rcases f with ⟨form, order⟩
  cases form <;> rfl

/- It has the same number, and so the same byte. -/
theorem byte_canonical_eq
    (f : NumberFormat) :
    f.canonical.byte = f.byte := by
  have hForm : f.form.canonical.toNat = f.form.toNat := by
    cases f.form with
    | fixed32 scale | fixed16 scale =>
        simp only [NumberForm.canonical, NumberForm.toNat,
          NumberForm.toNat_atMost]
        omega
    | ieee | native => rfl
  unfold byte canonical
  dsimp only
  rw [hForm]

/- A mantissa depends on no scale beyond the greatest. -/
theorem mantissa_atMost
    (n : Number)
    (scale : UInt8)
    (bits : Nat) :
    mantissa n (NumberForm.atMost 31 scale) bits =
      mantissa n scale bits := by
  have hScale :
      min (NumberForm.atMost 31 scale).toNat greatestScale =
        min scale.toNat greatestScale := by
    rw [NumberForm.toNat_atMost, greatestScale]
    omega
  unfold mantissa scaled
  rw [hScale]

/- Numbers are written as in the canonical form. -/
theorem write_canonical
    {f : NumberFormat}
    (h : ¬ f.form.Misstates)
    (n : Number) :
    f.canonical.write n = f.write n := by
  rcases f with ⟨form, order⟩
  cases form with
  | fixed32 scale =>
      unfold canonical NumberForm.canonical
      rw [write_fixed32, write_fixed32, mantissa_atMost]
  | fixed16 scale =>
      have hSame : NumberForm.atMost 15 scale = scale :=
        (NumberForm.atMost_eq_self_iff 15 scale).mpr
          (Nat.not_lt.mp h)
      unfold canonical NumberForm.canonical
      dsimp only
      rw [hSame]
  | ieee | native => rfl

/- A canonical format is its own canonical format. -/
theorem canonical_eq_self
    {f : NumberFormat}
    (h : f.form.IsCanonical) :
    f.canonical = f := by
  have hForm := f.form.canonical_eq_self_iff.mpr h
  unfold canonical
  rw [hForm]

end NumberFormat

------------------------------------------------------------
-- Arrays
------------------------------------------------------------

namespace NumberArray

/- Arrays are alike in formats that write each number alike. -/
theorem writeAfter_congr
    {f g : NumberFormat}
    (h : ∀ n, f.write n = g.write n)
    (out : Bytes)
    (ns : List Number) :
    writeAfter f out ns = writeAfter g out ns := by
  induction ns generalizing out with
  | nil => rfl
  | cons n ns ih =>
      unfold writeAfter
      rw [h]
      split
      · exact ih _
      · rfl

/- The canonical format has the same heading. -/
theorem heading_canonical
    (f : NumberFormat)
    (count : Nat) :
    heading f.canonical count = heading f count := by
  unfold heading
  rw [f.size_canonical, f.byte_canonical_eq]
  rfl

/- A single number of an array is written as it is alone. -/
theorem write_eq_of_encode_eq
    {f g : NumberFormat}
    {n : Number}
    (hHeading : heading f 1 = heading g 1)
    (h : encode f [n] = encode g [n]) :
    f.write n = g.write n := by
  have hShort :
      heading g 1 =
        .ok (shortToken :: g.byte :: g.order.bytes 2 1) := rfl
  simp only [encode, List.length_singleton, hHeading, hShort,
    writeAfter] at h
  cases hf : f.write n with
  | error cause =>
      cases hg : g.write n with
      | error cause' =>
          rw [hf, hg] at h
          cases h
          rfl
      | ok part =>
          rw [hf, hg] at h
          contradiction
  | ok part =>
      cases hg : g.write n with
      | error cause' =>
          rw [hf, hg] at h
          contradiction
      | ok part' =>
          rw [hf, hg] at h
          simpa using h

/- A quarter. -/
def quarter : Number :=
  .real ⟨0x3e800000, 0⟩

/-
  At scale 16 a quarter is twice as much as at scale 15, and
  above that it does not fit 16 bits.
-/
theorem mantissa_quarter
    {scale : UInt8}
    (h : 15 < scale.toNat) :
    NumberFormat.mantissa quarter scale 16 = .ok 0x4000 ∨
      NumberFormat.mantissa quarter scale 16 =
        .error .doesNotFit := by
  have hLow : 16 ≤ min scale.toNat 31 := by omega
  have hHigh : min scale.toNat 31 ≤ 31 := by omega
  unfold NumberFormat.mantissa NumberFormat.scaled
    NumberFormat.greatestScale
  generalize min scale.toNat 31 = k at hLow hHigh
  rcases Nat.eq_or_lt_of_le hLow with rfl | hMore
  · exact .inl rfl
  · right
    interval_cases k <;> rfl

/- So it is not written as at scale 15. -/
theorem write_quarter_ne
    (order : ByteOrder)
    {scale : UInt8}
    (h : 15 < scale.toNat) :
    NumberFormat.write ⟨.fixed16 scale, order⟩ quarter ≠
      NumberFormat.write ⟨.fixed16 15, order⟩ quarter := by
  have hFifteen :
      NumberFormat.mantissa quarter 15 16 = .ok 0x2000 := rfl
  rw [NumberFormat.write_fixed16, NumberFormat.write_fixed16,
    hFifteen]
  rcases mantissa_quarter h with hTwice | hTooMuch
  · rw [hTwice]
    cases order <;> decide
  · rw [hTooMuch]
    exact nofun

/-
  Arrays are written as in the canonical format unless the
  byte of the format misstates the scale.
-/
theorem encode_canonical_iff
    (f : NumberFormat) :
    (∀ ns, encode f ns = encode f.canonical ns) ↔
      ¬ f.form.Misstates := by
  constructor
  · intro hAlike hMisstates
    rcases f with ⟨form, order⟩
    cases form with
    | fixed16 scale =>
        have hScale : NumberForm.atMost 15 scale = 15 := by
          rw [← UInt8.toNat_inj, NumberForm.toNat_atMost]
          exact Nat.min_eq_right (Nat.le_of_lt hMisstates)
        have hWrite :=
          write_eq_of_encode_eq (heading_canonical _ 1).symm
            (hAlike [quarter])
        unfold NumberFormat.canonical NumberForm.canonical
          at hWrite
        dsimp only at hWrite
        rw [hScale] at hWrite
        exact write_quarter_ne order hMisstates hWrite
    | fixed32 _ | ieee | native => exact hMisstates
  · intro h ns
    unfold encode
    rw [heading_canonical]
    split
    · exact writeAfter_congr
        (fun n => (NumberFormat.write_canonical h n).symm) _ ns
    · rfl

/- The word 0x4000 is a quarter at scale 16. -/
theorem decode_word
    (order : ByteOrder)
    (scale : UInt8) :
    decode ⟨.fixed16 scale, order⟩
        (order.bytes16 0x4000).toArray =
      .ok [NumberFormat.scaledNumber 0x4000 scale] := by
  have hParts :
      ∀ part ∈ [order.bytes16 0x4000],
        part.length =
          NumberFormat.size ⟨.fixed16 scale, order⟩ :=
    List.forall_mem_singleton.mpr (order.length_bytes 2 _)
  have hRead :
      NumberFormat.read ⟨.fixed16 scale, order⟩
          (order.bytes16 0x4000) =
        .ok (NumberFormat.scaledNumber 0x4000 scale) :=
    NumberFormat.read_bytes16 order scale 0x4000
  have hDecode :=
    (decode_flatten_iff hParts).mpr (.cons hRead .nil)
  rw [List.flatten_singleton] at hDecode
  exact hDecode

/- At a scale above 15 it is another number. -/
theorem scaledNumber_ne
    {scale : UInt8}
    (hLow : 15 < scale.toNat)
    (hHigh : scale.toNat < 32) :
    NumberFormat.scaledNumber 0x4000 scale ≠
      NumberFormat.scaledNumber 0x4000 15 := by
  have hSome : scale ≠ 0 := by
    rintro rfl
    contradiction
  unfold NumberFormat.scaledNumber
  rw [if_neg hSome, if_neg (by decide)]
  intro hSame
  have hBits :
      FixedPoint.toSingle ⟨0x4000, scale.toNat⟩ =
        FixedPoint.toSingle ⟨0x4000, 15⟩ := by
    injection hSame with hSame
    injection hSame
  revert hBits
  generalize scale.toNat = k at hLow hHigh
  interval_cases k <;> decide

/-
  Arrays are read as in the canonical format unless the byte
  misstates the scale. The scale must be one that a word of 32
  bits can be shifted by.
-/
theorem decode_canonical_iff
    {f : NumberFormat}
    (hScale : f.form.scale < 32) :
    (∀ data, decode f data = decode f.canonical data) ↔
      ¬ f.form.Misstates := by
  constructor
  · intro hAlike hMisstates
    rcases f with ⟨form, order⟩
    cases form with
    | fixed16 scale =>
        have hCanonical : NumberForm.atMost 15 scale = 15 := by
          rw [← UInt8.toNat_inj, NumberForm.toNat_atMost]
          exact Nat.min_eq_right (Nat.le_of_lt hMisstates)
        have hRead := hAlike (order.bytes16 0x4000).toArray
        unfold NumberFormat.canonical NumberForm.canonical
          at hRead
        dsimp only at hRead
        rw [hCanonical, decode_word, decode_word,
          Except.ok.injEq, List.cons.injEq] at hRead
        exact scaledNumber_ne hMisstates hScale hRead.1
    | fixed32 _ | ieee | native => exact hMisstates
  · intro h data
    have hCanonical : f.form.IsCanonical := by
      cases hForm : f.form with
      | fixed32 scale =>
          rw [hForm] at hScale
          exact Nat.le_of_lt_succ hScale
      | fixed16 scale =>
          rw [hForm] at h
          exact Nat.not_lt.mp h
      | ieee | native => exact trivial
    rw [NumberFormat.canonical_eq_self hCanonical]

/-
  The byte of a format stands for a canonical format with
  numbers of the same size. Arrays are written alike in both,
  and read alike where the scale is one that can be shifted
  by, but for the 16-bit forms with a scale above 15, whose
  byte tells another scale than the numbers have.
-/
theorem byte_canonical
    (f : NumberFormat) :
    NumberFormat.ofByte? f.byte = some f.canonical ∧
      f.canonical.size = f.size ∧
      ((∀ ns, encode f ns = encode f.canonical ns) ↔
        ¬ f.form.Misstates) ∧
      (f.form.scale < 32 →
        ((∀ data, decode f data = decode f.canonical data) ↔
          ¬ f.form.Misstates)) :=
  ⟨f.ofByte?_byte, f.size_canonical, encode_canonical_iff f,
    decode_canonical_iff⟩

/-
  At scale 16 the byte tells scale 15, but a quarter is
  written, and its bytes are read, in another way than there.
-/
theorem byte_misstates_scale :
    NumberFormat.ofByte?
        (NumberFormat.byte ⟨.fixed16 16, .big⟩) =
      some ⟨.fixed16 15, .big⟩ ∧
    encode ⟨.fixed16 16, .big⟩ [quarter] =
      .ok #[149, 47, 0, 1, 64, 0] ∧
    encode ⟨.fixed16 15, .big⟩ [quarter] =
      .ok #[149, 47, 0, 1, 32, 0] ∧
    decode ⟨.fixed16 16, .big⟩ #[64, 0] = .ok [quarter] ∧
    decode ⟨.fixed16 15, .big⟩ #[64, 0] =
      .ok [.real ⟨0x3f000000, 0⟩] :=
  ⟨rfl, rfl, rfl, rfl, rfl⟩

end NumberArray

end PostScript
