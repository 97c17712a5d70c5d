import Mathlib.Data.List.Forall2
import PostScript.NumberArray
import PostScript.Proofs.Run

/-
  This file shows how the numbers of an array lie in bytes: a
  token is a heading in front of the bytes of each number, and
  reading takes the bytes apart at the same places.

  Key definitions include:
    * `NumberArray.pieces`
    * `NumberArray.payload`

  Main results:
    * `NumberArray.decode_eq_ok_iff`
    * `NumberArray.encode_eq_ok_iff`
    * `NumberArray.exists_encode_iff`
    * `NumberArray.encode_eq_error`
    * `NumberArray.decode_payload_iff`
-/

namespace PostScript

open List (Forall₂)

namespace NumberFormat

/- Numbers take two or four bytes. -/
theorem size_pos
    (f : NumberFormat) :
    0 < f.size := by
  unfold size NumberForm.size
  split <;> decide

/- A number in fixed point is written as its mantissa. -/
theorem write_fixed32
    (order : ByteOrder)
    (n : Number)
    (scale : UInt8) :
    write ⟨.fixed32 scale, order⟩ n =
      (mantissa n scale 32).map (fun v =>
        order.bytes32 (Int32.ofInt v).toUInt32) := by
  unfold write
  dsimp only
  cases mantissa n scale 32 <;> rfl

theorem write_fixed16
    (order : ByteOrder)
    (n : Number)
    (scale : UInt8) :
    write ⟨.fixed16 scale, order⟩ n =
      (mantissa n scale 16).map (fun v =>
        order.bytes16 (Int16.ofInt v).toUInt16) := by
  unfold write
  dsimp only
  cases mantissa n scale 16 <;> rfl

/- The bytes of a mantissa are read as its number. -/
theorem read_bytes32
    (order : ByteOrder)
    (scale : UInt8)
    (v : Int32) :
    read ⟨.fixed32 scale, order⟩
        (order.bytes32 v.toUInt32) =
      .ok (scaledNumber v scale) := by
  unfold read
  dsimp only
  rw [order.word32_bytes32]
  rfl

theorem read_bytes16
    (order : ByteOrder)
    (scale : UInt8)
    (v : Int16) :
    read ⟨.fixed16 scale, order⟩
        (order.bytes16 v.toUInt16) =
      .ok (scaledNumber v.toInt32 scale) := by
  unfold read
  dsimp only
  rw [order.word16_bytes16]
  rfl

/- A number that is written takes the bytes of its form. -/
theorem length_write
    {f : NumberFormat}
    {n : Number}
    {bytes : List UInt8}
    (h : f.write n = .ok bytes) :
    bytes.length = f.size := by
  rcases f with ⟨form, order⟩
  cases form with
  | fixed32 scale =>
      rw [write_fixed32] at h
      rcases of_map_ok h with ⟨v, -, rfl⟩
      exact order.length_bytes 4 _
  | fixed16 scale =>
      rw [write_fixed16] at h
      rcases of_map_ok h with ⟨v, -, rfl⟩
      exact order.length_bytes 2 _
  | ieee | native =>
      unfold write at h
      dsimp only at h
      split at h
      · cases h
        exact order.length_bytes 4 _
      · contradiction

end NumberFormat

namespace NumberArray

------------------------------------------------------------
-- Pieces
------------------------------------------------------------

/- The bytes of `n` numbers, one after the other. -/
def pieces
    (size : Nat) : Nat → List UInt8 → List (List UInt8)
  | 0, _ => []
  | n + 1, bytes =>
      bytes.take size :: pieces size n (bytes.drop size)

/- Bytes that were put together are taken apart again. -/
theorem pieces_flatten
    {size : Nat}
    {parts : List (List UInt8)}
    (h : ∀ part ∈ parts, part.length = size) :
    pieces size parts.length parts.flatten = parts := by
  induction parts with
  | nil => rfl
  | cons part parts ih =>
      have hFirst := h part List.mem_cons_self
      have hRest :=
        ih (fun p hp => h p (List.mem_cons_of_mem part hp))
      rw [List.length_cons, List.flatten_cons, pieces,
        List.take_left' hFirst, List.drop_left' hFirst, hRest]

/- There are as many pieces as numbers. -/
theorem length_pieces
    (size n : Nat)
    (bytes : List UInt8) :
    (pieces size n bytes).length = n := by
  induction n generalizing bytes with
  | zero => rfl
  | succ n ih => simp [pieces, ih]

/- The length of pieces of one size that are put together. -/
theorem length_flatten
    {size : Nat}
    {parts : List (List UInt8)}
    (h : ∀ part ∈ parts, part.length = size) :
    parts.flatten.length = parts.length * size := by
  induction parts with
  | nil => simp
  | cons part parts ih =>
      have hFirst := h part List.mem_cons_self
      have hRest :=
        ih (fun p hp => h p (List.mem_cons_of_mem part hp))
      rw [List.flatten_cons, List.length_append, hFirst, hRest,
        List.length_cons, Nat.succ_mul, Nat.add_comm]

------------------------------------------------------------
-- Reading
------------------------------------------------------------

/- Numbers are read if each of their pieces is. -/
theorem decodeAfter_eq_ok_iff
    {f : NumberFormat}
    {numbers : Array Number}
    {n : Nat}
    {bytes : List UInt8}
    {vs : List Number} :
    decodeAfter f numbers n bytes = .ok vs ↔
      ∃ more, vs = numbers.toList ++ more ∧
        Forall₂ (fun piece v => f.read piece = .ok v)
          (pieces f.size n bytes) more := by
  induction n generalizing numbers bytes with
  | zero =>
      simp only [decodeAfter, pieces, List.forall₂_nil_left_iff,
        exists_eq_right, List.append_nil, Except.ok.injEq]
      exact eq_comm
  | succ n ih =>
      unfold decodeAfter pieces
      cases hRead : f.read (bytes.take f.size) with
      | error cause =>
          simp only [List.forall₂_cons_left_iff, hRead]
          simp
      | ok v =>
          simp only [ih, List.forall₂_cons_left_iff, hRead,
            Except.ok.injEq, Array.toList_push,
            List.append_assoc, List.singleton_append]
          constructor
          · rintro ⟨more, rfl, hMore⟩
            exact ⟨v :: more, rfl, v, more, rfl, hMore, rfl⟩
          · rintro ⟨-, rfl, -, more, rfl, hMore, rfl⟩
            exact ⟨more, rfl, hMore⟩

/- The same for all numbers of an array. -/
theorem decode_eq_ok_iff
    {f : NumberFormat}
    {data : Bytes}
    {vs : List Number} :
    decode f data = .ok vs ↔
      data.size % f.size = 0 ∧
        Forall₂ (fun piece v => f.read piece = .ok v)
          (pieces f.size (data.size / f.size) data.toList)
          vs := by
  unfold decode
  split
  next hRagged => simp [hRagged]
  next hWhole =>
    simp [decodeAfter_eq_ok_iff, Nat.eq_zero_of_not_pos
      (fun h => hWhole (Nat.pos_iff_ne_zero.mp h))]

/- An array has as many numbers as pieces. -/
theorem length_decode
    {f : NumberFormat}
    {data : Bytes}
    {vs : List Number}
    (h : decode f data = .ok vs) :
    vs.length = data.size / f.size := by
  rw [← (decode_eq_ok_iff.mp h).2.length_eq, length_pieces]

/- Numbers are read where they were put together. -/
theorem decode_flatten_iff
    {f : NumberFormat}
    {parts : List (List UInt8)}
    (hParts : ∀ part ∈ parts, part.length = f.size)
    {vs : List Number} :
    decode f parts.flatten.toArray = .ok vs ↔
      Forall₂ (fun part v => f.read part = .ok v) parts vs :=
    by
  have hLength := length_flatten hParts
  rw [decode_eq_ok_iff, List.size_toArray, hLength,
    Nat.mul_mod_left, Nat.mul_div_cancel _ f.size_pos,
    pieces_flatten hParts]
  simp

------------------------------------------------------------
-- Writing
------------------------------------------------------------

/- Numbers that are written take bytes of one size. -/
theorem length_of_write
    {f : NumberFormat}
    {ns : List Number}
    {parts : List (List UInt8)}
    (h : Forall₂ (fun n part => f.write n = .ok part)
      ns parts) :
    ∀ part ∈ parts, part.length = f.size := by
  induction h with
  | nil => exact nofun
  | cons hWrite _ ih =>
      exact List.forall_mem_cons.mpr
        ⟨NumberFormat.length_write hWrite, ih⟩

/- Numbers are written if each of them is. -/
theorem writeAfter_eq_ok_iff
    {f : NumberFormat}
    {out bytes : Bytes}
    {ns : List Number} :
    writeAfter f out ns = .ok bytes ↔
      ∃ parts, bytes = out ++ parts.flatten.toArray ∧
        Forall₂ (fun n part => f.write n = .ok part)
          ns parts := by
  induction ns generalizing out with
  | nil =>
      simp only [writeAfter, List.forall₂_nil_left_iff,
        exists_eq_right, List.flatten_nil, Except.ok.injEq,
        Array.append_empty]
      exact eq_comm
  | cons n ns ih =>
      unfold writeAfter
      cases hWrite : f.write n with
      | error cause =>
          simp only [List.forall₂_cons_left_iff, hWrite]
          simp
      | ok part =>
          simp only [ih, List.forall₂_cons_left_iff, hWrite,
            Except.ok.injEq]
          constructor
          · rintro ⟨parts, rfl, hParts⟩
            refine ⟨part :: parts, ?_, part, parts, rfl,
              hParts, rfl⟩
            apply Array.toList_inj.mp
            simp
          · rintro ⟨-, rfl, -, parts, rfl, hParts, rfl⟩
            refine ⟨parts, ?_, hParts⟩
            apply Array.toList_inj.mp
            simp

/- If they are not, the first that is not is the cause. -/
theorem writeAfter_eq_error
    {f : NumberFormat}
    {out : Bytes}
    {ns : List Number}
    {cause : Cause}
    (h : writeAfter f out ns = .error cause) :
    ∃ before n after, ns = before ++ n :: after ∧
      (∀ v ∈ before, ∃ part, f.write v = .ok part) ∧
      f.write n = .error cause := by
  induction ns generalizing out with
  | nil => contradiction
  | cons n ns ih =>
      unfold writeAfter at h
      cases hWrite : f.write n with
      | error cause' =>
          rw [hWrite] at h
          cases h
          exact ⟨[], n, ns, rfl, by simp, hWrite⟩
      | ok part =>
          rw [hWrite] at h
          rcases ih h with ⟨before, n', after, rfl, hBefore, hn⟩
          refine ⟨n :: before, n', after, rfl, ?_, hn⟩
          intro v hv
          rcases List.mem_cons.mp hv with rfl | hv
          · exact ⟨part, hWrite⟩
          · exact hBefore v hv

/- What stands in front of the numbers, if they fit. -/
theorem heading_eq_ok
    {f : NumberFormat}
    {count : Nat}
    {head : List UInt8}
    (h : heading f count = .ok head) :
    (count ≤ 0xffff ∧
        head = shortToken :: f.byte :: f.order.bytes 2 count) ∨
      (0xffff < count ∧ count * f.size ≤ 0xffffffff ∧
        head =
          longToken :: f.byte ::
            f.order.bytes 4 (count * f.size)) := by
  unfold heading at h
  split at h
  next hShort =>
    cases h
    exact .inl ⟨hShort, rfl⟩
  next hLong =>
    split at h
    next hFits =>
      cases h
      exact .inr ⟨by omega, hFits, rfl⟩
    next => contradiction

/- Numbers of less than 2^32 bytes fit. -/
theorem exists_heading
    {f : NumberFormat}
    {count : Nat}
    (h : count * f.size ≤ 0xffffffff) :
    ∃ head, heading f count = .ok head := by
  unfold heading
  split
  · exact ⟨_, rfl⟩
  · exact ⟨_, rfl⟩

/- A token is a heading in front of its numbers. -/
theorem encode_eq_ok_iff
    {f : NumberFormat}
    {ns : List Number}
    {bytes : Bytes} :
    encode f ns = .ok bytes ↔
      ∃ head parts, heading f ns.length = .ok head ∧
        Forall₂ (fun n part => f.write n = .ok part) ns parts ∧
        bytes = (head ++ parts.flatten).toArray := by
  unfold encode
  cases heading f ns.length with
  | error cause => simp
  | ok head =>
      simp only [writeAfter_eq_ok_iff, Except.ok.injEq,
        List.append_toArray]
      constructor
      · rintro ⟨parts, hBytes, hParts⟩
        exact ⟨head, parts, rfl, hParts, hBytes⟩
      · rintro ⟨head', parts, rfl, hParts, hBytes⟩
        exact ⟨parts, hBytes, hParts⟩

/- Numbers that fit are written if each of them is. -/
theorem exists_encode_iff
    {f : NumberFormat}
    {ns : List Number}
    (hLength : ns.length * f.size ≤ 0xffffffff) :
    (∃ bytes, encode f ns = .ok bytes) ↔
      ∃ parts, Forall₂ (fun n part => f.write n = .ok part)
        ns parts := by
  constructor
  · rintro ⟨bytes, h⟩
    rcases encode_eq_ok_iff.mp h with ⟨-, parts, -, hParts, -⟩
    exact ⟨parts, hParts⟩
  · rintro ⟨parts, hParts⟩
    rcases exists_heading hLength with ⟨head, hHead⟩
    exact ⟨_, encode_eq_ok_iff.mpr
      ⟨head, parts, hHead, hParts, rfl⟩⟩

/- If numbers that fit are not written, one of them is not. -/
theorem encode_eq_error
    {f : NumberFormat}
    {ns : List Number}
    {cause : Cause}
    (hLength : ns.length * f.size ≤ 0xffffffff)
    (h : encode f ns = .error cause) :
    ∃ before n after, ns = before ++ n :: after ∧
      (∀ v ∈ before, ∃ part, f.write v = .ok part) ∧
      f.write n = .error cause := by
  rcases exists_heading hLength with ⟨head, hHead⟩
  unfold encode at h
  rw [hHead] at h
  exact writeAfter_eq_error h

------------------------------------------------------------
-- Payloads
------------------------------------------------------------

/- What follows the four or six bytes of the heading. -/
def payload
    (bytes : Bytes) : Bytes :=
  if bytes[0]? = some shortToken then
    bytes.extract 4 bytes.size
  else
    bytes.extract 6 bytes.size

/- The payload of a token is the bytes of its numbers. -/
theorem payload_eq
    {f : NumberFormat}
    {count : Nat}
    {head : List UInt8}
    (hHead : heading f count = .ok head)
    (body : List UInt8) :
    payload (head ++ body).toArray = body.toArray := by
  unfold payload
  rcases heading_eq_ok hHead with
    ⟨-, rfl⟩ | ⟨-, -, rfl⟩
  · have hLength := f.order.length_bytes 2 count
    rw [if_pos (by simp)]
    simp [hLength]
  · have hLength := f.order.length_bytes 4 (count * f.size)
    rw [if_neg (by simp [shortToken, longToken])]
    simp [hLength]

/-
  The payload of numbers that are written is read piece by
  piece, as the numbers were written.
-/
theorem decode_payload_iff
    {f : NumberFormat}
    {ns : List Number}
    {head : List UInt8}
    {parts : List (List UInt8)}
    (hHead : heading f ns.length = .ok head)
    (hParts : Forall₂ (fun n part => f.write n = .ok part)
      ns parts)
    {vs : List Number} :
    decode f (payload (head ++ parts.flatten).toArray) =
        .ok vs ↔
      Forall₂ (fun part v => f.read part = .ok v) parts vs := by
  rw [payload_eq hHead]
  exact decode_flatten_iff (length_of_write hParts)

end NumberArray

end PostScript
