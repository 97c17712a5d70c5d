import Mathlib.Data.List.Induction
import Mathlib.Tactic.IntervalCases
import Mathlib.Tactic.Ring
import PostScript.Proofs.ByteOrder
import PostScript.Proofs.StringBody.Base85

/-
  This file defines the standard encoding of bytes in base 85
  and shows that an encoding spells the bytes that it was made
  of. The digits of a last group that is not whole are cut
  from a number filled up with zeros, and they still spell its
  bytes when they are filled up with the greatest digit.

  Key definitions include:
    * `Base85.digitsOf`
    * `Base85.groupText`
    * `Base85.Encodes`

  Main results:
    * `Base85.filledValue_bounds`
    * `Base85.exists_encodes`
    * `Base85.Encodes.groups`
-/

namespace PostScript

namespace Base85

------------------------------------------------------------
-- Digits of Numbers
------------------------------------------------------------

/- The last `n` digits of a number, the highest first. -/
def digitsOf : Nat → Nat → List Nat
  | 0, _ => []
  | n + 1, v => digitsOf n (v / 85) ++ [v % 85]

/- The byte that stands for a digit. -/
def digitByte
    (d : Nat) : UInt8 :=
  UInt8.ofNat ('!'.toNat + d)

/- As many digits as asked for. -/
theorem length_digitsOf
    (n v : Nat) :
    (digitsOf n v).length = n := by
  induction n generalizing v with
  | zero => rfl
  | succ n ih => simp [digitsOf, ih]

/- All of them are digits. -/
theorem digitsOf_lt
    {n v d : Nat}
    (h : d ∈ digitsOf n v) :
    d < 85 := by
  induction n generalizing v with
  | zero => contradiction
  | succ n ih =>
      rcases List.mem_append.mp h with h | h
      · exact ih h
      · rw [List.mem_singleton.mp h]
        exact Nat.mod_lt v (by decide)

/- One more digit behind a number. -/
theorem valueOf_concat
    (digits : List Nat)
    (d : Nat) :
    valueOf (digits ++ [d]) = valueOf digits * 85 + d := by
  unfold valueOf
  rw [List.foldl_append]
  rfl

/- The digits of a number spell as much of it as they hold. -/
theorem valueOf_digitsOf
    (n v : Nat) :
    valueOf (digitsOf n v) = v % 85 ^ n := by
  induction n generalizing v with
  | zero => rw [pow_zero, Nat.mod_one]; rfl
  | succ n ih =>
      rw [digitsOf, valueOf_concat, ih, pow_succ',
        Nat.mod_mul]
      omega

/- The leading digits of a number are those of its quotient. -/
theorem take_digitsOf
    (n k v : Nat) :
    (digitsOf (n + k) v).take n = digitsOf n (v / 85 ^ k) := by
  induction k generalizing v with
  | zero =>
      rw [Nat.add_zero, pow_zero, Nat.div_one]
      exact List.take_of_length_le (length_digitsOf n v).le
  | succ k ih =>
      have hLength :
          n ≤ (digitsOf (n + k) (v / 85)).length := by
        rw [length_digitsOf]
        exact Nat.le_add_right n k
      rw [← Nat.add_assoc, digitsOf,
        List.take_append_of_le_length hLength, ih,
        Nat.div_div_eq_div_mul, pow_succ, Nat.mul_comm]

/- Filling up with the greatest digit adds all it can. -/
theorem valueOf_filled
    (digits : List Nat)
    (k : Nat) :
    valueOf (digits ++ List.replicate k 84) + 1 =
      (valueOf digits + 1) * 85 ^ k := by
  induction k with
  | zero => simp
  | succ k ih =>
      rw [List.replicate_succ', ← List.append_assoc,
        valueOf_concat, pow_succ, ← Nat.mul_assoc, ← ih]
      omega

/- The byte of a digit is read as this digit. -/
theorem digit?_digitByte
    {d : Nat}
    (h : d < 85) :
    digit? (digitByte d) = some d := by
  interval_cases d <;> rfl

/- The bytes of digits are read as these digits. -/
theorem digitsOf_map_digitByte
    {digits : List Nat}
    (h : ∀ d ∈ digits, d < 85) :
    DigitsOf (digits.map digitByte) digits := by
  unfold DigitsOf
  rw [List.map_map]
  apply List.map_congr_left
  intro d hd
  exact digit?_digitByte (h d hd)

------------------------------------------------------------
-- Encodings
------------------------------------------------------------

/- The number of up to four bytes filled up with zeros. -/
def groupValue
    (group : List UInt8) : Nat :=
  bigEndianValue
    (group ++ List.replicate (4 - group.length) 0)

/- Of its five digits, one more than there are bytes. -/
def groupDigits
    (group : List UInt8) : List Nat :=
  (digitsOf 5 (groupValue group)).take (group.length + 1)

/- The text of up to four bytes. -/
def groupText
    (group : List UInt8) : List UInt8 :=
  (groupDigits group).map digitByte

/-
  The encodings of a byte string. Four bytes at a time are
  written with five digits, and only the last group may have
  fewer. Four zeros may be written as `z`.
-/
inductive Encodes : List UInt8 → List UInt8 → Prop where
  | nil :
      Encodes [] []
  | zeros
      {rest bytes : List UInt8}
      (hRest : Encodes rest bytes) :
      Encodes (code 'z' :: rest) (0 :: 0 :: 0 :: 0 :: bytes)
  | full
      {group rest bytes : List UInt8}
      (hLength : group.length = 4)
      (hRest : Encodes rest bytes) :
      Encodes (groupText group ++ rest) (group ++ bytes)
  | short
      {group : List UInt8}
      (hLower : 1 ≤ group.length)
      (hUpper : group.length ≤ 3) :
      Encodes (groupText group) group

/- Every byte string has an encoding. -/
theorem exists_encodes
    (bytes : List UInt8) :
    ∃ text, Encodes text bytes := by
  match bytes with
  | [] => exact ⟨[], .nil⟩
  | [a] => exact ⟨groupText [a], .short (by simp) (by simp)⟩
  | [a, b] =>
      exact ⟨groupText [a, b], .short (by simp) (by simp)⟩
  | [a, b, c] =>
      exact ⟨groupText [a, b, c], .short (by simp) (by simp)⟩
  | a :: b :: c :: d :: rest =>
      rcases exists_encodes rest with ⟨text, hRest⟩
      exact ⟨groupText [a, b, c, d] ++ text, .full rfl hRest⟩

/- Zeros behind bytes move their number up. -/
theorem bigEndianValue_zeros
    (bytes : List UInt8)
    (k : Nat) :
    bigEndianValue (bytes ++ List.replicate k 0) =
      bigEndianValue bytes * 256 ^ k := by
  induction k with
  | zero => simp
  | succ k ih =>
      rw [List.replicate_succ', ← List.append_assoc,
        bigEndianValue_concat, ih, pow_succ, Nat.mul_assoc]
      rfl

/-
  The number that the digits of a group stand for when they
  are filled up again.
-/
def filledValue
    (group : List UInt8) : Nat :=
  valueOf
    (groupDigits group ++
      List.replicate (4 - group.length) 84)

/- The number of a group is that of its bytes, moved up. -/
theorem groupValue_eq
    (group : List UInt8) :
    groupValue group =
      bigEndianValue group * 256 ^ (4 - group.length) :=
  bigEndianValue_zeros group _

/- It takes 32 bits. -/
theorem groupValue_lt
    {group : List UInt8}
    (hLength : group.length ≤ 4) :
    groupValue group < 256 ^ 4 := by
  have hLess :=
    bigEndianValue_lt
      (group ++ List.replicate (4 - group.length) 0)
  rw [List.length_append, List.length_replicate,
    Nat.add_sub_cancel' hLength] at hLess
  exact hLess

/- A group has one digit more than it has bytes. -/
theorem length_groupDigits
    {group : List UInt8}
    (hLength : group.length ≤ 4) :
    (groupDigits group).length = group.length + 1 := by
  unfold groupDigits
  rw [List.length_take, length_digitsOf]
  omega

/-
  What was cut off is less than a unit of the last byte that
  is kept, because 85 is less than 256.
-/
theorem filledValue_bounds
    {group : List UInt8}
    (hLength : group.length ≤ 4) :
    groupValue group ≤ filledValue group ∧
      filledValue group <
        groupValue group + 256 ^ (4 - group.length) := by
  obtain ⟨k, hk⟩ : ∃ k, k = 4 - group.length := ⟨_, rfl⟩
  obtain ⟨v, hv⟩ : ∃ v, v = groupValue group := ⟨_, rfl⟩
  have hDigits :
      groupDigits group =
        digitsOf (group.length + 1) (v / 85 ^ k) := by
    have hFive : group.length + 1 + k = 5 := by omega
    rw [groupDigits, ← hv, ← hFive]
    exact take_digitsOf _ _ _
  have hLess : v / 85 ^ k < 85 ^ (group.length + 1) := by
    have hAll : v < 85 ^ (group.length + 1) * 85 ^ k := by
      rw [← pow_add, hv]
      have hFive : group.length + 1 + k = 5 := by omega
      rw [hFive]
      exact (groupValue_lt hLength).trans (by decide)
    exact Nat.div_lt_of_lt_mul (by rwa [Nat.mul_comm])
  have hFilled :
      filledValue group + 1 = (v / 85 ^ k + 1) * 85 ^ k := by
    rw [filledValue, hDigits, ← hk, valueOf_filled,
      valueOf_digitsOf, Nat.mod_eq_of_lt hLess]
  have hUnit : 85 ^ k ≤ 256 ^ k :=
    Nat.pow_le_pow_left (by decide) k
  have hLow := Nat.div_add_mod v (85 ^ k)
  have hRest := Nat.mod_lt v (Nat.pow_pos (n := k)
    (by decide : 0 < 85))
  rw [Nat.add_mul, Nat.one_mul, Nat.mul_comm] at hFilled
  rw [← hv, ← hk]
  omega

/- So the bytes that are kept are the same. -/
theorem take_filledValue
    {group : List UInt8}
    (hLength : group.length ≤ 4) :
    filledValue group ≤ 0xffffffff ∧
      (bigEndianBytes 4 (filledValue group)).take
        group.length = group := by
  rcases filledValue_bounds hLength with ⟨hLow, hHigh⟩
  have hBytes := bigEndianValue_lt group
  have hFour :
      256 ^ group.length * 256 ^ (4 - group.length) =
        256 ^ 4 := by
    rw [← pow_add, Nat.add_sub_cancel' hLength]
  have hUnit : 0 < 256 ^ (4 - group.length) :=
    Nat.pow_pos (by decide)
  rw [groupValue_eq] at hLow hHigh
  have hQuotient :
      filledValue group / 256 ^ (4 - group.length) =
        bigEndianValue group := by
    apply Nat.div_eq_of_lt_le hLow
    rw [Nat.add_mul, Nat.one_mul]
    exact hHigh
  constructor
  · have hNext :
        (bigEndianValue group + 1) *
            256 ^ (4 - group.length) ≤
          256 ^ 4 := by
      rw [← hFour]
      exact Nat.mul_le_mul_right _ hBytes
    rw [Nat.add_mul, Nat.one_mul] at hNext
    omega
  · have hSplit : 4 = group.length + (4 - group.length) :=
      (Nat.add_sub_cancel' hLength).symm
    calc (bigEndianBytes 4 (filledValue group)).take
            group.length
        = (bigEndianBytes
            (group.length + (4 - group.length))
            (filledValue group)).take group.length := by
          rw [← hSplit]
      _ = group := by
          rw [take_bigEndianBytes, hQuotient,
            bigEndianBytes_value]

/- The text of a group spells its digits. -/
theorem digitsOf_groupText
    (group : List UInt8) :
    DigitsOf (groupText group) (groupDigits group) :=
  digitsOf_map_digitByte
    (fun _ hd => digitsOf_lt (List.mem_of_mem_take hd))

/- It is one byte longer than the group. -/
theorem length_groupText
    {group : List UInt8}
    (hLength : group.length ≤ 4) :
    (groupText group).length = group.length + 1 := by
  rw [groupText, List.length_map, length_groupDigits hLength]

/- What encodes a byte string spells it. -/
theorem Encodes.groups
    {text bytes : List UInt8}
    (h : Encodes text bytes) :
    Groups text bytes := by
  induction h with
  | nil => exact .nil
  | zeros _ ih => exact .zeros ih
  | @full group rest bytes hLength _ ih =>
      rcases take_filledValue hLength.le with ⟨hValue, hBytes⟩
      have hWhole :
          filledValue group = valueOf (groupDigits group) := by
        rw [filledValue, hLength, Nat.sub_self,
          List.replicate_zero, List.append_nil]
      have hFive : (groupText group).length = 5 := by
        rw [length_groupText hLength.le, hLength]
      rw [hWhole] at hValue hBytes
      rw [List.take_of_length_le
        (by rw [length_bigEndianBytes, hLength])] at hBytes
      have hGroups :=
        Groups.full (digitsOf_groupText group) hFive hValue ih
      rwa [hBytes] at hGroups
  | @short group hLower hUpper =>
      have hLength : group.length ≤ 4 := by omega
      rcases take_filledValue hLength with ⟨hValue, hBytes⟩
      have hText := length_groupText hLength
      have hFill : 5 - (groupText group).length =
          4 - group.length := by
        omega
      have hGroups :=
        Groups.short (digitsOf_groupText group) (by omega)
          (by omega) (by rw [hFill]; exact hValue)
      rw [hFill, hText, Nat.add_sub_cancel] at hGroups
      rw [filledValue] at hBytes
      rwa [hBytes] at hGroups

end Base85

end PostScript
