import PostScript.Proofs.Source.Trail
import PostScript.Source.Reader

/-
  This file says what the count of lines is worth. A reader
  counts the line breaks of the bytes that it has read, where
  a carriage return and a line feed behind it are one, and the
  sign of the count tells whether the last byte was a carriage
  return. No byte that is pushed back disturbs this.

  Key definitions include:
    * `withoutFeed`
    * `lineBreaks`
    * `Reader.HasRead`

  Main results:
    * `LineCount.natAbs_count`
    * `LineCount.count_neg_iff`
    * `Reader.HasRead.next`
    * `Reader.HasRead.back`
    * `Reader.HasRead.line_eq`
    * `Reader.HasRead.neg_iff`
-/

namespace PostScript

open ByteSource

------------------------------------------------------------
-- Line Breaks
------------------------------------------------------------

/- A text without the line feed that it may begin with. -/
def withoutFeed : List UInt8 → List UInt8
  | [] => []
  | b :: rest => if b == 0x0a then rest else b :: rest

/- The line breaks of a text: CR, LF, or both together. -/
def lineBreaks : List UInt8 → Nat
  | [] => 0
  | 0x0d :: 0x0a :: rest => lineBreaks rest + 1
  | b :: rest =>
      lineBreaks rest + (if isEndOfLine b then 1 else 0)

/- A carriage return takes a line feed behind it with it. -/
theorem lineBreaks_return
    (rest : List UInt8) :
    lineBreaks (0x0d :: rest) =
      lineBreaks (withoutFeed rest) + 1 := by
  cases rest with
  | nil => rfl
  | cons b rest =>
      by_cases hFeed : b = 0x0a
      · subst hFeed
        rfl
      · rw [withoutFeed, if_neg (by simpa using hFeed),
          lineBreaks]
        · rfl
        · simpa using hFeed

/- A line feed that is left is one of its own. -/
theorem lineBreaks_feed
    (rest : List UInt8) :
    lineBreaks (0x0a :: rest) = lineBreaks rest + 1 :=
  rfl

/- No other byte breaks a line. -/
theorem lineBreaks_other
    {b : UInt8}
    (hReturn : b ≠ 0x0d)
    (hFeed : b ≠ 0x0a)
    (rest : List UInt8) :
    lineBreaks (b :: rest) = lineBreaks rest := by
  rw [lineBreaks]
  · simp [isEndOfLine, hReturn, hFeed]
  · simp [hReturn]

namespace LineCount

/- The count behind a text. -/
def count
    (line : Int)
    (text : List UInt8) : Int :=
  text.foldl after line

/-
  Its size grows by one with every line break, where a count
  that is negative has a carriage return before the text.
-/
theorem natAbs_count
    (line : Int)
    (text : List UInt8) :
    (count line text).natAbs =
      line.natAbs +
        lineBreaks
          (if line < 0 then withoutFeed text else text) := by
  induction text generalizing line with
  | nil => simp [count, withoutFeed, lineBreaks]
  | cons b rest ih =>
      change (count (after line b) rest).natAbs = _
      rw [ih (after line b)]
      by_cases hReturn : b = 0x0d
      · subst hReturn
        have hAfter : after line 0x0d = -(line.natAbs + 1) :=
          rfl
        have hKept : withoutFeed (0x0d :: rest) = 0x0d :: rest :=
          rfl
        rw [hAfter, hKept, ite_self, lineBreaks_return,
          if_pos (by omega)]
        omega
      by_cases hFeed : b = 0x0a
      · subst hFeed
        by_cases hLine : line < 0
        · have hAfter : after line 0x0a = -line := if_pos hLine
          rw [hAfter, if_neg (by omega), if_pos hLine,
            Int.natAbs_neg]
          rfl
        · have hAfter : after line 0x0a = line + 1 :=
            if_neg hLine
          rw [hAfter, if_neg (by omega), if_neg hLine,
            lineBreaks_feed]
          omega
      · have hAfter : after line b = line.natAbs := by
          simp [after, hReturn, hFeed]
        have hKept : withoutFeed (b :: rest) = b :: rest := by
          simp [withoutFeed, hFeed]
        rw [hAfter, hKept, ite_self,
          lineBreaks_other hReturn hFeed, if_neg (by omega),
          Int.natAbs_natCast]

/- It is negative right behind a carriage return. -/
theorem after_neg_iff
    (line : Int)
    (b : UInt8) :
    after line b < 0 ↔ b = 0x0d := by
  by_cases hReturn : b = 0x0d
  · subst hReturn
    have hAfter : after line 0x0d = -(line.natAbs + 1) := rfl
    rw [hAfter]
    exact iff_of_true (by omega) rfl
  · unfold after
    simp only [beq_iff_eq, hReturn, if_false, iff_false]
    split
    · split <;> omega
    · omega

theorem count_neg_iff
    (line : Int)
    {text : List UInt8}
    (hText : text ≠ []) :
    count line text < 0 ↔ text.getLast? = some 0x0d := by
  rcases List.eq_nil_or_concat text with rfl | ⟨init, b, rfl⟩
  · exact absurd rfl hText
  · rw [count, List.concat_eq_append, List.foldl_append,
      List.getLast?_concat, Option.some.injEq]
    exact after_neg_iff _ b

end LineCount

------------------------------------------------------------
-- Readers
------------------------------------------------------------

namespace Reader

/- A reader does not go back. -/
theorem offset_next
    (r : Reader) :
    r.offset ≤ (ByteSource.next r).2.offset := by
  rcases r with ⟨_ | ⟨b, rest⟩, offset, lines⟩
  · exact Nat.le_refl _
  · exact Nat.le_succ offset

/- It does so when a byte is pushed back, to where it was. -/
theorem pushBack_of_next
    {r r' : Reader}
    {b : UInt8}
    (h : ByteSource.next r = (.byte b, r')) :
    ByteSource.pushBack b r' =
      ⟨r.rest, r.offset, .startingAt r.lines.raw⟩ := by
  rcases r with ⟨_ | ⟨c, rest⟩, offset, lines⟩
  · cases h
  · cases h
    rfl

end Reader

/-
  The reader has read a part of a text that it began at an
  offset, and has counted from a line on.
-/
structure Reader.HasRead
    (data : List UInt8)
    (offset : Nat)
    (line : Int)
    (text : List UInt8)
    (r : Reader) : Prop where
  split : data.drop offset = text ++ r.rest
  position : r.offset = offset + text.length
  counted : r.lines.raw = LineCount.count line text

namespace Reader.HasRead

variable {data text : List UInt8}
variable {offset : Nat}
variable {line : Int}
variable {r r' : Reader}

/- At first it has read nothing. -/
theorem start
    (data : List UInt8)
    (offset : Nat)
    (line : Int) :
    HasRead data offset line [] (startingAt data offset line) :=
  ⟨rfl, rfl, rfl⟩

/- It may read one more byte. -/
theorem next
    (h : HasRead data offset line text r) :
    ∃ text', HasRead data offset line text'
      (ByteSource.next r).2 := by
  rcases r with ⟨_ | ⟨b, rest⟩, position, lines⟩
  · exact ⟨text, h⟩
  · refine ⟨text ++ [b], ?_, ?_, ?_⟩
    · rw [h.split, List.append_assoc]
      rfl
    · have hAt := h.position
      rw [List.length_append]
      change position + 1 = _
      dsimp only at hAt
      rw [hAt]
      rfl
    · have hCounted := h.counted
      dsimp only at hCounted
      rw [LineCount.count, List.foldl_append]
      change LineCount.after lines.raw b = _
      rw [hCounted]
      rfl

/- A byte that is pushed back has not been read. -/
theorem back
    {b : UInt8}
    (h : HasRead data offset line text r)
    (hNext : ByteSource.next r = (.byte b, r')) :
    HasRead data offset line text (ByteSource.pushBack b r') :=
  by
  rw [pushBack_of_next hNext]
  exact ⟨h.split, h.position, h.counted⟩

/- What has been read stands between two offsets. -/
theorem taken
    (h : HasRead data offset line text r) :
    (data.drop offset).take (r.offset - offset) = text := by
  rw [h.split, h.position, Nat.add_sub_cancel_left,
    List.take_left]

/- The reader has moved if it has read anything. -/
theorem moved_iff
    (h : HasRead data offset line text r) :
    offset < r.offset ↔ text ≠ [] := by
  have hLength := List.length_pos_iff (l := text)
  rw [← hLength, h.position]
  omega

/- The last byte read is the one before the reader. -/
theorem last
    (h : HasRead data offset line text r)
    (hText : text ≠ []) :
    data[r.offset - 1]? = text.getLast? := by
  have hLength := List.length_pos_iff.mpr hText
  have hAt : r.offset - 1 = offset + (text.length - 1) := by
    rw [h.position]
    omega
  calc
    data[r.offset - 1]? = (data.drop offset)[text.length - 1]? :=
      by rw [hAt, List.getElem?_drop]
    _ = text[text.length - 1]? := by
      rw [h.split, List.getElem?_append_left (by omega)]
    _ = text.getLast? := List.getLast?_eq_getElem?.symm

/- The number of the line tells the line breaks. -/
theorem line_eq
    (h : HasRead data offset line text r) :
    r.lines.line =
      line.natAbs +
        lineBreaks
          (if line < 0 then withoutFeed text else text) := by
  rw [LineCount.line, h.counted, LineCount.natAbs_count]
  rfl

/- The sign of the count tells a carriage return. -/
theorem neg_iff
    (h : HasRead data offset line text r)
    (hText : text ≠ []) :
    r.lines.raw < 0 ↔ data[r.offset - 1]? = some 0x0d := by
  rw [h.last hText, h.counted]
  exact LineCount.count_neg_iff line hText

end Reader.HasRead

end PostScript
