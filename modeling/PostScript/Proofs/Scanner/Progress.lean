import PostScript.Proofs.Scanner.Delivery

/-
  This file shows that scanning always makes progress. A call
  that finds a byte takes at least one, also when it fails, so
  that calling again and again comes to the end of any text.

  Key definitions include:
    * `Reader.Within`

  Main results:
    * `Scanner.remaining_scan_byte`
    * `Scanner.offset_scan_lt`
    * `Scanner.scan_none`
    * `Scanner.scan_progresses`
-/

namespace PostScript

open ByteSource

------------------------------------------------------------
-- Readers
------------------------------------------------------------

/- A reader somewhere in a text. -/
structure Reader.Within
    (data : List UInt8)
    (r : Reader) : Prop where
  bounded : r.offset ≤ data.length
  rest_eq : r.rest = data.drop r.offset

/- Memory does not fail. -/
theorem Reader.next_ne_failed
    (r : Reader)
    (m : String) :
    (ByteSource.next r).1 ≠ .failed m := by
  rcases r with ⟨_ | ⟨b, rest⟩, offset, lines⟩ <;> exact nofun

namespace Reader.Within

variable {data : List UInt8}
variable {r r' : Reader}
variable {b : UInt8}

/- It may start anywhere in the text. -/
theorem startingAt
    {offset : Nat}
    (line : Int)
    (hOffset : offset ≤ data.length) :
    (Reader.startingAt data offset line).Within data :=
  ⟨hOffset, rfl⟩

/- A byte that is read is the one at its offset. -/
theorem byte
    (h : r.Within data)
    (hNext : ByteSource.next r = (.byte b, r')) :
    r'.Within data ∧ r'.offset = r.offset + 1 ∧
      data[r.offset]? = some b := by
  rcases r with ⟨_ | ⟨c, rest⟩, offset, lines⟩
  · cases hNext
  · cases hNext
    have hRest := h.rest_eq
    have hHead : data[offset]? = some b := by
      simpa using congrArg List.head? hRest.symm
    have hTail : rest = data.drop (offset + 1) := by
      simpa using congrArg List.tail hRest
    have hBounded : offset < data.length := by
      by_contra hOut
      simp [List.drop_of_length_le (Nat.le_of_not_lt hOut)]
        at hRest
    exact ⟨⟨hBounded, hTail⟩, rfl, hHead⟩

/- A reader that ends stands at the end of the text. -/
theorem atEnd
    (h : r.Within data)
    (hNext : ByteSource.next r = (.atEnd, r')) :
    r'.offset = data.length := by
  rcases r with ⟨_ | ⟨c, rest⟩, offset, lines⟩
  · cases hNext
    have hLength := congrArg List.length h.rest_eq
    have hBounded := h.bounded
    simp at hLength hBounded ⊢
    omega
  · cases hNext

/- Reading on stays in the text. -/
theorem next
    (h : r.Within data) :
    (ByteSource.next r).2.Within data := by
  rcases r with ⟨_ | ⟨b, rest⟩, offset, lines⟩
  · exact h
  · exact (h.byte rfl).1

/- So does pushing back. -/
theorem back
    (h : r.Within data)
    (hNext : ByteSource.next r = (.byte b, r')) :
    (ByteSource.pushBack b r').Within data := by
  rw [pushBack_of_next hNext]
  exact ⟨h.bounded, h.rest_eq⟩

/- As many bytes are left as stand behind its offset. -/
theorem remaining_eq
    (h : r.Within data) :
    remaining r = data.length - r.offset := by
  change r.rest.length = _
  simp [h.rest_eq]

end Reader.Within

------------------------------------------------------------
-- Taking Bytes
------------------------------------------------------------

section Taking

variable {σ ε : Type}
variable [ByteSource σ]
variable [Environment ε]

namespace Lexeme

/- The first byte of blanks, or behind them, is gone. -/
theorem remaining_skipBlanks_byte
    {src s : σ}
    {b : UInt8}
    (cfg : ScanSettings)
    (names : NameTable)
    (env : ε)
    (text : Bytes)
    (hNext : next src = (.byte b, s)) :
    remaining
        (skipBlanks cfg ⟨src, names, env, text⟩).2.source ≤
      remaining s := by
  rw [skipBlanks_byte cfg names env text hNext]
  have hComment :=
    remaining_comment cfg.stringLength #[] s
  split
  · split
    next hRead =>
      rw [hRead] at hComment
      exact hComment
    next hRead =>
      rw [hRead] at hComment
      exact Nat.le_trans (remaining_skipBlanks cfg _) hComment
  · split
    · exact Nat.le_refl _
    · split
      · exact remaining_skipBlanks cfg _
      · exact Nat.le_refl _

/- Behind blanks, a piece leaves no more than there was. -/
theorem remaining_read
    (cfg : ScanSettings)
    (nested : Bool)
    (st : ScanState σ ε) :
    remaining (read cfg nested st).2.source ≤
      remaining (skipBlanks cfg st).2.source := by
  unfold read
  split
  next hSkip => simp [hSkip]
  next hSkip => simp [hSkip]
  next first st' hSkip =>
    rw [hSkip]
    exact remaining_readFrom cfg nested first
      { st' with text := #[] }

end Lexeme

namespace Scanner

/- Nor does an object that is read, or an error. -/
theorem remaining_readObject
    (cfg : ScanSettings)
    (outer : OpenProcedures)
    (st : ScanState σ ε) :
    remaining (readObject cfg outer st).2.source ≤
      remaining (Lexeme.skipBlanks cfg st).2.source := by
  fun_induction readObject cfg outer st with
  | case1 outer st cause st' hRead =>
      have hPiece :=
        Lexeme.remaining_read cfg (!outer.isEmpty) st
      rw [hRead] at hPiece
      exact hPiece
  | case2 outer st l st' hRead r hStep =>
      have hPiece :=
        Lexeme.remaining_read cfg (!outer.isEmpty) st
      rw [hRead] at hPiece
      exact hPiece
  | case3 outer st l st' hRead outer' hStep ih =>
      have hPiece :=
        Lexeme.remaining_read cfg (!outer.isEmpty) st
      have hBlanks := Lexeme.remaining_skipBlanks cfg st'
      rw [hRead] at hPiece
      exact Nat.le_trans ih (Nat.le_trans hBlanks hPiece)

/- A call that finds a byte takes it, whatever comes of it. -/
theorem remaining_scan_byte
    {s : σ}
    {b : UInt8}
    (cfg : ScanSettings)
    (r : Rest σ ε)
    (hNext : next r.source = (.byte b, s)) :
    remaining (scan cfg r).2.source < remaining r.source := by
  rcases r with ⟨source, names, env⟩
  have hObject :=
    remaining_readObject cfg []
      (⟨source, names, env, #[]⟩ : ScanState σ ε)
  have hBlanks :=
    Lexeme.remaining_skipBlanks_byte cfg names env #[] hNext
  have hByte := remaining_byte hNext
  have hSource :
      (scan cfg ⟨source, names, env⟩).2.source =
        (readObject cfg []
          ⟨source, names, env, #[]⟩).2.source := by
    unfold scan
    dsimp only
    split <;> rename_i hRead <;> rw [hRead]
  rw [hSource]
  exact Nat.lt_of_le_of_lt
    (Nat.le_trans hObject hBlanks) hByte

end Scanner

end Taking

------------------------------------------------------------
-- The End
------------------------------------------------------------

section Ends

variable {ε : Type}
variable [Environment ε]
variable {data : List UInt8}
variable {cfg : ScanSettings}

namespace Lexeme

/- A comment stays in the text, and does not go back. -/
theorem within_comment
    {src : Reader}
    (h : src.Within data)
    (limit : Nat)
    (text : Bytes) :
    (comment limit text src).source.Within data ∧
      src.offset ≤ (comment limit text src).source.offset := by
  rcases comment_local limit text src with
    ⟨es, v, u, hTrail, hYields⟩
  have hComment :
      comment limit text src = ⟨v.1, v.2, u⟩ :=
    hYields hTrail
  rw [hComment]
  refine hTrail.keeps
    (P := fun r =>
      r.Within data ∧ src.offset ≤ r.offset)
    ?_ ?_ ⟨h, Nat.le_refl _⟩
  · rintro r ⟨hWithin, hOffset⟩
    exact ⟨hWithin.next,
      Nat.le_trans hOffset (Reader.offset_next r)⟩
  · rintro r r' b ⟨hWithin, hOffset⟩ hNext
    refine ⟨hWithin.back hNext, ?_⟩
    rw [Reader.pushBack_of_next hNext]
    exact hOffset

/-
  Where blanks end without a token, the text ends, or a byte
  that is to end it has been read.
-/
theorem skipBlanks_none
    {st st' : ScanState Reader ε}
    (h : st.source.Within data)
    (hSkip : skipBlanks cfg st = (.ok none, st')) :
    st'.source.offset = data.length ∨
      (cfg.controlDEnds = true ∧
        st.source.offset < st'.source.offset ∧
        data[st'.source.offset - 1]? = some 0x04) := by
  fun_induction skipBlanks cfg st with
  | case1 src names env text s hNext =>
      cases hSkip
      exact .inl (h.atEnd hNext)
  | case2 => cases hSkip
  | case3 => cases hSkip
  | case4 src names env text b s hNext hSign _ gathered s'
      hComment ih =>
      rcases h.byte hNext with ⟨hWithin, hOffset, -⟩
      have hBehind := within_comment hWithin cfg.stringLength #[]
      rw [hComment] at hBehind
      have hFirst : src.offset < s'.offset :=
        Nat.lt_of_lt_of_le (Nat.lt_of_succ_le hOffset.ge)
          hBehind.2
      refine (ih hBehind.1 hSkip).imp_right ?_
      rintro ⟨hMark, hMoved, hByte⟩
      exact ⟨hMark, Nat.lt_trans hFirst hMoved, hByte⟩
  | case5 src names env text b s hNext hSign hMark =>
      cases hSkip
      rcases h.byte hNext with ⟨-, hOffset, hByte⟩
      simp only [isEndMark, Bool.and_eq_true, beq_iff_eq]
        at hMark
      rcases hMark with ⟨hEnds, rfl⟩
      dsimp only at hByte ⊢
      rw [hOffset]
      exact .inr ⟨hEnds, Nat.lt_succ_self _, hByte⟩
  | case6 src names env text b s hNext hSign hMark hWhite ih =>
      rcases h.byte hNext with ⟨hWithin, hOffset, -⟩
      have hFirst : src.offset < s.offset :=
        Nat.lt_of_succ_le hOffset.ge
      refine (ih hWithin hSkip).imp_right ?_
      rintro ⟨hMark, hMoved, hByte⟩
      exact ⟨hMark, Nat.lt_trans hFirst hMoved, hByte⟩
  | case7 => cases hSkip

end Lexeme

namespace Scanner

/- A call stays in the text. -/
theorem within_scan
    (cfg : ScanSettings)
    {r : Rest Reader ε}
    (h : r.source.Within data) :
    (scan cfg r).2.source.Within data :=
  scan_keeps (P := fun r => r.Within data)
    (fun h => h.next) (fun h hNext => h.back hNext) cfg r h

/- A call without an object comes to the end of the text. -/
theorem scan_none
    {r : Rest Reader ε}
    (h : r.source.Within data)
    (hScan : (scan cfg r).1 = .ok none) :
    (scan cfg r).2.source.offset = data.length ∨
      (cfg.controlDEnds = true ∧
        r.source.offset < (scan cfg r).2.source.offset ∧
        data[(scan cfg r).2.source.offset - 1]? =
          some 0x04) := by
  rcases r with ⟨source, names, env⟩
  unfold scan at hScan ⊢
  dsimp only at hScan ⊢
  split at hScan
  next o source' names' env' text hRead =>
    cases hScan
    exact Lexeme.skipBlanks_none h
      (skipBlanks_of_ended (read_of_none hRead))
  next => contradiction

/- Every other call moves on, also if it fails. -/
theorem offset_scan_lt
    {r : Rest Reader ε}
    (h : r.source.Within data)
    (hScan : (scan cfg r).1 ≠ .ok none) :
    r.source.offset < (scan cfg r).2.source.offset := by
  rcases hNext : ByteSource.next r.source with ⟨b | _ | m, s⟩
  · have hTaken := remaining_scan_byte cfg r hNext
    rw [h.remaining_eq, (within_scan cfg h).remaining_eq]
      at hTaken
    omega
  · rw [scan_atEnd cfg r.names r.env hNext] at hScan
    contradiction
  · exact absurd (congrArg Prod.fst hNext)
      (Reader.next_ne_failed r.source m)

/- The calls behind the first are calls on what it left. -/
theorem after_succ
    (cfg : ScanSettings)
    (r : Rest Reader ε)
    (k : Nat) :
    after cfg r (k + 1) = after cfg (scan cfg r).2 k := by
  induction k with
  | zero => rfl
  | succ k ih => rw [after, ih, after]

/- The text is at its end after some calls. -/
theorem ends_after
    (cfg : ScanSettings)
    {r : Rest Reader ε}
    (h : r.source.Within data) :
    ∃ k ≤ data.length - r.source.offset,
      (scan cfg (after cfg r k)).1 = .ok none ∧
        ∀ j < k, (scan cfg (after cfg r j)).1 ≠ .ok none := by
  induction hLeft : data.length - r.source.offset
    using Nat.strong_induction_on generalizing r with
  | h n ih =>
      by_cases hEnd : (scan cfg r).1 = .ok none
      · exact ⟨0, Nat.zero_le n, hEnd, fun j hj => nomatch hj⟩
      · have hMoved := offset_scan_lt h hEnd
        have hWithin := within_scan cfg h
        have hBounded := hWithin.bounded
        rcases ih _ (by omega) hWithin rfl with
          ⟨k, hCount, hLast, hOthers⟩
        refine ⟨k + 1, by omega, ?_, ?_⟩
        · rw [after_succ]
          exact hLast
        · intro j hj
          cases j with
          | zero => exact hEnd
          | succ j =>
              rw [after_succ]
              exact hOthers j (Nat.lt_of_succ_lt_succ hj)

/-
  Every call stays in the text, and takes at least one byte
  unless it tells that the input ends. It tells so only at the
  end of the text, or right behind a byte 4 where that is to
  end the input. So there are at most as many calls before
  that as there were bytes left, whether they fail or not.
-/
theorem scan_progresses
    {start : Rest Reader ε}
    (hWithin : start.source.Within data)
    (cfg : ScanSettings) :
    let offset := start.source.offset
    let result := (scan cfg start).1
    let r' := (scan cfg start).2.source
    r'.Within data ∧
    (result ≠ .ok none → offset < r'.offset) ∧
    (result = .ok none →
      r'.offset = data.length ∨
        (cfg.controlDEnds = true ∧ offset < r'.offset ∧
          data[r'.offset - 1]? = some 0x04)) ∧
    ∃ k ≤ data.length - offset,
      (scan cfg (after cfg start k)).1 = .ok none ∧
        ∀ j < k, (scan cfg (after cfg start j)).1 ≠ .ok none :=
  ⟨within_scan cfg hWithin, offset_scan_lt hWithin,
    scan_none hWithin, ends_after cfg hWithin⟩

/- A closing brace alone is an error, and is taken. -/
theorem scan_progresses_brace :
    let start : Rest Reader Unit :=
      ⟨.startingAt [0x0a, 0x7d] 1 1, NameTable.empty, ()⟩
    start.source.Within [0x0a, 0x7d] ∧
      (scan {} start).1 ≠ .ok none ∧
      1 < (scan {} start).2.source.offset ∧
      ∃ k ≤ 1, (scan {} (after {} start k)).1 = .ok none := by
  intro start
  have hWithin : start.source.Within [0x0a, 0x7d] :=
    .startingAt 1 (by decide)
  have hScan : (scan {} start).1 ≠ .ok none := by
    unfold scan
    dsimp only [start]
    rw [readObject_step, Lexeme.read, Lexeme.skipBlanks_eq]
    intro hNone
    cases hNone
  rcases scan_progresses hWithin {} with
    ⟨-, hMoved, -, k, hCount, hEnd, -⟩
  exact ⟨hWithin, hScan, hMoved hScan, k, hCount, hEnd⟩

end Scanner

end Ends

end PostScript
