import PostScript.Proofs.Scanner.Trails
import PostScript.Proofs.Source.Lines

/-
  This file shows that the count of lines is exact wherever a
  call of the scanner stops, whether it succeeds or fails.

  Key definitions include:
    * `Scanner.Reached`

  Main results:
    * `Scanner.hasRead_reached`
    * `Scanner.lines_reached`
-/

namespace PostScript.Scanner

open ByteSource

/-
  The readers that are reached by any number of calls, each
  with settings, names and an environment of its own.
-/
inductive Reached
    (start : Reader) : Reader → Prop where
  | start :
      Reached start start
  | call
      {r : Reader}
      {ε : Type}
      [Environment ε]
      (hBefore : Reached start r)
      (cfg : ScanSettings)
      (names : NameTable)
      (env : ε) :
      Reached start (scan cfg ⟨r, names, env⟩).2.source

variable {data : List UInt8}
variable {offset : Nat}
variable {line : Int}
variable {r : Reader}

/- By then a part of the text has been read and counted. -/
theorem hasRead_reached
    (h : Reached (.startingAt data offset line) r) :
    ∃ text, Reader.HasRead data offset line text r := by
  induction h with
  | start => exact ⟨[], .start data offset line⟩
  | call _ cfg names env ih =>
      refine scan_keeps
        (P := fun r =>
          ∃ text, Reader.HasRead data offset line text r)
        ?_ ?_ cfg ⟨_, names, env⟩ ih
      · rintro r ⟨text, hRead⟩
        exact hRead.next
      · rintro r r' b ⟨text, hRead⟩ hNext
        exact ⟨text, hRead.back hNext⟩

/-
  The line number has grown by the line breaks of the bytes
  that have been read, and the count is negative right behind
  a carriage return. If it was negative from the start, the
  bytes are read as if behind a carriage return.
-/
theorem lines_reached
    (h : Reached (.startingAt data offset line) r) :
    let text := (data.drop offset).take (r.offset - offset)
    offset ≤ r.offset ∧
    (0 ≤ line →
      r.lines.line = line + lineBreaks text ∧
        (r.lines.raw < 0 ↔
          offset < r.offset ∧
            data[r.offset - 1]? = some 0x0d)) ∧
    (line < 0 →
      (r.offset = offset → r.lines.raw = line) ∧
        (offset < r.offset →
          r.lines.line =
              line.natAbs + lineBreaks (withoutFeed text) ∧
            (r.lines.raw < 0 ↔
              data[r.offset - 1]? = some 0x0d))) := by
  rcases hasRead_reached h with ⟨text, hRead⟩
  have hLine := hRead.line_eq
  rw [hRead.taken]
  refine ⟨?_, fun hLine₀ => ⟨?_, ?_⟩, fun hLine₀ =>
    ⟨?_, fun hMoved => ⟨?_, ?_⟩⟩⟩
  · rw [hRead.position]
    omega
  · rw [if_neg (by omega)] at hLine
    omega
  · by_cases hText : text = []
    · have hStill : ¬ offset < r.offset := by
        rw [hRead.moved_iff]
        exact absurd hText
      have hRaw : r.lines.raw = line := by
        rw [hRead.counted, hText]
        rfl
      exact iff_of_false (by omega) (fun h => hStill h.1)
    · rw [and_iff_right (hRead.moved_iff.mpr hText)]
      exact hRead.neg_iff hText
  · intro hStill
    have hText : text = [] := by
      by_contra hText
      have hMoved := hRead.moved_iff.mpr hText
      omega
    rw [hRead.counted, hText]
    rfl
  · rw [if_pos hLine₀] at hLine
    exact hLine
  · exact hRead.neg_iff (hRead.moved_iff.mp hMoved)

/- Two line breaks and a bracket. -/
theorem lines_reached_bracket :
    let start : Rest Reader Unit :=
      ⟨.startingAt [0x0a, 0x0d, code ']'] 0 1,
        NameTable.empty, ()⟩
    let r := (scan {} start).2.source
    r.offset = 3 ∧ r.lines.line = 3 ∧ ¬ r.lines.raw < 0 := by
  intro start r
  have hSkip :
      Lexeme.skipBlanks {}
          ⟨start.source, start.names, start.env, #[]⟩ =
        (.ok (some (code ']')),
          ⟨⟨[], 3, ⟨3, -3⟩⟩, NameTable.empty, (), #[]⟩) := by
    calc
      _ = Lexeme.skipBlanks {}
          ⟨(⟨[0x0d, code ']'], 1, ⟨2, 1⟩⟩ : Reader),
            NameTable.empty, (), #[]⟩ :=
        Lexeme.skipBlanks_white _ _ _ _ rfl rfl
      _ = Lexeme.skipBlanks {}
          ⟨(⟨[code ']'], 2, ⟨-3, 2⟩⟩ : Reader),
            NameTable.empty, (), #[]⟩ :=
        Lexeme.skipBlanks_white _ _ _ _ rfl rfl
      _ = _ := by
        rw [Lexeme.skipBlanks_eq]
        rfl
  have hOffset : r.offset = 3 := by
    dsimp only [r]
    unfold scan
    dsimp only [start] at hSkip ⊢
    rw [readObject_step, Lexeme.read, hSkip]
    rfl
  have hReached : Reached start.source r :=
    .call .start {} NameTable.empty ()
  rcases (lines_reached hReached).2.1 (by decide) with
    ⟨hLine, hSign⟩
  rw [hOffset] at hLine hSign
  refine ⟨hOffset, hLine, ?_⟩
  rw [hSign]
  decide

end PostScript.Scanner
