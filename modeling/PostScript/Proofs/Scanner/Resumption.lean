import PostScript.Proofs.Scanner.Concatenation
import PostScript.Proofs.Source.Lines
import PostScript.Workspace.Session

/-
  This file shows that scanning can be taken up again behind
  every object. A text that is scanned piece by piece, each
  time from the offset and the line that the last call has
  told, leads to the same as one reader that goes on. Nor does
  it matter what a scanner has been used for before.

  Key definitions include:
    * `Scanner.Instance`
    * `Scanner.Instance.call`
    * `Scanner.Instance.scanBytes`
    * `Scanner.resumed`
    * `Scanner.continued`
    * `Reader.Resumes`

  Main results:
    * `Scanner.Instance.call_eq`
    * `tracks_resumes`
    * `Scanner.resumed_eq_continued`
    * `Scanner.scanBytes_action`
-/

namespace PostScript

open ByteSource

------------------------------------------------------------
-- Readers
------------------------------------------------------------

/-
  Two readers at the same place of a text that tell the same
  line. They may differ in the line before the last byte.
-/
structure Reader.Resumes
    (data : List UInt8)
    (r₁ r₂ : Reader) : Prop where
  rest : r₁.rest = r₂.rest
  offset : r₁.offset = r₂.offset
  line : r₁.lines.raw = r₂.lines.raw
  whole : r₂.rest = data.drop r₂.offset

/- A new reader may take the place of one that has read on. -/
theorem Reader.resumes_startingAt
    {data : List UInt8}
    {r : Reader}
    (hWhole : r.rest = data.drop r.offset) :
    Resumes data
      (startingAt data r.offset r.lines.raw) r :=
  ⟨hWhole.symm, rfl, rfl, hWhole⟩

/-
  Both go on alike. The line before is taken back only behind
  a byte, and by then it is the same again.
-/
theorem tracks_resumes
    (data : List UInt8) :
    Tracks (Reader.Resumes data) (fun _ _ => False)
      (fun _ => False) where
  next := by
    rintro ⟨rest, offset, raw, before₁⟩ ⟨_, _, _, before₂⟩
      ⟨rfl, rfl, rfl, hWhole⟩
    dsimp only at hWhole
    cases rest with
    | nil => exact .atEnd id ⟨rfl, rfl, rfl, hWhole⟩
    | cons b rest =>
        have hRest : rest = data.drop (offset + 1) := by
          rw [← List.drop_drop, ← hWhole]
          rfl
        exact .byte b ⟨rfl, rfl, rfl, hRest⟩
          ⟨rfl, rfl, rfl, hWhole⟩
  past := nofun

namespace Scanner

variable {σ ε : Type}
variable [Environment ε]

------------------------------------------------------------
-- Scanners
------------------------------------------------------------

/-
  A scanner between two calls: its settings, and the bytes
  that are left in its buffer.
-/
structure Instance where
  settings : ScanSettings
  buffer : Bytes
deriving DecidableEq, Repr

namespace Instance

/- Empty the buffer. -/
def clear
    (x : Instance) : Instance :=
  { x with buffer := #[] }

variable [ByteSource σ]

/-
  Read one object. The buffer is emptied before the first
  piece is read, and once more behind the last.
-/
def call
    (x : Instance)
    (r : Rest σ ε) :
    (Except Error (Option Object) × Rest σ ε) × Instance :=
  let y := x.clear
  match readObject y.settings []
      ⟨r.source, r.names, r.env, y.buffer⟩ with
  | (.ok o, st) =>
      ((.ok o, ⟨st.source, st.names, st.env⟩),
        clear { y with buffer := st.text })
  | (.error cause, st) =>
      ((.error (.inToken cause st.text),
          ⟨st.source, st.names, st.env⟩),
        clear { y with buffer := st.text })

/- So a call does what its settings say, and no more. -/
theorem call_eq
    (x : Instance)
    (r : Rest σ ε) :
    x.call r = (scan x.settings r, x.clear) := by
  rcases r with ⟨source, names, env⟩
  unfold call scan
  dsimp only [clear]
  rcases readObject x.settings [] ⟨source, names, env, #[]⟩
    with ⟨cause | o, st⟩ <;> rfl

end Instance

------------------------------------------------------------
-- Scanning in Pieces
------------------------------------------------------------

/- An object, with the offset and the line to go on from. -/
abbrev Piece : Type :=
  Object × Nat × Int

/- What is told of an object that a reader has come to. -/
def pieceOf
    (r : Reader)
    (result : Except Error (Option Object)) :
    Except Error (Option Piece) :=
  result.map (Option.map (·, r.offset, r.lines.raw))

/- The answers of calls, and what they have left. -/
structure Answered (ε : Type) where
  answers : List (Except Error (Option Piece))
  names : NameTable
  env : ε

namespace Answered

/- One more answer before the others. -/
def cons
    (answer : Except Error (Option Piece))
    (a : Answered ε) : Answered ε :=
  { a with answers := answer :: a.answers }

end Answered

/- Scan one object of a text from an offset and a line on. -/
def Instance.scanBytes
    (x : Instance)
    (data : List UInt8)
    (offset : Nat)
    (line : Int)
    (names : NameTable)
    (env : ε) :
    Except Error (Option Piece) × Rest Reader ε × Instance :=
  match x.call ⟨.startingAt data offset line, names, env⟩ with
  | ((result, r), y) => (pieceOf r.source result, r, y)

/-
  Up to `k` calls, each from where the last one has stopped,
  up to the first error or the end of the text.
-/
def resumed
    (data : List UInt8) :
    Nat → Instance → Nat → Int → NameTable → ε → Answered ε
  | 0, _, _, _, names, env => ⟨[], names, env⟩
  | k + 1, x, offset, line, names, env =>
      match x.scanBytes data offset line names env with
      | (.ok (some (o, offset', line')), r, y) =>
          (resumed data k y offset' line' r.names r.env).cons
            (.ok (some (o, offset', line')))
      | (answer, r, _) => ⟨[answer], r.names, r.env⟩

/- Up to `k` calls on a single reader. -/
def continued :
    Nat → Instance → Rest Reader ε → Answered ε
  | 0, _, r => ⟨[], r.names, r.env⟩
  | k + 1, x, r =>
      match x.call r with
      | ((.ok (some o), r'), y) =>
          (continued k y r').cons
            (pieceOf r'.source (.ok (some o)))
      | ((result, r'), _) =>
          ⟨[pieceOf r'.source result], r'.names, r'.env⟩

/- Readers at the same place and line tell the same piece. -/
theorem pieceOf_resumes
    {data : List UInt8}
    {r₁ r₂ : Reader}
    (h : Reader.Resumes data r₁ r₂)
    (result : Except Error (Option Object)) :
    pieceOf r₁ result = pieceOf r₂ result := by
  unfold pieceOf
  rw [h.offset, h.line]

/- Calls from anywhere in the text, by induction on `k`. -/
theorem resumed_of_whole
    {data : List UInt8}
    (k : Nat)
    {x y : Instance}
    (hSettings : x.settings = y.settings)
    {r : Reader}
    (hWhole : r.rest = data.drop r.offset)
    (names : NameTable)
    (env : ε) :
    resumed data k x r.offset r.lines.raw names env =
      continued k y ⟨r, names, env⟩ := by
  induction k generalizing x y r names env with
  | zero => rfl
  | succ k ih =>
      rcases scan_alike (tracks_resumes data) y.settings
          (Reader.resumes_startingAt hWhole) names env with
        ⟨result, r₁, r₂, names', env', hFirst, hSecond,
          hResumes⟩
      have hBytes :
          x.scanBytes data r.offset r.lines.raw names env =
            (pieceOf r₂ result, ⟨r₁, names', env'⟩, x.clear) :=
        by
        unfold Instance.scanBytes
        rw [Instance.call_eq, hSettings, hFirst]
        dsimp only
        rw [pieceOf_resumes hResumes]
      have hCall :
          y.call ⟨r, names, env⟩ =
            ((result, ⟨r₂, names', env'⟩), y.clear) := by
        rw [Instance.call_eq, hSecond]
      unfold resumed continued
      rw [hBytes, hCall]
      rcases result with e | _ | o
      · rfl
      · rfl
      · have hOn :=
          ih (x := x.clear) (y := y.clear) hSettings
            hResumes.whole names' env'
        exact congrArg (Answered.cons _) hOn

/-
  A text may be scanned piece by piece, each time from the
  offset and the signed line that were told with the last
  object, or by a single reader that goes on. Every object is
  the same, with the same offset and the same line behind it,
  and so are the first error or the end, and the names and the
  environment that are left. Whatever the two scanners have
  left in their buffers does not matter.
-/
theorem resumed_eq_continued
    (cfg : ScanSettings)
    (buffer buffer' : Bytes)
    (data : List UInt8)
    (offset : Nat)
    (line : Int)
    (names : NameTable)
    (env : ε)
    (k : Nat) :
    resumed data k ⟨cfg, buffer⟩ offset line names env =
      continued k ⟨cfg, buffer'⟩
        ⟨.startingAt data offset line, names, env⟩ :=
  resumed_of_whole (x := ⟨cfg, buffer⟩) (y := ⟨cfg, buffer'⟩)
    (r := .startingAt data offset line) k rfl rfl names env

------------------------------------------------------------
-- Workspaces
------------------------------------------------------------

/- A workspace keeps the names and the scope of a call. -/
theorem scanning_of_scan
    [ByteSource σ]
    {source : σ}
    {w : Workspace}
    {result : Except Error (Option Object)}
    {r : Rest σ Scope}
    (hScan :
      scan w.settings ⟨source, w.names, w.scope⟩ =
        (result, r)) :
    Action.scanning source scan w =
      .ok (result, r.source)
        { w with names := r.names, scope := r.env } := by
  unfold Action.scanning
  rw [get_bind, hScan]
  rfl

/- A workspace scans bytes as such a scanner does. -/
theorem scanBytes_action
    (x : Instance)
    (w : Workspace)
    (hSettings : x.settings = w.settings)
    (data : Bytes)
    (offset : Nat)
    (line : Int) :
    Action.scanBytes data offset line w =
      match x.scanBytes data.toList offset line w.names
          w.scope with
      | (.ok piece, r, _) =>
          .ok (.bytesScanned piece)
            { w with names := r.names, scope := r.env }
      | (.error e, r, _) =>
          .error (.failed e)
            { w with names := r.names, scope := r.env } := by
  rcases hScan :
      scan w.settings
        ⟨Reader.startingAt data.toList offset line, w.names,
          w.scope⟩ with ⟨result, r⟩
  unfold Action.scanBytes Instance.scanBytes
  rw [Instance.call_eq, hSettings, hScan]
  dsimp only
  rw [bind_of_ok (scanning_of_scan hScan)]
  rcases result with e | _ | o <;> rfl

end Scanner

end PostScript
