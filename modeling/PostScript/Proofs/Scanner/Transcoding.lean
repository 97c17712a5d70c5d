import PostScript.Proofs.BinaryToken.Rewriting
import PostScript.Proofs.Scanner.Rendered
import PostScript.Proofs.Scanner.Spelled

/-
  This file shows that the objects of program text survive
  being sent as a binary object sequence: what is read back is
  what was scanned, and few things can keep the objects from
  being written.

  Key definitions include:
    * `Sequence.Writer.Obstacle`

  Main results:
    * `Sequence.Writer.obstacle_of_violates`
    * `Sequence.read_spelled`
    * `Scanner.objects_transcoded`
-/

namespace PostScript

------------------------------------------------------------
-- Obstacles
------------------------------------------------------------

namespace Sequence

/-
  What can keep objects from being written that text spells,
  by the kind of the error: infinities; empty names and arrays
  in too many others; strings, lists and sequences that are
  too long.
-/
def Writer.Obstacle
    (w : Writer)
    (objs : List Object) : ErrorKind → Prop
  | .undefinedResult =>
      ∃ a, .atom .infinity a ∈ Object.allParts objs
  | .rangeCheck =>
      (∃ n a, .atom (.name n) a ∈ Object.allParts objs ∧
          n.bytes = #[]) ∨
        maxNesting < Object.tallest 0 objs
  | .limitCheck =>
      maxRecordLength < objs.length ∨
        (∃ bytes a,
          .atom (.string bytes) a ∈ Object.allParts objs ∧
            maxRecordLength < bytes.size) ∨
        0xffffffff < w.payloadSize objs + 8
  | _ => False

variable {t : NameTable}
variable {w : Writer}
variable {objs : List Object}

/- A name that is spelled is no longer than it may be. -/
theorem size_le_of_spelled
    (hTable : t.WellFormed)
    {n : Name}
    (h : (Atom.name n).Spelled t) :
    n.bytes.size ≤ maxLongNameLength := by
  rcases h.2 with hSystem | hShort
  · exact
      (BinaryToken.systemIndex_of_mem hTable hSystem).1
  · exact hShort

/-
  Whatever condition is violated by objects that are spelled,
  there is an obstacle: reals are finite, arrays fit a record
  and all can be read anyway.
-/
theorem Writer.obstacle_of_violates
    (h : ∀ o ∈ objs, o.Spelled t)
    {kind : ErrorKind}
    (hNot : w.Violates objs kind) :
    w.Obstacle objs kind := by
  have hParts := Object.Bare.allParts h
  cases kind with
  | invalidAccess =>
      rcases hNot with ⟨part, hPart, hFails⟩
      cases hParts part hPart with
      | atom | array => exact absurd (fun _ => rfl) hFails
  | undefinedResult =>
      rcases hNot with ⟨part, hPart, hFails⟩
      cases hParts part hPart with
      | array => exact absurd trivial hFails
      | @atom v hSpelled executable =>
          cases v with
          | infinity => exact ⟨_, hPart⟩
          | real v => exact absurd hSpelled.1 hFails
          | null | mark | integer | boolean | string | name =>
              exact absurd trivial hFails
  | rangeCheck =>
      rcases hNot with ⟨part, hPart, hFails⟩ | hDeep
      · cases hParts part hPart with
        | array => exact absurd trivial hFails
        | @atom v hSpelled executable =>
            cases v with
            | name n =>
                have hEmpty : n.bytes.size = 0 := by
                  by_contra hSome
                  exact hFails (fun _ => hSome)
                exact .inl ⟨n, _, hPart,
                  Array.eq_empty_of_size_eq_zero hEmpty⟩
            | null | mark | integer | boolean | string
            | infinity | real => exact absurd trivial hFails
      · exact .inr hDeep
  | limitCheck =>
      rcases hNot with ⟨part, hPart, hFails⟩ | hCount | hLong
      · cases hParts part hPart with
        | array _ hFits => exact absurd hFits hFails
        | @atom v hSpelled executable =>
            cases v with
            | string bytes =>
                exact .inr (.inl ⟨bytes, _, hPart,
                  Nat.lt_of_not_le hFails⟩)
            | null | mark | integer | boolean | name
            | infinity | real => exact absurd trivial hFails
      · exact .inl hCount
      · exact .inr (.inr hLong)
  | _ => exact hNot

/- Only an obstacle keeps spelled objects from being written. -/
theorem Writer.obstacle_of_writeAll
    (hTable : t.WellFormed)
    (h : ∀ o ∈ objs, o.Spelled t)
    {cause : Cause}
    (hWrite : w.writeAll objs = .error cause) :
    w.Obstacle objs cause.kind := by
  refine obstacle_of_violates h (violates_of_writeAll ?_ hWrite)
  intro o ho n hn
  exact size_le_of_spelled hTable ((h o ho).names n hn)

/- Spelled objects are read back as they are. -/
theorem read_spelled
    (hTable : t.WellFormed)
    (h : ∀ o ∈ objs, o.Spelled t)
    {bytes : Bytes}
    (hWrite : w.writeAll objs = .ok bytes) :
    read () bytes t =
      .ok (.array objs { executable := true }, bytes.size)
        t := by
  have hHolds : ∀ o ∈ objs, ∀ n ∈ o.names, t.Holds n :=
    fun o ho n hn => ((h o ho).names n hn).1
  have hRead := read_writeAll hTable () hHolds hWrite #[]
  have hSame : objs.map (Object.transmitted ()) = objs :=
    (List.map_congr_left
      (fun o ho => (h o ho).transmitted)).trans
        (List.map_id objs)
  rw [Array.append_empty, hSame] at hRead
  exact hRead

end Sequence

------------------------------------------------------------
-- Programs
------------------------------------------------------------

namespace Scanner

/-
  The objects of a source, scanned where names have no values,
  are sent and come back: whatever the format is in which they
  are written, all bytes are read as an executable array of
  the very same objects, and no name is new. If they cannot be
  written, there is one of few obstacles.
-/
theorem objects_transcoded
    {σ : Type}
    [ByteSource σ]
    (cfg : ScanSettings)
    {src : σ}
    {names : NameTable}
    (hTable : names.Reachable)
    {os : List Object}
    {failure : Option Error}
    {rest : Rest σ Unit}
    (hObjects :
      objects cfg ⟨src, names, ()⟩ = ⟨os, failure, rest⟩)
    (w : Sequence.Writer) :
    (∀ bytes, w.writeAll os = .ok bytes →
      Sequence.read () bytes rest.names =
        .ok (.array os { executable := true }, bytes.size)
          rest.names) ∧
    (∀ cause, w.writeAll os = .error cause →
      w.Obstacle os cause.kind) := by
  have hGrounded : Scope.empty.Grounded names :=
    ⟨fun _ => hTable.wellFormed.holds_system, nofun⟩
  rcases objects_spelled cfg ⟨src, names, ()⟩ hGrounded with
    ⟨hReads, hSpelled⟩
  rw [hObjects] at hReads hSpelled
  have hTable' := (Reads.reachable hReads hTable).wellFormed
  constructor
  · intro bytes hWrite
    exact Sequence.read_spelled hTable' hSpelled hWrite
  · intro cause hWrite
    exact Sequence.Writer.obstacle_of_writeAll hTable'
      hSpelled hWrite

/- A procedure with a number in it. -/
theorem objects_transcoded_procedure :
    ∃ rest,
      objects {}
          ⟨Reader.ofList (Bytes.ofText "\x7b7\x7d").toList,
            NameTable.initial, ()⟩ =
        ⟨[.array [.integer 7] { executable := true }], none,
          rest⟩ ∧
      Sequence.read ()
          #[129, 1, 20, 0,
            137, 0, 1, 0, 8, 0, 0, 0,
            1, 0, 0, 0, 7, 0, 0, 0] rest.names =
        .ok (.array
          [.array [.integer 7] { executable := true }]
          { executable := true }, 20) rest.names := by
  have hInteger :
      Renders {} (.integer 7) (Bytes.ofText "7").toList :=
    .integer (Numeral.unsigned
      ⟨by decide, List.all_eq_true.mp rfl⟩) (by decide)
  have hText :
      RendersAll {} false [.procedure [.integer 7]]
        (Bytes.ofText "\x7b7\x7d").toList :=
    .cons .nil (absurd · Bool.false_ne_true)
      (.procedure
        (.cons .nil (absurd · Bool.false_ne_true) hInteger
          (.nil .nil)))
      (.nil .nil)
  rcases objects_rendered NameTable.initial hText (by decide)
      (by decide) staysLocal_unit
      (Reader.supplies (Reader.ofList _)) with
    ⟨os, rest, hObjects, hTrees, -⟩
  cases hTrees
  refine ⟨rest, hObjects, ?_⟩
  refine (objects_transcoded {} .initial hObjects
    ⟨⟨.little, .ieee⟩, true⟩).1 _ ?_
  decide +kernel

end Scanner

end PostScript
