import PostScript.Proofs.BinaryToken.Decoded
import PostScript.Proofs.Name.Lengths
import PostScript.Proofs.Numeric.Spelled
import PostScript.Proofs.Object.Bare
import PostScript.Proofs.Scanner.Manner

/-
  This file shows what program text can spell where names have
  no values: objects without attributes of their own, whose
  reals are finite and have no extension, whose arrays fit a
  record, and whose names are in the table and not too long.

  Key definitions include:
    * `Atom.Spelled`
    * `Scanner.spelling`

  Main results:
    * `Object.Spelled.transmitted`
    * `Object.Decoded.spelled`
    * `Scanner.objects_spelled`
-/

namespace PostScript

------------------------------------------------------------
-- Spelled Objects
------------------------------------------------------------

/-
  A value that text spells. Unlike one that is decoded, it may
  be the infinity, an empty name or a string of any length.
-/
def Atom.Spelled
    (t : NameTable) : Atom → Prop
  | .real v => v.isFinite = true ∧ v.extension = 0
  | .name n =>
      t.Holds n ∧
        (n ∈ t.system ∨ n.bytes.size ≤ maxLongNameLength)
  | _ => True

/- An object of values that text spells. -/
abbrev Object.Spelled
    (t : NameTable)
    (o : Object) : Prop :=
  o.Bare (Atom.Spelled t)

namespace Object

variable {t t' : NameTable}
variable {o : Object}

/- What is spelled stays so while more is read. -/
theorem Spelled.mono
    (h : o.Spelled t)
    (hReads : Sequence.TableRead Scope.empty t t') :
    o.Spelled t' := by
  refine h.imp ?_
  intro v hv
  cases v with
  | name n =>
      refine ⟨hReads.holds hv.1, ?_⟩
      rw [hReads.system_eq]
      exact hv.2
  | null | mark | infinity | integer | real | boolean
  | string => exact hv

/- What is spelled arrives as it is. -/
theorem Spelled.transmitted
    (h : o.Spelled t) :
    o.transmitted () = o :=
  Bare.transmitted h (fun _ hr => hr.2)

/- Binary tokens spell nothing that text does not. -/
theorem Decoded.spelled
    (h : o.Decoded t) :
    o.Spelled t := by
  refine h.bare.imp ?_
  intro v hv
  cases v with
  | infinity => contradiction
  | name n => exact ⟨hv.1, hv.2.imp_right And.right⟩
  | real v => exact hv
  | null | mark | integer | boolean | string => trivial

/- A number that is spelled is an infinity or finite. -/
theorem spelled_ofNumber
    {n : Number}
    (h : n.Spelled) :
    (Object.ofNumber n).Spelled t := by
  rcases Object.ofNumber_cases n with
    ⟨v, -, hAtom⟩ | hAtom | ⟨v, rfl, hInfinite, hAtom⟩ <;>
    rw [hAtom]
  · exact .atom (v := .integer v) trivial false
  · exact .atom (v := .infinity) trivial false
  · exact .atom (v := .real v)
      ⟨Real.isFinite_of_ne_nan h.1 hInfinite, h.2⟩ false

end Object

------------------------------------------------------------
-- Programs
------------------------------------------------------------

namespace Scanner

/-
  Objects are spelled once they are scanned. No name has a
  value, and nobody hears comments.
-/
def spelling : Manner Unit where
  changes t _ t' _ := Sequence.TableRead Scope.empty t t'
  starts t _ := Scope.empty.Grounded t
  gives t _ o := o.Spelled t
  refl := .refl
  trans := Reads.trans
  starts_of_changes := Reads.grounded
  gives_of_changes hReads h := h.mono hReads
  comment _ := .refl
  intern bytes := .intern maxNameLength bytes .refl
  load _ _ := .refl
  name {_ _ _ _ n} executable hMade := by
    have hHolds := (NameTable.holds_of_internWithin hMade).1
    have hShort := NameTable.size_of_internWithin hMade
    exact .atom (v := .name n)
      ⟨hHolds, .inr (Nat.le_trans hShort (by decide))⟩
      executable
  value _ _ hFound := nomatch hFound
  string _ := .atom trivial false
  number hLiteral :=
    Object.spelled_ofNumber
      (Number.spelled_ofLiteral hLiteral)
  token {_ _ _ _ lead src _ token} hGrounded hRead := by
    have hShort : BinaryToken.IsShort token :=
      BinaryToken.gives_read lead src token (by rw [hRead])
    exact (BinaryToken.object_decoded hShort hGrounded).imp
      (fun _ _ _ hDecoded => hDecoded.spelled)
  procedure hElements hMake := by
    rcases makeArray_ok hMake with ⟨rfl, hCount, -⟩
    exact .array hElements hCount true

/- All objects of a source are spelled. -/
theorem objects_spelled
    {σ : Type}
    [ByteSource σ]
    (cfg : ScanSettings)
    (r : Rest σ Unit)
    (hGrounded : Scope.empty.Grounded r.names) :
    Sequence.TableRead Scope.empty r.names
        (objects cfg r).rest.names ∧
      ∀ o ∈ (objects cfg r).objects,
        o.Spelled (objects cfg r).rest.names :=
  spelling.objects_yields cfg r hGrounded

end Scanner

end PostScript
