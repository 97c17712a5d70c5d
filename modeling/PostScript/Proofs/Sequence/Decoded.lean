import PostScript.Proofs.Object.Bare
import PostScript.Proofs.Sequence.Names
import PostScript.Proofs.Sequence.Values

/-
  This file describes the objects that are read where names
  have no values: what can be in them, at any depth, is what
  can be written in a sequence again.

  Key definitions include:
    * `Object.Decoded`
    * `Sequence.decoding`

  Main results:
    * `Object.Decoded.transmitted`
    * `Object.Decoded.parts`
    * `Sequence.readPayload_decoded`
-/

namespace PostScript

------------------------------------------------------------
-- Decoded Objects
------------------------------------------------------------

/-
  A value that is decoded: reals are finite and have no
  extension, strings fit a record, and names can be written,
  by their number or as text.
-/
def Atom.Decoded
    (t : NameTable) : Atom → Prop
  | .infinity => False
  | .real v => v.isFinite = true ∧ v.extension = 0
  | .name n =>
      t.Holds n ∧
        (n ∈ t.system ∨
          n.bytes.size ≠ 0 ∧
            n.bytes.size ≤ maxLongNameLength)
  | .string bytes => bytes.size ≤ Sequence.maxRecordLength
  | _ => True

namespace Object

/-
  An object that is decoded. It has no attributes of its own
  but that it may be executable.
-/
inductive Decoded
    (t : NameTable) : Object → Prop where
  | atom
      {v : Atom}
      (h : v.Decoded t)
      (executable : Bool) :
      Decoded t (.atom v { executable := executable })
  | array
      {es : List Object}
      (hElements : ∀ e ∈ es, Decoded t e)
      (hCount : es.length ≤ Sequence.maxRecordLength)
      (executable : Bool) :
      Decoded t (.array es { executable := executable })

namespace Decoded

variable {t t' : NameTable}
variable {o : Object}

/- To be decoded is to be bare and of decoded values. -/
theorem bare
    (h : o.Decoded t) :
    o.Bare (Atom.Decoded t) := by
  induction h with
  | atom h executable => exact .atom h executable
  | array _ hCount executable ih =>
      exact .array ih hCount executable

theorem of_bare
    (h : o.Bare (Atom.Decoded t)) :
    o.Decoded t := by
  induction h with
  | atom h executable => exact .atom h executable
  | array _ hCount executable ih =>
      exact .array ih hCount executable

/- What is decoded stays so while names are added. -/
theorem mono
    (h : o.Decoded t)
    (hHolds : ∀ n, t.Holds n → t'.Holds n)
    (hSystem : t'.system = t.system) :
    o.Decoded t' := by
  refine of_bare (h.bare.imp ?_)
  intro v hv
  cases v with
  | name n =>
      refine ⟨hHolds n hv.1, ?_⟩
      rw [hSystem]
      exact hv.2
  | null | mark | infinity | integer | real | boolean
  | string => exact hv

/- What is decoded arrives as it is. -/
theorem transmitted
    (h : o.Decoded t) :
    o.transmitted () = o :=
  h.bare.transmitted (fun _ hr => hr.2)

/- What is inside is decoded as well. -/
theorem parts
    (h : o.Decoded t) :
    ∀ part ∈ o.parts, part.Decoded t :=
  fun part hPart => of_bare (h.bare.parts part hPart)

/- All names inside are held and can be written. -/
theorem names
    (h : o.Decoded t) :
    ∀ n ∈ o.names, (Atom.name n).Decoded t :=
  h.bare.names

end Decoded

/- Numbers are decoded. -/
theorem decoded_real
    {t : NameTable}
    {v : Real}
    (hFinite : v.isFinite = true)
    (hExtension : v.extension = 0)
    (executable : Bool) :
    ((Object.real v).withExecutable executable).Decoded t :=
  by
  have hNot : v.isInfinite = false := by
    unfold Real.isFinite at hFinite
    unfold Real.isInfinite
    cases hValue : v.single with
    | infinite negative =>
        rw [hValue] at hFinite
        contradiction
    | nan | finite negative m e => rfl
  unfold Object.real
  rw [hNot]
  exact .atom (v := .real v) ⟨hFinite, hExtension⟩ executable

end Object

namespace Sequence

------------------------------------------------------------
-- Sequences
------------------------------------------------------------

/- Objects are decoded once they are read. -/
def decoding : Manner where
  changes := NamesRead Scope.empty
  starts st := Scope.empty.Grounded st.names
  gives o st := o.Decoded st.names
  fails _ := True
  onward := inferInstance
  starts_of_changes h hGrounded := h.grounded hGrounded
  gives_of_changes h hDecoded :=
    hDecoded.mono (fun _ => h.holds) h.system_eq

/- A name that is read can be written. -/
theorem Payload.name_decoded
    {p : Payload}
    {r : Record}
    {st : Progress}
    (hGrounded : Scope.empty.Grounded st.names) :
    Goes (NamesRead Scope.empty)
      (fun n st => (Atom.name n).Decoded st.names) (p.name r)
      st :=
  Goes.and (name_goes hGrounded) name_follows

/- What a record stands for is decoded. -/
theorem contents_decoded
    (p : Payload)
    {nested : Nat → Nat → Reading (List Object)}
    (hNested :
      ∀ offset count,
        decoding.ReadsAll (nested offset count))
    (r : Record)
    (type : RecordType) :
    decoding.Reads (contents p () nested r type) := by
  intro st hGrounded
  cases type with
  | null =>
      exact Goes.bind (Payload.unused_goes true)
        (fun _ _ _ _ =>
          Goes.pure (.atom (v := .null) trivial _))
  | mark =>
      exact Goes.bind (Payload.unused_goes true)
        (fun _ _ _ _ =>
          Goes.pure (.atom (v := .mark) trivial _))
  | integer =>
      exact Goes.bind (Payload.unused_goes false)
        (fun _ _ _ _ =>
          Goes.pure (.atom (v := .integer _) trivial _))
  | boolean =>
      refine Goes.bind (Payload.unused_goes false) ?_
      intro _ _ _ _
      exact Goes.bind Payload.boolean_goes
        (fun _ _ _ _ =>
          Goes.pure (.atom (v := .boolean _) trivial _))
  | real =>
      refine Goes.bind
        (Goes.and Payload.real_goes Payload.real_follows) ?_
      rintro v _ _ ⟨-, hFinite, hExtension⟩
      exact Goes.pure
        (Object.decoded_real hFinite hExtension _)
  | string =>
      refine Goes.bind
        (Goes.and Payload.text_goes Payload.text_follows) ?_
      rintro bytes _ _ ⟨-, hSize⟩
      refine Goes.pure (.atom ?_ _)
      have hLength := r.length.toNat_lt
      unfold Atom.Decoded maxRecordLength
      omega
  | name =>
      exact Goes.bind (Payload.name_decoded hGrounded)
        (fun _ _ _ hName => Goes.pure (.atom hName _))
  | immediateName =>
      refine Goes.bind (Payload.name_decoded hGrounded) ?_
      intro n st' _ _
      exact Goes.throw _
  | array =>
      refine Goes.bind Payload.reserve_goes ?_
      intro _ _ hReads _
      refine Goes.bind
        (hNested _ _ _ (hReads.grounded hGrounded)) ?_
      intro es _ _ hElements
      split
      next o hMake =>
        rcases makeArray_ok hMake with ⟨rfl, hCount, -⟩
        exact Goes.pure (.array hElements hCount _)
      next => exact Goes.throw _

/- An object that is read is decoded. -/
theorem object_decoded
    (p : Payload)
    {nested : Nat → Nat → Reading (List Object)}
    (hNested :
      ∀ offset count,
        decoding.ReadsAll (nested offset count))
    (offset : Nat) :
    decoding.Reads (object p () nested offset) := by
  intro st hGrounded
  rw [object_eq]
  refine Goes.bind (Payload.record_goes offset) ?_
  intro r st' hReads _
  have hGrounded' := hReads.grounded hGrounded
  split
  · exact Goes.throw _
  · exact contents_decoded p hNested r _ st' hGrounded'

/- The elements of a block are decoded. -/
theorem block_decoded
    (p : Payload)
    (levels offset count : Nat) :
    decoding.ReadsAll (block p () levels offset count) :=
  Manner.readsAll_block
    (fun _ hNested offset => object_decoded p hNested offset)
    (fun _ => trivial) levels offset count

/- So is the array that a payload holds. -/
theorem readPayload_decoded
    (h : Header)
    (data : Bytes)
    {t : NameTable}
    (hGrounded : Scope.empty.Grounded t) :
    Goes (TableRead Scope.empty) (fun o t => o.Decoded t)
      (readPayload () h data) t := by
  unfold readPayload
  dsimp only
  split
  · exact Goes.throw _
  · have hBlock :
        Goes (TableRead Scope.empty)
          (fun es t => ∀ e ∈ es, e.Decoded t)
          ((block ⟨data, h.format.order⟩ () (maxNesting + 1)
            0 h.count.toNat).run h.count.toNat data.size) t :=
      goes_run
        (block_decoded ⟨data, h.format.order⟩ (maxNesting + 1)
          0 h.count.toNat
          (Progress.start t h.count.toNat data.size) hGrounded)
        (fun _ hReads => hReads)
    refine Goes.bind hBlock ?_
    intro es _ _ hElements
    split
    next o hMake =>
      rcases makeArray_ok hMake with ⟨rfl, hCount, -⟩
      exact Goes.pure (.array hElements hCount _)
    next => exact Goes.throw _

end Sequence

end PostScript
