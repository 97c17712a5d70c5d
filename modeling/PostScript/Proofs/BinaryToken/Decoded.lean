import PostScript.Proofs.ByteOrder
import PostScript.Proofs.Scanner.Names
import PostScript.Proofs.Sequence.Budget
import PostScript.Proofs.Sequence.Decoded

/-
  This file shows that whatever a binary token stands for,
  where names have no values, can be written in a sequence
  again: also strings, numbers and arrays of numbers.

  Key definitions include:
    * `BinaryToken.Gives`
    * `BinaryToken.IsShort`
    * `BinaryToken.IsPlain`

  Main results:
    * `BinaryToken.gives_read`
    * `BinaryToken.object_decoded`
    * `BinaryToken.decode_decoded`
-/

namespace PostScript

namespace BinaryToken

open Sequence

------------------------------------------------------------
-- Tokens
------------------------------------------------------------

section Reading

variable {σ α β : Type}

/- What was read, if anything was, is of a kind. -/
def Gives
    (V : α → Prop)
    (x : Except Cause α × σ) : Prop :=
  ∀ v, x.1 = .ok v → V v

/- Going on gives what the second part gives. -/
theorem gives_andThen
    {V : α → Prop}
    {W : β → Prop}
    {x : Except Cause α × σ}
    {f : α → σ → Except Cause β × σ}
    (hx : Gives V x)
    (hf : ∀ v s, V v → Gives W (f v s)) :
    Gives W (andThen x f) := by
  rcases x with ⟨result, s⟩
  cases result with
  | ok v => exact hf v s (hx v rfl)
  | error cause => exact nofun

variable [ByteSource σ]

/- Bytes that are taken are as many as were asked for. -/
theorem gives_takeAfter
    (taken : Bytes)
    (n : Nat)
    (src : σ) :
    Gives (fun bytes => bytes.size = taken.size + n)
      (takeAfter taken n src) := by
  induction n generalizing taken src with
  | zero =>
      intro bytes h
      cases h
      rfl
  | succ n ih =>
      unfold takeAfter
      split
      next b s _ =>
        intro bytes h
        rw [ih _ _ bytes h, Array.size_push]
        omega
      next => exact nofun

/- The same for bytes taken from the start. -/
theorem gives_takeBytes
    (n : Nat)
    (src : σ) :
    Gives (fun bytes => bytes.size = n) (takeBytes n src) := by
  intro bytes h
  rw [gives_takeAfter #[] n src bytes h]
  exact Nat.zero_add n

/- A string that is read fits a record. -/
def IsShort : BinaryToken → Prop
  | .string bytes => bytes.size ≤ maxRecordLength
  | _ => True

/- The length of a string is a number of a few bytes. -/
theorem gives_stringOf
    (order : ByteOrder)
    {n : Nat}
    (hSize : power 256 n ≤ maxRecordLength + 1)
    (src : σ) :
    Gives IsShort (stringOf order n src) := by
  refine gives_andThen (gives_takeBytes n src) ?_
  intro length s hLength
  refine gives_andThen (gives_takeBytes _ s) ?_
  intro bytes s' hBytes token h
  have hValue := order.value_lt length.toList
  rw [Array.length_toList, hLength] at hValue
  cases h
  change bytes.size ≤ _
  omega

/- Other tokens hold no strings. -/
theorem gives_fixed
    (n : Nat)
    {f : List UInt8 → BinaryToken}
    (hf : ∀ bs, IsShort (f bs))
    (src : σ) :
    Gives IsShort (fixed n f src) := by
  refine gives_andThen (gives_takeBytes n src) ?_
  intro bytes s _ token h
  cases h
  exact hf _

theorem gives_single
    {f : UInt8 → BinaryToken}
    (hf : ∀ b, IsShort (f b))
    (src : σ) :
    Gives IsShort (single f src) := by
  refine gives_andThen (V := fun _ => True)
    (fun _ _ => trivial) ?_
  intro b s _ token h
  cases h
  exact hf b

theorem gives_numberOf
    (src : σ) :
    Gives IsShort (numberOf src) := by
  refine gives_andThen (V := fun _ => True)
    (fun _ _ => trivial) ?_
  intro f s _
  refine gives_andThen (gives_takeBytes _ s) ?_
  intro bytes s' _ token h
  cases h
  trivial

theorem gives_numberArray
    (n : Nat)
    (unit : NumberFormat → Nat)
    (src : σ) :
    Gives IsShort (numberArray n unit src) := by
  refine gives_andThen (V := fun _ => True)
    (fun _ _ => trivial) ?_
  intro f s _
  refine gives_andThen (gives_takeBytes _ s) ?_
  intro size s' _
  unfold numbersOf
  split
  · exact nofun
  · refine gives_andThen (gives_takeBytes _ s') ?_
    intro bytes s'' _ token h
    cases h
    trivial

theorem gives_sequenceOf
    (token : UInt8)
    (src : σ) :
    Gives IsShort (sequenceOf token src) := by
  refine gives_andThen (V := fun _ => True)
    (fun _ _ => trivial) ?_
  intro count s _
  refine gives_andThen (gives_takeBytes _ s) ?_
  intro more s' _
  split
  · exact nofun
  · refine gives_andThen (gives_takeBytes _ s') ?_
    intro payload s'' _ result h
    cases h
    trivial

/- So the string of any token fits a record. -/
theorem gives_read
    (token : UInt8)
    (src : σ) :
    Gives IsShort (read token src) := by
  unfold read
  split
  any_goals exact gives_sequenceOf _ src
  any_goals
    refine gives_fixed _ ?_ src
    exact fun _ => trivial
  any_goals
    refine gives_single ?_ src
    exact fun _ => trivial
  any_goals exact gives_numberArray _ _ src
  any_goals exact gives_stringOf _ (by decide) src
  · exact gives_numberOf src
  · exact nofun

end Reading

------------------------------------------------------------
-- Numbers
------------------------------------------------------------

/- A number that is finite in single precision. -/
def IsPlain : Number → Prop
  | .integer _ => True
  | .real v => v.isFinite = true ∧ v.extension = 0

/- Such a number is decoded. -/
theorem decoded_ofNumber
    {t : NameTable}
    {n : Number}
    (h : IsPlain n) :
    (Object.ofNumber n).Decoded t := by
  cases n with
  | integer v => exact .atom (v := .integer v) trivial false
  | real v =>
      have hReal :=
        Object.decoded_real (t := t) h.1 h.2 false
      have hSame :
          (Object.real v).withExecutable false =
            Object.real v := by
        unfold Object.real
        split <;> rfl
      rw [hSame] at hReal
      exact hReal

/- It is no array. -/
theorem height_ofNumber
    (n : Number) :
    (Object.ofNumber n).height = 0 := by
  rcases Object.ofNumber_cases n with
    ⟨v, -, h⟩ | h | ⟨v, -, -, h⟩ <;>
    rw [h] <;> rfl

/- A number with a finiteness check is plain. -/
theorem plain_finiteNumber
    {bits : UInt32}
    {n : Number}
    (h : NumberFormat.finiteNumber bits = .ok n) :
    IsPlain n := by
  unfold NumberFormat.finiteNumber at h
  split at h
  next hFinite =>
    cases h
    exact ⟨hFinite, rfl⟩
  next => contradiction

/- A number that is read is plain. -/
theorem plain_read
    {f : NumberFormat}
    {bytes : List UInt8}
    {n : Number}
    (h : f.read bytes = .ok n) :
    IsPlain n := by
  have hScaled :
      ∀ mantissa scale,
        IsPlain (NumberFormat.scaledNumber mantissa scale) :=
    by
    intro mantissa scale
    unfold NumberFormat.scaledNumber
    split
    · trivial
    · exact ⟨FixedPoint.isFinite_toSingle _, rfl⟩
  unfold NumberFormat.read at h
  split at h
  · cases h
    exact hScaled _ _
  · cases h
    exact hScaled _ _
  · exact plain_finiteNumber h
  · exact plain_finiteNumber h

/- All numbers of an array are, by induction on their number. -/
theorem plain_decodeAfter
    {f : NumberFormat}
    {numbers : Array Number}
    {n : Nat}
    {bytes : List UInt8}
    {ns : List Number}
    (hBefore : ∀ v ∈ numbers.toList, IsPlain v)
    (h : NumberArray.decodeAfter f numbers n bytes = .ok ns) :
    ∀ v ∈ ns, IsPlain v := by
  induction n generalizing numbers bytes with
  | zero =>
      cases h
      exact hBefore
  | succ n ih =>
      unfold NumberArray.decodeAfter at h
      split at h
      next v hRead =>
        refine ih ?_ h
        intro v' hv'
        rw [Array.toList_push, List.mem_append,
          List.mem_singleton] at hv'
        rcases hv' with hv' | rfl
        · exact hBefore v' hv'
        · exact plain_read hRead
      next => contradiction

/- An array of numbers is an array of plain numbers. -/
theorem numbersObject_ok
    {f : NumberFormat}
    {bytes : Bytes}
    {o : Object}
    (h : numbersObject () f bytes = .ok o) :
    ∃ ns : List Number, (∀ n ∈ ns, IsPlain n) ∧
      ns.length ≤ maxRecordLength ∧
      o = .array (ns.map Object.ofNumber)
        { executable := false } := by
  unfold numbersObject at h
  split at h
  next ns hDecode =>
    rcases makeArray_ok h with ⟨rfl, hCount, -⟩
    rw [List.length_map] at hCount
    unfold NumberArray.decode at hDecode
    split at hDecode
    · contradiction
    · exact ⟨ns, plain_decodeAfter (fun _ h => by simp at h)
        hDecode, hCount, rfl⟩
  next => contradiction

------------------------------------------------------------
-- Objects of Tokens
------------------------------------------------------------

variable {t : NameTable}

/- A result that is given is decoded if it is so. -/
theorem given_decoded
    {x : Except Cause Object}
    (h : ∀ o, x = .ok o → o.Decoded t) :
    Goes (TableRead Scope.empty) (fun o t => o.Decoded t)
      (given x) t := by
  cases x with
  | ok o => exact Goes.pure (h o rfl)
  | error cause => exact Goes.throw _

/- The object of a token is decoded. -/
theorem object_decoded
    {token : BinaryToken}
    (hShort : IsShort token)
    (hGrounded : Scope.empty.Grounded t) :
    Goes (TableRead Scope.empty) (fun o t => o.Decoded t)
      (token.object ()) t := by
  cases token with
  | sequence h payload =>
      exact readPayload_decoded h payload hGrounded
  | integer v =>
      exact Goes.pure (.atom (v := .integer v) trivial false)
  | number f bytes =>
      apply given_decoded
      intro o h
      rcases of_map_ok h with ⟨n, hRead, rfl⟩
      exact decoded_ofNumber (plain_read hRead)
  | real bits =>
      apply given_decoded
      intro o h
      rcases of_map_ok h with ⟨n, hRead, rfl⟩
      exact decoded_ofNumber (plain_finiteNumber hRead)
  | boolean v =>
      unfold object
      dsimp only
      split
      · exact Goes.pure
          (.atom (v := .boolean false) trivial false)
      · split
        · exact Goes.pure
            (.atom (v := .boolean true) trivial false)
        · exact Goes.throw _
  | string bytes =>
      exact Goes.pure (.atom (v := .string bytes) hShort false)
  | systemName index executable =>
      unfold object systemNameObject
      apply Goes.get_bind
      split
      next n hSystem =>
        exact Goes.pure (.atom (v := .name n)
          ⟨hGrounded.holds_systemName hSystem,
            .inl (Array.mem_of_getElem? hSystem)⟩ executable)
      next => exact Goes.throw _
  | userName index => exact Goes.throw _
  | numbers f bytes =>
      apply given_decoded
      intro o h
      rcases numbersObject_ok h with
        ⟨ns, hPlain, hCount, rfl⟩
      refine .array ?_ ?_ false
      · intro e he
        rcases List.mem_map.mp he with ⟨n, hn, rfl⟩
        exact decoded_ofNumber (hPlain n hn)
      · rw [List.length_map]
        exact hCount

/- Numbers do not nest. -/
theorem tallest_ofNumber
    (ns : List Number) :
    Object.tallest 0 (ns.map Object.ofNumber) = 0 := by
  induction ns with
  | nil => rfl
  | cons n ns ih =>
      rw [List.map_cons, Object.tallest_cons, ih,
        height_ofNumber]
      rfl

/- A result that is given is the one that there was. -/
theorem given_ok
    {x : Except Cause Object}
    {o : Object}
    {t' : NameTable}
    (h : given x t = .ok o t') :
    x = .ok o := by
  cases x with
  | ok o' =>
      cases h
      rfl
  | error cause => contradiction

/- No token nests deeper than a sequence may. -/
theorem height_object
    {token : BinaryToken}
    {o : Object}
    {t' : NameTable}
    (h : token.object () t = .ok o t') :
    o.height ≤ maxNesting + 1 := by
  have hNone : 0 ≤ maxNesting + 1 := Nat.zero_le _
  cases token with
  | sequence head payload =>
      have hSpends := tracePayload_spends () head payload t
      rw [tracePayload_fst] at hSpends
      exact (hSpends.2 o t' h flat_unit).2
  | integer v =>
      cases h
      exact hNone
  | number f bytes =>
      rcases of_map_ok (given_ok h) with
        ⟨n, -, rfl⟩
      rw [height_ofNumber]
      exact hNone
  | real bits =>
      rcases of_map_ok (given_ok h) with
        ⟨n, -, rfl⟩
      rw [height_ofNumber]
      exact hNone
  | boolean v =>
      unfold object at h
      dsimp only at h
      split at h
      · cases h
        exact hNone
      · split at h
        · cases h
          exact hNone
        · contradiction
  | string bytes =>
      cases h
      exact hNone
  | systemName index executable =>
      unfold object systemNameObject at h
      dsimp only at h
      rw [get_bind] at h
      cases hSystem : t.systemName? index with
      | none =>
          rw [hSystem] at h
          contradiction
      | some n =>
          rw [hSystem] at h
          cases h
          exact hNone
  | userName index => contradiction
  | numbers f bytes =>
      rcases numbersObject_ok (given_ok h) with
        ⟨ns, -, -, rfl⟩
      rw [Object.height, tallest_ofNumber]
      decide

/- What is decoded is the object of a token that is read. -/
theorem decode_ok
    {data : Bytes}
    {o : Object}
    {used : Nat}
    {t' : NameTable}
    (h : decode () data t = .ok (o, used) t') :
    ∃ lead token, ∃ r r' : Reader,
      read lead r = (.ok token, r') ∧
        token.object () t = .ok o t' := by
  unfold decode at h
  cases hNext : Reader.next (Reader.ofList data.toList) with
  | mk fetch r =>
      rw [hNext] at h
      cases fetch with
      | atEnd | failed message => contradiction
      | byte lead =>
          dsimp only at h
          split at h
          · contradiction
          · cases hRead : read lead r with
            | mk result r' =>
                rw [hRead] at h
                cases result with
                | error cause => contradiction
                | ok token =>
                    change (token.object () >>= fun o =>
                      pure (o, r'.offset)) t = _ at h
                    cases hObject : token.object () t with
                    | error cause t'' =>
                        rw [bind_of_error hObject] at h
                        contradiction
                    | ok o' t'' =>
                        rw [bind_of_ok hObject] at h
                        cases h
                        exact ⟨lead, token, r, r', hRead,
                          hObject⟩

/-
  Whatever is decoded where names have no values is known to
  the table and can be written again.
-/
theorem decode_decoded
    {data : Bytes}
    {o : Object}
    {used : Nat}
    {t' : NameTable}
    (hGrounded : Scope.empty.Grounded t)
    (h : decode () data t = .ok (o, used) t') :
    Sequence.TableRead Scope.empty t t' ∧ o.Decoded t' ∧
      o.height ≤ maxNesting + 1 := by
  rcases decode_ok h with
    ⟨lead, token, r, r', hRead, hObject⟩
  have hShort : IsShort token :=
    gives_read lead r token (by rw [hRead])
  rcases (object_decoded hShort hGrounded).of_ok hObject with
    ⟨hReads, hDecoded⟩
  exact ⟨hReads, hDecoded, height_object hObject⟩

end BinaryToken

end PostScript
