import Mathlib.Logic.Basic
import PostScript.Proofs.Sequence.Layout

/-
  This file defines a writer of sequences that notes which
  bytes it puts where. Without its notes it is the writer that
  the notes are about, and the bytes that it has put give its
  data back. Filling in objects puts bytes once on the space
  that it writes, and nowhere else.

  Key definitions include:
    * `Sequence.Put`
    * `Sequence.Log`
    * `Sequence.Writer.logObject`
    * `Sequence.Writer.logAll`
    * `Sequence.timesPut`

  Main results:
    * `Sequence.Writer.logAll_erases`
    * `Sequence.Writer.logObjects_extends`
-/

namespace PostScript.Sequence

------------------------------------------------------------
-- Logs
------------------------------------------------------------

/- Bytes that are put at an offset. -/
structure Put where
  offset : Nat
  bytes : List UInt8
deriving DecidableEq, Repr

/- Whether a byte is put at an index. -/
def Put.covers
    (i : Nat)
    (p : Put) : Bool :=
  p.offset ≤ i && i < p.offset + p.bytes.length

/- How often a byte is put at an index. -/
def timesPut
    (i : Nat)
    (puts : List Put) : Nat :=
  puts.countP (Put.covers i)

/- What becomes of data when bytes are put, the last first. -/
def replay
    (data : Bytes)
    (puts : List Put) : Bytes :=
  puts.foldr (fun p d => Arena.put d p.offset p.bytes) data

/- An arena with all that has been put, the last first. -/
structure Log where
  arena : Arena
  puts : List Put

namespace Log

/- Put text at the top. -/
def putText
    (text : Bytes)
    (l : Log) : Except Cause (Nat × Log) :=
  match l.arena.putText text with
  | .error cause => .error cause
  | .ok (start, arena) =>
      .ok (start, ⟨arena, ⟨start, text.toList⟩ :: l.puts⟩)

/- Put a record at an offset. -/
def putRecord
    (order : ByteOrder)
    (offset : Nat)
    (r : Record)
    (l : Log) : Log :=
  ⟨l.arena.putRecord order offset r,
    ⟨offset, r.bytes order⟩ :: l.puts⟩

/- Take space for records, which puts nothing. -/
def takeRecords
    (count : Nat)
    (l : Log) : Except Cause (Nat × Log) :=
  match l.arena.takeRecords count with
  | .error cause => .error cause
  | .ok (start, arena) => .ok (start, ⟨arena, l.puts⟩)

end Log

------------------------------------------------------------
-- Writing with Notes
------------------------------------------------------------

namespace Writer

/- Put the text of a record and give the record. -/
def logText
    (type : RecordType)
    (executable : Bool)
    (text : Bytes)
    (l : Log) : Except Cause (Record × Log) :=
  match l.putText text with
  | .error cause => .error cause
  | .ok (start, l') =>
      .ok (⟨type.code, executable, UInt16.ofNat text.size,
        UInt32.ofNat start⟩, l')

variable (w : Writer)

/- The record of an atom that has no text. -/
def logPlain
    (executable : Bool)
    (l : Log)
    (v : Atom) : Except Cause (Record × Log) :=
  match w.atomRecord executable l.arena v with
  | .error cause => .error cause
  | .ok (r, arena) => .ok (r, ⟨arena, l.puts⟩)

/- The record of an atom. -/
def logAtom
    (executable : Bool)
    (l : Log) :
    Atom → Except Cause (Record × Log)
  | .string bytes => logText .string executable bytes l
  | .name n =>
      match w.nameIndex? n with
      | some _ => w.logPlain executable l (.name n)
      | none => logText .name executable n.bytes l
  | v => w.logPlain executable l v

/- Fill in the record of an object and all below it. -/
mutual

def logObject
    (offset : Nat)
    (l : Log) : Object → Except Cause Log
  | .atom v a =>
      match w.logAtom a.executable l v with
      | .error cause => .error cause
      | .ok (r, l') =>
          .ok (l'.putRecord w.format.order offset r)
  | .array es a =>
      match l.takeRecords es.length with
      | .error cause => .error cause
      | .ok (start, l') =>
          logObjects start
            (l'.putRecord w.format.order offset
              ⟨RecordType.array.code, a.executable,
                UInt16.ofNat es.length,
                UInt32.ofNat start⟩) es

def logObjects
    (offset : Nat)
    (l : Log) : List Object → Except Cause Log
  | [] => .ok l
  | e :: es =>
      match logObject offset l e with
      | .error cause => .error cause
      | .ok l' =>
          logObjects (offset + recordSize) l' es

end

/- The header of a sequence and the log of its payload. -/
def logAll
    (objects : List Object) : Except Cause (Header × Log) :=
  match w.measure objects with
  | .error cause => .error cause
  | .ok x =>
      match Header.forPayload w.format objects.length
          x.bytes with
      | .error cause => .error cause
      | .ok h =>
          match w.logObjects 0
              ⟨Arena.ofExtent x objects.length, []⟩
              objects with
          | .error cause => .error cause
          | .ok l =>
              if l.arena.bottom = l.arena.top then
                .ok (h, l)
              else
                .error .layoutMismatch

------------------------------------------------------------
-- Erasure
------------------------------------------------------------

variable {w}

/- Text is put as without notes. -/
theorem logText_erases
    (type : RecordType)
    (executable : Bool)
    (text : Bytes)
    (l : Log) :
    (logText type executable text l).map
        (fun x => (x.1, x.2.arena)) =
      textRecord type executable text l.arena := by
  unfold logText textRecord Log.putText
  cases l.arena.putText text <;> rfl

/- So is an atom that has no text. -/
theorem logPlain_erases
    (executable : Bool)
    (l : Log)
    (v : Atom) :
    (w.logPlain executable l v).map
        (fun x => (x.1, x.2.arena)) =
      w.atomRecord executable l.arena v := by
  unfold logPlain
  cases w.atomRecord executable l.arena v <;> rfl

/- So is any atom. -/
theorem logAtom_erases
    (executable : Bool)
    (l : Log)
    (v : Atom) :
    (w.logAtom executable l v).map
        (fun x => (x.1, x.2.arena)) =
      w.atomRecord executable l.arena v := by
  cases v with
  | string bytes => exact logText_erases ..
  | name n =>
      unfold logAtom
      dsimp only
      cases hIndex : w.nameIndex? n with
      | some i => exact logPlain_erases ..
      | none =>
          dsimp only
          rw [logText_erases]
          unfold atomRecord
          dsimp only
          rw [hIndex]
  | null => exact logPlain_erases executable l .null
  | mark => exact logPlain_erases executable l .mark
  | infinity => exact logPlain_erases executable l .infinity
  | integer v =>
      exact logPlain_erases executable l (.integer v)
  | real v => exact logPlain_erases executable l (.real v)
  | boolean v =>
      exact logPlain_erases executable l (.boolean v)

/- Objects are filled in as without notes. -/
mutual

theorem logObject_erases
    (offset : Nat)
    (l : Log) :
    ∀ o : Object,
      (w.logObject offset l o).map Log.arena =
        w.fillObject offset l.arena o
  | .atom v a => by
      have hAtom := logAtom_erases (w := w) a.executable l v
      unfold logObject fillObject
      rw [← hAtom]
      cases w.logAtom a.executable l v <;> rfl
  | .array es a => by
      unfold logObject fillObject Log.takeRecords
      cases l.arena.takeRecords es.length with
      | error cause => rfl
      | ok found => exact logObjects_erases _ _ es

theorem logObjects_erases
    (offset : Nat)
    (l : Log) :
    ∀ es : List Object,
      (w.logObjects offset l es).map Log.arena =
        w.fillObjects offset l.arena es
  | [] => rfl
  | e :: es => by
      have hHead := logObject_erases offset l e
      unfold logObjects fillObjects
      rw [← hHead]
      cases w.logObject offset l e with
      | error cause => rfl
      | ok l' => exact logObjects_erases _ l' es

end

/- A sequence is written as without notes. -/
theorem logAll_erases
    (objs : List Object) :
    (w.logAll objs).map
        (fun x => x.1.bytes.toArray ++ x.2.arena.data) =
      w.writeAll objs := by
  unfold logAll writeAll fill
  cases w.measure objs with
  | error cause => rfl
  | ok x =>
      dsimp only
      cases Header.forPayload w.format objs.length x.bytes with
      | error cause => rfl
      | ok h =>
          dsimp only
          have hFill :=
            logObjects_erases (w := w) 0
              ⟨Arena.ofExtent x objs.length, []⟩ objs
          dsimp only at hFill
          rw [← hFill]
          cases w.logObjects 0
              ⟨Arena.ofExtent x objs.length, []⟩ objs with
          | error cause => rfl
          | ok l =>
              dsimp only [Except.map]
              by_cases hFull : l.arena.bottom = l.arena.top
              · rw [if_pos hFull, if_pos hFull]
              · rw [if_neg hFull, if_neg hFull]

end Writer

------------------------------------------------------------
-- Written Space
------------------------------------------------------------

/- A put covers an index if this is one of its bytes. -/
theorem Put.covers_iff
    {i : Nat}
    {p : Put} :
    p.covers i = true ↔
      p.offset ≤ i ∧ i < p.offset + p.bytes.length := by
  unfold covers
  rw [Bool.and_eq_true, decide_eq_true_eq, decide_eq_true_eq]

/- One more put counts where it covers. -/
theorem timesPut_cons
    (i : Nat)
    (p : Put)
    (puts : List Put) :
    timesPut i (p :: puts) =
      timesPut i puts + if p.covers i then 1 else 0 :=
  List.countP_cons

/- What is counted in one of two places is counted once. -/
theorem count_of_either
    {p q r : Prop}
    [Decidable p]
    [Decidable q]
    [Decidable r]
    (hEither : r ↔ p ∨ q)
    (hApart : ¬ (p ∧ q)) :
    ((if p then 1 else 0) + if q then 1 else 0) =
      if r then 1 else 0 := by
  by_cases hp : p
  · have hq : ¬ q := fun hq => hApart ⟨hp, hq⟩
    rw [if_pos hp, if_neg hq, if_pos (hEither.mpr (.inl hp))]
  · rw [if_neg hp, Nat.zero_add]
    refine if_congr ?_ rfl rfl
    rw [hEither]
    exact (or_iff_right hp).symm

instance
    {offset count : Nat}
    {a a' : Arena}
    {i : Nat} :
    Decidable (Arena.Written offset count a a' i) :=
  inferInstanceAs (Decidable (_ ∧ _ ∨ _ ∧ _ ∨ _ ∧ _))

/-
  A log goes on while `count` records at an offset are filled
  in. What is put makes the difference to the data, and each
  byte of the space that is written is put once.
-/
structure Log.Extends
    (offset count : Nat)
    (l l' : Log) : Prop where
  grows : Arena.Grows offset count l.arena l'.arena
  replayed :
    ∀ data, l.arena.data = replay data l.puts →
      l'.arena.data = replay data l'.puts
  once :
    ∀ i, timesPut i l'.puts =
      timesPut i l.puts +
        if Arena.Written offset count l.arena l'.arena i then
          1
        else
          0

namespace Log

/- Nothing is put for no records. -/
theorem Extends.refl
    (offset : Nat)
    {l : Log}
    (hApart : l.arena.bottom ≤ l.arena.top) :
    Extends offset 0 l l := by
  refine ⟨.refl offset hApart, fun _ h => h, ?_⟩
  intro i
  rw [if_neg, Nat.add_zero]
  unfold Arena.Written
  omega

/- Records are filled in one after another. -/
theorem Extends.trans
    {offset m n : Nat}
    {l l' l'' : Log}
    (hFirst : Extends offset m l l')
    (hNext :
      Extends (offset + m * recordSize) n l' l'')
    (hBelow :
      offset + (m + n) * recordSize ≤ l.arena.bottom) :
    Extends offset (m + n) l l'' := by
  refine ⟨hFirst.grows.trans hNext.grows,
    fun data h => hNext.replayed data
      (hFirst.replayed data h), ?_⟩
  intro i
  have hBottom := hFirst.grows.bottom
  have hTop := hFirst.grows.top
  have hBottom' := hNext.grows.bottom
  have hTop' := hNext.grows.top
  have hApart := hNext.grows.apart
  unfold recordSize at hBelow
  rw [hNext.once i, hFirst.once i, Nat.add_assoc]
  congr 1
  apply count_of_either
  · unfold Arena.Written recordSize
    omega
  · unfold Arena.Written recordSize
    omega

/- The space of text is written once. -/
theorem putText_extends
    {text : Bytes}
    {l l' : Log}
    {start : Nat}
    (hPut : l.putText text = .ok (start, l'))
    (hApart : l.arena.bottom ≤ l.arena.top) :
    Extends 0 0 l l' := by
  unfold putText at hPut
  cases hArena : l.arena.putText text with
  | error cause =>
      rw [hArena] at hPut
      contradiction
  | ok found =>
      rcases found with ⟨start', a⟩
      rw [hArena] at hPut
      simp only [Except.ok.injEq, Prod.mk.injEq] at hPut
      rcases hPut with ⟨rfl, rfl⟩
      have hGrows := Arena.putText_grows hArena hApart
      unfold Arena.putText at hArena
      split at hArena
      next hEmpty =>
        simp only [Except.ok.injEq, Prod.mk.injEq] at hArena
        rcases hArena with ⟨rfl, rfl⟩
        rw [Array.isEmpty_iff] at hEmpty
        subst hEmpty
        refine ⟨hGrows, fun _ h => h, ?_⟩
        intro i
        rw [timesPut_cons]
        congr 1
        refine if_congr ?_ rfl rfl
        rw [Put.covers_iff, List.length_nil]
        unfold Arena.Written
        dsimp only
        omega
      next hSome =>
        split at hArena
        · contradiction
        next hRoom =>
          simp only [Except.ok.injEq, Prod.mk.injEq] at hArena
          rcases hArena with ⟨rfl, rfl⟩
          refine ⟨hGrows, ?_, ?_⟩
          · intro data h
            exact congrArg
              (fun d => Arena.put d _ text.toList) h
          · intro i
            rw [timesPut_cons]
            congr 1
            refine if_congr ?_ rfl rfl
            have hLength : text.toList.length = text.size :=
              Array.length_toList
            rw [Put.covers_iff]
            unfold Arena.Written
            dsimp only at hLength ⊢
            omega

/- The space of a record is written once. -/
theorem Extends.putRecord
    {l l' : Log}
    (hText : Extends 0 0 l l')
    (order : ByteOrder)
    {offset : Nat}
    (r : Record)
    (hBelow : offset + recordSize ≤ l.arena.bottom) :
    Extends offset 1 l (l'.putRecord order offset r) := by
  refine ⟨hText.grows.putRecord order offset r, ?_, ?_⟩
  · intro data h
    exact congrArg
      (fun d => Arena.put d offset (r.bytes order))
      (hText.replayed data h)
  · intro i
    have hApart := hText.grows.apart
    have hBottom := hText.grows.bottom
    unfold recordSize at hBelow
    unfold Log.putRecord
    rw [timesPut_cons, hText.once i, Nat.add_assoc]
    congr 1
    apply count_of_either
    · rw [Put.covers_iff, Record.length_bytes]
      unfold Arena.Written Arena.putRecord recordSize
      cases l'.arena
      dsimp only
      omega
    · rw [Put.covers_iff, Record.length_bytes]
      unfold Arena.Written recordSize
      dsimp only
      omega

end Log

------------------------------------------------------------
-- Filling
------------------------------------------------------------

namespace Writer

variable {w : Writer}

/- The text of an atom is put once. -/
theorem logAtom_extends
    {executable : Bool}
    {l l' : Log}
    {v : Atom}
    {r : Record}
    (hAtom : w.logAtom executable l v = .ok (r, l'))
    (hApart : l.arena.bottom ≤ l.arena.top) :
    Log.Extends 0 0 l l' := by
  have hText :
      ∀ {type : RecordType} {text : Bytes},
        logText type executable text l = .ok (r, l') →
          Log.Extends 0 0 l l' := by
    intro type text h
    unfold logText at h
    cases hPut : l.putText text with
    | error cause =>
        rw [hPut] at h
        contradiction
    | ok found =>
        rw [hPut] at h
        simp only [Except.ok.injEq, Prod.mk.injEq] at h
        rw [← h.2]
        exact Log.putText_extends hPut hApart
  have hPlain :
      ∀ {r₀ : Record},
        w.atomRecord executable l.arena v =
            .ok (r₀, l.arena) →
          w.logPlain executable l v = .ok (r, l') →
            Log.Extends 0 0 l l' := by
    intro r₀ hRecord h
    unfold logPlain at h
    rw [hRecord] at h
    simp only [Except.ok.injEq, Prod.mk.injEq] at h
    rw [← h.2]
    exact Log.Extends.refl 0 hApart
  cases v with
  | infinity => contradiction
  | string bytes => exact hText hAtom
  | name n =>
      unfold logAtom at hAtom
      dsimp only at hAtom
      cases hIndex : w.nameIndex? n with
      | none =>
          rw [hIndex] at hAtom
          exact hText hAtom
      | some i =>
          rw [hIndex] at hAtom
          have hRecord :
              w.atomRecord executable l.arena (.name n) =
                .ok (⟨RecordType.name.code, executable,
                  systemNameLength, UInt32.ofNat i⟩,
                  l.arena) := by
            unfold atomRecord
            dsimp only
            rw [hIndex]
          exact hPlain hRecord hAtom
  | null | mark | integer v | boolean v | real v =>
      exact hPlain rfl hAtom

/-
  Filling in objects puts bytes once on the space it writes,
  by induction on the objects. The records must lie below the
  bottom.
-/
mutual

theorem logObject_extends
    {offset : Nat}
    {l l' : Log} :
    ∀ {o : Object},
      w.logObject offset l o = .ok l' →
      offset + recordSize ≤ l.arena.bottom →
      l.arena.bottom ≤ l.arena.top →
        Log.Extends offset 1 l l'
  | .atom v a => by
      intro hLog hBelow hApart
      unfold logObject at hLog
      cases hAtom : w.logAtom a.executable l v with
      | error cause =>
          rw [hAtom] at hLog
          contradiction
      | ok found =>
          rcases found with ⟨r, l₁⟩
          rw [hAtom] at hLog
          simp only [Except.ok.injEq] at hLog
          subst hLog
          exact (logAtom_extends hAtom hApart).putRecord _ r
            hBelow
  | .array es a => by
      intro hLog hBelow hApart
      have hErase :=
        logObject_erases (w := w) offset l (.array es a)
      rw [hLog] at hErase
      have hGrows :=
        fillObject_grows hErase.symm hBelow hApart
      unfold logObject Log.takeRecords at hLog
      cases hTake : l.arena.takeRecords es.length with
      | error cause =>
          rw [hTake] at hLog
          contradiction
      | ok found =>
          rcases found with ⟨start, b⟩
          rw [hTake] at hLog
          rcases Arena.takeRecords_ok hTake with
            ⟨rfl, rfl, hRoom⟩
          dsimp only at hLog
          have hNested :=
            logObjects_extends hLog (Nat.le_refl _) hRoom
          refine ⟨hGrows, ?_, ?_⟩
          · intro data h
            exact hNested.replayed data (congrArg
              (fun d => Arena.put d offset _) h)
          · intro i
            have hBottom := hNested.grows.bottom
            have hApart' := hNested.grows.apart
            unfold Log.putRecord Arena.putRecord at hBottom
            unfold recordSize at hBelow hBottom
            dsimp only at hBottom
            rw [hNested.once i]
            unfold Log.putRecord
            rw [timesPut_cons, Nat.add_assoc]
            congr 1
            apply count_of_either
            · rw [Put.covers_iff, Record.length_bytes]
              unfold Arena.Written Arena.putRecord recordSize
              dsimp only
              omega
            · rw [Put.covers_iff, Record.length_bytes]
              unfold Arena.Written Arena.putRecord recordSize
              dsimp only
              omega

theorem logObjects_extends
    {offset : Nat}
    {l l' : Log} :
    ∀ {es : List Object},
      w.logObjects offset l es = .ok l' →
      offset + es.length * recordSize ≤ l.arena.bottom →
      l.arena.bottom ≤ l.arena.top →
        Log.Extends offset es.length l l'
  | [] => by
      intro hLog _ hApart
      unfold logObjects at hLog
      simp only [Except.ok.injEq] at hLog
      subst hLog
      exact Log.Extends.refl offset hApart
  | e :: es => by
      intro hLog hBelow hApart
      rw [List.length_cons, Nat.add_comm es.length 1]
        at hBelow ⊢
      unfold logObjects at hLog
      cases hHead : w.logObject offset l e with
      | error cause =>
          rw [hHead] at hLog
          contradiction
      | ok l₁ =>
          rw [hHead] at hLog
          have hHere := hBelow
          rw [Nat.add_mul, Nat.one_mul] at hHere
          have hFirst :=
            logObject_extends hHead (by omega) hApart
          have hBottom := hFirst.grows.bottom
          have hNext :=
            logObjects_extends hLog (by omega)
              hFirst.grows.apart
          apply hFirst.trans _ hBelow
          rw [Nat.one_mul]
          exact hNext

end

end Writer

end PostScript.Sequence
