import Mathlib.Order.Monotone.Basic
import PostScript.Proofs.Scanner.Concatenation
import PostScript.Proofs.Scanner.Trails
import PostScript.Proofs.Source.Delivery

/-
  This file shows that it does not matter where the bytes of a
  program come from. Calls on a device are answered like calls
  on memory, however the device cuts its bytes into blocks.
  Where the device fails at a position, this goes on for all
  calls that do not ask for that position, and the first call
  that asks for it fails as well.

  Key definitions include:
    * `Scanner.after`
    * `Scanner.Outcome`
    * `Scanner.outcome`
    * `Scanner.asked`

  Main results:
    * `Scanner.scan_trail`
    * `Scanner.offset_mem_asked`
    * `Scanner.asked_mono`
    * `Scanner.outcome_delivered`
-/

namespace PostScript.Scanner

open ByteSource

------------------------------------------------------------
-- Calls
------------------------------------------------------------

section Calls

variable {σ ε : Type}
variable [ByteSource σ]
variable [Environment ε]

/- What is left after a number of calls, also failing ones. -/
def after
    (cfg : ScanSettings)
    (r : Rest σ ε) : Nat → Rest σ ε
  | 0 => r
  | k + 1 => (scan cfg (after cfg r k)).2

/- What can be seen of a call, beside its source. -/
structure Outcome (ε : Type) where
  result : Except Error (Option Object)
  line : Int
  names : NameTable
  env : ε

/- What can be seen of one call. -/
def outcomeOf
    (cfg : ScanSettings)
    (r : Rest σ ε) : Outcome ε :=
  ⟨(scan cfg r).1, line (scan cfg r).2.source,
    (scan cfg r).2.names, (scan cfg r).2.env⟩

/- What can be seen of the call behind `k` others. -/
def outcome
    (cfg : ScanSettings)
    (r : Rest σ ε)
    (k : Nat) : Outcome ε :=
  outcomeOf cfg (after cfg r k)

/- At the end of the input nothing is read. -/
theorem scan_atEnd
    {s s' : σ}
    (cfg : ScanSettings)
    (names : NameTable)
    (env : ε)
    (hNext : next s = (.atEnd, s')) :
    scan cfg ⟨s, names, env⟩ = (.ok none, ⟨s', names, env⟩) := by
  unfold scan
  dsimp only
  rw [readObject_step, Lexeme.read, Lexeme.skipBlanks_eq, hNext]
  rfl

/- A source that fails at once makes the call fail. -/
theorem scan_failed
    {s s' : σ}
    {m : String}
    (cfg : ScanSettings)
    (names : NameTable)
    (env : ε)
    (hNext : next s = (.failed m, s')) :
    scan cfg ⟨s, names, env⟩ =
      (.error (.inToken (.source m) #[]), ⟨s', names, env⟩) := by
  unfold scan
  dsimp only
  rw [readObject_step, Lexeme.read, Lexeme.skipBlanks_eq, hNext]

end Calls

------------------------------------------------------------
-- Positions
------------------------------------------------------------

section Positions

variable {ε : Type}
variable [Environment ε]

/-
  The positions at which a call asks for a byte, or for the
  end of the input.
-/
def asked
    (cfg : ScanSettings)
    (r : Rest Reader ε) : List Nat :=
  (scan cfg
    ⟨(⟨r.source, []⟩ : Watched), r.names, r.env⟩).2.source.asked

/- What is noted beside a reader does not change the calls. -/
theorem tracks_reader :
    Tracks
      (fun (r : Reader) (w : Watched) => w.reader = r)
      (fun _ _ => False)
      (fun _ => False) where
  next := by
    rintro r w rfl
    change Answers _ _ _ (next w.reader)
      ((next w.reader).1, (⟨(next w.reader).2, _⟩ : Watched))
    rcases next w.reader with ⟨b | _ | m, r'⟩
    · exact .byte b rfl rfl
    · exact .atEnd id rfl
    · exact .failed m rfl
  past := nofun

/- The trail of a call on memory, with what is asked for. -/
theorem scan_trail
    (cfg : ScanSettings)
    (r : Rest Reader ε) :
    ∃ es v w,
      Trail (⟨r.source, []⟩ : Watched) es w ∧
        Reading.Yields
          (fun _ _ t => scan cfg ⟨t, r.names, r.env⟩)
          (leaving ε) es v ∧
        w.asked = asked cfg r ∧
          scan cfg r = leaving ε _ v w.reader := by
  rcases scan_local cfg r.names r.env
      (⟨r.source, []⟩ : Watched) with
    ⟨es, v, w, hTrail, hYields⟩
  have hScan := hYields hTrail
  dsimp only at hScan
  refine ⟨es, v, w, hTrail, hYields, ?_, ?_⟩
  · unfold asked
    rw [hScan]
  · have hReader :
        (⟨r.source, []⟩ : Watched).reader = r.source := rfl
    rcases scan_alike tracks_reader cfg hReader r.names r.env
      with ⟨result, _, w', names', env', hPlain, hWatched, rfl⟩
    rw [hScan] at hWatched
    cases hWatched
    exact hPlain

/- Every call asks for something, and first where it starts. -/
theorem offset_mem_asked
    (cfg : ScanSettings)
    (r : Rest Reader ε) :
    r.source.offset ∈ asked cfg r := by
  rcases scan_trail cfg r with
    ⟨es, v, w, hTrail, hYields, hAsked, -⟩
  rw [← hAsked]
  cases hTrail with
  | nil =>
      -- Without an answer, an end would be like a failure.
      have hEnd := hYields (.nil (Reader.ofList []))
      have hFail :=
        hYields (.nil (Stream.ofDeliveries [] (some "")))
      dsimp only at hEnd hFail
      rw [scan_atEnd cfg r.names r.env rfl] at hEnd
      rw [scan_failed cfg r.names r.env rfl] at hFail
      have hValue := congrArg Prod.fst hEnd
      rw [← congrArg Prod.fst hFail] at hValue
      cases hValue
  | kept hNext hRest =>
      exact Watched.offset_asked hNext rfl hRest
  | @returned _ w' _ b _ hNext hRest =>
      exact Watched.offset_asked (m := pushBack b w') hNext rfl
        hRest

/- What is asked for is not behind what has been read. -/
theorem asked_le_offset
    (cfg : ScanSettings)
    (r : Rest Reader ε) :
    ∀ p ∈ asked cfg r, p ≤ (scan cfg r).2.source.offset := by
  rcases scan_trail cfg r with
    ⟨es, v, w, hTrail, -, hAsked, hScan⟩
  rw [← hAsked, hScan]
  exact Watched.asked_le hTrail nofun

/- So no call asks for less than the calls before it. -/
theorem asked_mono
    (cfg : ScanSettings)
    (r : Rest Reader ε)
    {j k n : Nat}
    (hjk : j ≤ k)
    (hAsked : ∀ p ∈ asked cfg (after cfg r k), p < n) :
    ∀ p ∈ asked cfg (after cfg r j), p < n := by
  have hStep : ∀ k,
      (after cfg r k).source.offset ≤
        (after cfg r (k + 1)).source.offset :=
    fun k => asked_le_offset cfg _ _ (offset_mem_asked cfg _)
  rcases Nat.eq_or_lt_of_le hjk with rfl | hLess
  · exact hAsked
  · intro p hp
    calc
      p ≤ (after cfg r (j + 1)).source.offset :=
        asked_le_offset cfg _ p hp
      _ ≤ (after cfg r k).source.offset :=
        monotone_nat_of_le_succ hStep hLess
      _ < n := hAsked _ (offset_mem_asked cfg _)

end Positions

------------------------------------------------------------
-- Devices
------------------------------------------------------------

section Devices

variable {ε : Type}
variable [Environment ε]
variable {n : Nat}
variable {s : Stream}
variable {r : Reader}

/- What is left of a device and of memory, in step. -/
inductive Rest.InStep
    (n : Nat)
    (outage : Option String) :
    Rest Stream ε → Rest Reader ε → Prop where
  | intro
      {s : Stream}
      {r : Reader}
      (hOutage : s.outage = outage)
      (hStep : PostScript.InStep n s r)
      (names : NameTable)
      (env : ε) :
      Rest.InStep n outage ⟨s, names, env⟩ ⟨r, names, env⟩

variable {outage : Option String}
variable {r₁ : Rest Stream ε}
variable {r₂ : Rest Reader ε}

/-
  A call that does not ask for the position is answered alike,
  and leaves both in step.
-/
theorem scan_inStep
    (cfg : ScanSettings)
    (h : Rest.InStep n outage r₁ r₂)
    (hBefore :
      outage = none ∨ ∀ p ∈ asked cfg r₂, p < n) :
    (scan cfg r₁).1 = (scan cfg r₂).1 ∧
      Rest.InStep n outage (scan cfg r₁).2 (scan cfg r₂).2 := by
  rcases h with @⟨s, r, hOutage, hStep, names, env⟩
  rcases scan_trail cfg (⟨r, names, env⟩ : Rest Reader ε) with
    ⟨es, v, w, hTrail, hYields, hAsked, hScan⟩
  rw [← hAsked, ← hOutage] at hBefore
  rcases hStep.trail hTrail hBefore with
    ⟨t, hTrail', hSame, hEnd⟩
  have hScan' : scan cfg ⟨s, names, env⟩ = leaving ε _ v t :=
    hYields hTrail'
  rw [hScan, hScan']
  exact ⟨rfl, .intro (hSame.trans hOutage) hEnd _ _⟩

/- A call that asks for it fails where the device does. -/
theorem scan_outage
    (cfg : ScanSettings)
    (h : Rest.InStep n outage r₁ r₂)
    (hFails : outage ≠ none)
    {p : Nat}
    (hMem : p ∈ asked cfg r₂)
    (hBehind : n ≤ p) :
    ∃ e, (scan cfg r₁).1 = .error e ∧ e.kind = .ioError := by
  rcases h with @⟨s, r, hOutage, hStep, names, env⟩
  rw [← hOutage] at hFails
  have hBefore : InStepBefore n s ⟨r, []⟩ :=
    ⟨hStep, hFails, nofun⟩
  have hPasses :=
    scan_passes (tracks_watched n) cfg
      (.intro (.inl hBefore) names env)
  unfold asked at hMem
  dsimp only at hMem
  generalize scan cfg ⟨s, names, env⟩ = x at hPasses ⊢
  generalize scan cfg (⟨⟨r, []⟩, names, env⟩ : Rest Watched ε)
    = y at hPasses hMem
  cases hPasses with
  | same result hSame =>
      rcases hSame with @⟨s', w, hBefore | hPast, _, _⟩
      · exact absurd (hBefore.asked p hMem)
          (Nat.not_lt.mpr hBehind)
      · exact hPast.elim
  | past hPast =>
      cases hPast with
      | intro hPast => exact hPast.elim
  | @gap e hGap =>
      rcases hGap with ⟨m, hCause⟩
      refine ⟨e, rfl, ?_⟩
      rw [Error.kind, hCause]
      rfl

/- Calls that do not ask for it leave both in step. -/
theorem after_inStep
    (cfg : ScanSettings)
    (h : Rest.InStep n outage r₁ r₂)
    (k : Nat)
    (hBefore :
      outage = none ∨
        ∀ j < k, ∀ p ∈ asked cfg (after cfg r₂ j), p < n) :
    Rest.InStep n outage (after cfg r₁ k) (after cfg r₂ k) := by
  induction k with
  | zero => exact h
  | succ k ih =>
      have hEarlier :=
        ih (hBefore.imp id (fun hAll j hj =>
          hAll j (Nat.lt_succ_of_lt hj)))
      exact (scan_inStep cfg hEarlier
        (hBefore.imp id (fun hAll =>
          hAll k (Nat.lt_succ_self k)))).2

/- So such a call cannot tell them apart. -/
theorem outcome_inStep
    (cfg : ScanSettings)
    (h : Rest.InStep n outage r₁ r₂)
    (k : Nat)
    (hBefore :
      outage = none ∨
        ∀ p ∈ asked cfg (after cfg r₂ k), p < n) :
    outcome cfg r₁ k = outcome cfg r₂ k := by
  have hStep :=
    after_inStep cfg h k (hBefore.imp id (fun hAll j hj =>
      asked_mono cfg r₂ (Nat.le_of_lt hj) hAll))
  rcases scan_inStep cfg hStep hBefore with ⟨hResult, hRest⟩
  unfold outcome outcomeOf
  rw [hResult]
  generalize (scan cfg (after cfg r₁ k)).2 = x at hRest ⊢
  generalize (scan cfg (after cfg r₂ k)).2 = y at hRest ⊢
  rcases hRest with @⟨s, r, -, hEnd, names, env⟩
  have hLine : line s = line r :=
    congrArg LineCount.raw hEnd.lines
  dsimp only
  rw [hLine]

/-
  A device that delivers a program in blocks, whichever these
  are, cannot be told from memory by any call: not by what it
  answers, by the line that is reached, or by the names and
  the environment that are left. If the device delivers the
  first `n` bytes and then fails whenever it is asked, this
  holds for all calls that ask memory for positions before
  `n` only, and the first call that asks for another one fails
  to read.
-/
theorem outcome_delivered
    (cfg : ScanSettings)
    (names : NameTable)
    (env : ε)
    (data : List UInt8) :
    (∀ ds, Delivers ds data → ∀ k,
      outcome cfg ⟨Stream.ofDeliveries ds none, names, env⟩ k =
        outcome cfg ⟨Reader.ofList data, names, env⟩ k) ∧
    (∀ n ds messages m, n ≤ data.length →
      Delivers ds (data.take n) → ∀ k,
        let device : Rest Stream ε :=
          ⟨.ofDeliveries (ds ++ failures messages) (some m),
            names, env⟩
        let memory : Rest Reader ε :=
          ⟨.ofList data, names, env⟩
        ((∀ p ∈ asked cfg (after cfg memory k), p < n) →
          outcome cfg device k = outcome cfg memory k) ∧
        ((∀ j < k, ∀ p ∈ asked cfg (after cfg memory j),
            p < n) →
          (∃ p ∈ asked cfg (after cfg memory k), n ≤ p) →
            ∃ e, (outcome cfg device k).result = .error e ∧
              e.kind = .ioError)) := by
  constructor
  · intro ds hDelivers k
    rw [← List.take_length (l := data)] at hDelivers
    have hStep :
        PostScript.InStep data.length
          (.ofDeliveries (ds ++ failures []) none)
          (.ofList data) :=
      inStep_ofDeliveries (Nat.le_refl _) hDelivers
        (fun _ => ⟨rfl, rfl⟩)
    rw [failures, List.map_nil, List.append_nil] at hStep
    exact outcome_inStep cfg (.intro rfl hStep names env) k
      (.inl rfl)
  · intro n ds messages m hn hDelivers k device memory
    have hStep :
        PostScript.InStep n
          (.ofDeliveries (ds ++ failures messages) (some m))
          (.ofList data) :=
      inStep_ofDeliveries hn hDelivers nofun
    have hRest : Rest.InStep n (some m) device memory :=
      .intro rfl hStep names env
    constructor
    · exact fun hBefore =>
        outcome_inStep cfg hRest k (.inr hBefore)
    · rintro hEarlier ⟨p, hMem, hBehind⟩
      have hReached :=
        after_inStep cfg hRest k (.inr hEarlier)
      exact scan_outage cfg hReached nofun hMem hBehind

/- A bracket is delivered alone, and then the device fails. -/
theorem outcome_delivered_bracket :
    let device : Rest Stream Unit :=
      ⟨.ofDeliveries
          ([.block (code ']') []] ++ failures ["busy"])
          (some "gone"), NameTable.empty, ()⟩
    let memory : Rest Reader Unit :=
      ⟨.ofList [code ']', code '1'], NameTable.empty, ()⟩
    outcome {} device 0 = outcome {} memory 0 ∧
      ∃ e, (outcome {} device 1).result = .error e ∧
        e.kind = .ioError := by
  intro device memory
  have hAsked : asked {} memory = [0] := by
    unfold asked scan
    dsimp only
    rw [readObject_step, Lexeme.read, Lexeme.skipBlanks_eq]
    rfl
  have hOffset : (scan {} memory).2.source.offset = 1 := by
    unfold scan
    dsimp only [memory]
    rw [readObject_step, Lexeme.read, Lexeme.skipBlanks_eq]
    rfl
  have hBefore : ∀ p ∈ asked {} memory, p < 1 := by
    rw [hAsked]
    decide
  have hCalls :=
    (outcome_delivered {} NameTable.empty ()
      [code ']', code '1']).2 1 [.block (code ']') []]
      ["busy"] "gone" (by decide) ⟨by simp, rfl⟩
  refine ⟨(hCalls 0).1 hBefore, (hCalls 1).2 ?_ ?_⟩
  · rintro (_ | j) hj
    · exact hBefore
    · omega
  · exact ⟨_, offset_mem_asked {} (after {} memory 1),
      Nat.le_of_eq hOffset.symm⟩

end Devices

end PostScript.Scanner
