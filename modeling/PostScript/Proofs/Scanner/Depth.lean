import PostScript.Proofs.Scanner.Limited

/-
  This file shows what bounds the objects that are scanned:
  whatever a call gives is within the limits of its settings,
  and a text that opens more procedures inside each other than
  are allowed is refused for that, if nothing before it is in
  error. What such a text does is told by settings that allow
  for more.

  Key definitions include:
    * `Scanner.Advances`
    * `Scanner.Overdeep`

  Main results:
    * `Scanner.readObject_overdeep`
    * `Scanner.scan_bounded`
-/

namespace PostScript

open ByteSource

variable {σ ε : Type}
variable [ByteSource σ]
variable [Environment ε]
variable {cfg : ScanSettings}

------------------------------------------------------------
-- Steps
------------------------------------------------------------

namespace Scanner

/-
  Pieces are read one behind the other, and each step leads on
  without an answer, from some procedures that are open to
  others.
-/
inductive Advances
    (cfg : ScanSettings) :
    OpenProcedures → ScanState σ ε →
      OpenProcedures → ScanState σ ε → Prop where
  | here
      (outer : OpenProcedures)
      (st : ScanState σ ε) :
      Advances cfg outer st outer st
  | piece
      {outer outer' outer'' : OpenProcedures}
      {st st' st'' : ScanState σ ε}
      {l : Lexeme}
      (hRead :
        Lexeme.read cfg (!outer.isEmpty) st = (.ok l, st'))
      (hStep : step cfg st'.env outer l = .more outer')
      (hRest : Advances cfg outer' st' outer'' st'') :
      Advances cfg outer st outer'' st''

/-
  If procedures might nest deeper, then the text would open
  more of them inside each other than the settings allow.
-/
def Overdeep
    (cfg : ScanSettings)
    (r : Rest σ ε) : Prop :=
  ∃ n outer st,
    Advances (cfg.deeper n) []
        ⟨r.source, r.names, r.env, #[]⟩ outer st ∧
      cfg.procedureDepth < outer.length

section Steps

variable {outer outer' : OpenProcedures}
variable {l : Lexeme}

omit [ByteSource σ] in
/- An object is put into the innermost procedure. -/
theorem length_of_place
    {o : Object}
    (h : place cfg outer o = .more outer') :
    outer'.length = outer.length := by
  unfold place at h
  split at h
  · cases h
  · split at h <;> cases h
    rfl

omit [ByteSource σ] in
/-
  A step that would lead on if procedures might nest deeper
  does so, or it opens one procedure too many.
-/
theorem step_of_deeper
    {n : Nat}
    (env : ε)
    (hOuter : outer.length ≤ cfg.procedureDepth)
    (h : step (cfg.deeper n) env outer l = .more outer') :
    (step cfg env outer l = .more outer' ∧
        outer'.length ≤ cfg.procedureDepth) ∨
      step cfg env outer l =
        .answer (.error .procedureTooDeep) := by
  -- Only an opening brace asks how deep procedures may nest.
  cases l with
  | opening =>
      unfold step openProcedure at h ⊢
      dsimp only at h ⊢
      split at h <;> cases h
      by_cases hDepth : outer.length < cfg.procedureDepth
      · exact .inl ⟨if_pos hDepth, hDepth⟩
      · exact .inr (if_neg hDepth)
  | object o =>
      refine .inl ⟨h, ?_⟩
      rwa [length_of_place h]
  | closing =>
      rcases closeProcedure_cases h (fun _ => nofun) with
        ⟨elements, rest, o, rfl, -, hPlace⟩
      refine .inl ⟨h, ?_⟩
      rw [length_of_place hPlace]
      exact Nat.le_of_succ_le hOuter
  | ended => exact absurd h (step_ended_ne_more _ env _ _)

end Steps

/- So many braces open as many procedures. -/
theorem advances_braces
    (cfg : ScanSettings)
    {rest : List UInt8}
    (k : Nat)
    (outer : OpenProcedures)
    (st : ScanState σ ε)
    (hRoom : outer.length + k ≤ cfg.procedureDepth)
    (hSource :
      Supplies st.source (List.replicate k 0x7b ++ rest)) :
    ∃ outer' st', Advances cfg outer st outer' st' ∧
      outer'.length = outer.length + k := by
  induction k generalizing outer st with
  | zero => exact ⟨outer, st, .here outer st, rfl⟩
  | succ k ih =>
      rw [List.replicate_succ, List.cons_append] at hSource
      rcases st with ⟨src, names, env, text⟩
      rcases read_brace cfg (!outer.isEmpty) names env text
          hSource with
        ⟨s, hRead, hMore⟩
      have hStep :
          step cfg env outer .opening =
            .more (#[] :: outer) :=
        if_pos (by omega)
      have hInside :
          (#[] :: outer : OpenProcedures).length + k ≤
            cfg.procedureDepth := by
        rw [List.length_cons]
        omega
      rcases ih (#[] :: outer) ⟨s, names, env, #[]⟩ hInside
          hMore with
        ⟨outer', st', hAdvances, hLength⟩
      refine ⟨outer', st', .piece hRead hStep hAdvances, ?_⟩
      rw [hLength, List.length_cons]
      omega

/- One more brace than is allowed is too many. -/
theorem overdeep_braces
    {r : Rest σ ε}
    (rest : List UInt8)
    (hSource :
      Supplies r.source
        (List.replicate (cfg.procedureDepth + 1) 0x7b ++
          rest)) :
    Overdeep cfg r := by
  have hRoom :
      ([] : OpenProcedures).length + (cfg.procedureDepth + 1) ≤
        (cfg.deeper 1).procedureDepth := by
    rw [List.length_nil, Nat.zero_add]
    exact Nat.le_refl _
  rcases advances_braces (cfg.deeper 1) _ []
      ⟨r.source, r.names, r.env, #[]⟩ hRoom hSource with
    ⟨outer, st, hAdvances, hLength⟩
  refine ⟨1, outer, st, hAdvances, ?_⟩
  rw [hLength, List.length_nil, Nat.zero_add]
  exact Nat.lt_succ_self _

------------------------------------------------------------
-- Calls
------------------------------------------------------------

/-
  The reading goes on as it would if procedures might nest
  deeper, up to the brace that is too many. By induction on
  the pieces before it.
-/
theorem readObject_overdeep
    {n : Nat}
    {outer outer' : OpenProcedures}
    {st st' : ScanState σ ε}
    (hAdvances :
      Advances (cfg.deeper n) outer st outer' st')
    (hOuter : outer.length ≤ cfg.procedureDepth)
    (hDeep : cfg.procedureDepth < outer'.length) :
    ∃ st'',
      readObject cfg outer st =
        (.error .procedureTooDeep, st'') := by
  induction hAdvances with
  | here => omega
  | @piece outer outer₁ _ st st₁ _ l hRead hStep _ ih =>
      rw [Lexeme.read_deeper] at hRead
      rw [readObject_eq hRead]
      rcases step_of_deeper st₁.env hOuter hStep with
        ⟨hSame, hOuter₁⟩ | hError
      · rw [hSame]
        exact ih hOuter₁ hDeep
      · rw [hError]
        exact ⟨st₁, rfl⟩

/-
  Whatever a call gives is within the limits of the settings,
  if binary tokens are off and no name has a value. A text
  that opens too many procedures inside each other, before
  any other error, is a range error.
-/
theorem scan_bounded
    (cfg : ScanSettings)
    (r : Rest σ ε) :
    (cfg.binaryTokens = false →
      Environment.Nameless r.env →
        ∀ o r', scan cfg r = (.ok (some o), r') →
          o.Limited cfg r'.names cfg.procedureDepth) ∧
      (Overdeep cfg r →
        ∃ e r', scan cfg r = (.error e, r') ∧
          e.cause = .procedureTooDeep ∧
            e.kind = .rangeCheck) := by
  rcases r with ⟨source, names, env⟩
  constructor
  · intro hText hNone o r' hScan
    rcases readObject_of_scan hScan with ⟨text, hRead⟩
    have hLimited :=
      readObject_limited ⟨source, names, env, #[]⟩ hText
        hNone .outside
    rw [hRead] at hLimited
    exact hLimited o rfl
  · rintro ⟨n, outer, st, hAdvances, hDeep⟩
    rcases readObject_overdeep hAdvances (Nat.zero_le _)
        hDeep with
      ⟨st', hRead⟩
    refine ⟨.inToken .procedureTooDeep st'.text,
      ⟨st'.source, st'.names, st'.env⟩, ?_, rfl, rfl⟩
    unfold scan
    dsimp only at hRead ⊢
    rw [hRead]

/-
  Where one procedure may be opened, one with a string in it
  is within the limits, and two braces are an error.
-/
theorem scan_bounded_brace :
    (∃ o r',
      scan { binaryTokens := false, procedureDepth := 1 }
          ⟨Reader.ofList [0x7b, code '(', code ')', 0x7d],
            NameTable.initial, ()⟩ = (.ok (some o), r') ∧
        o.Limited { binaryTokens := false, procedureDepth := 1 }
          r'.names 1) ∧
      ∃ e r',
        scan { binaryTokens := false, procedureDepth := 1 }
            ⟨Reader.ofList [0x7b, 0x7b], NameTable.initial,
              ()⟩ = (.error e, r') ∧
          e.cause = .procedureTooDeep ∧
            e.kind = .rangeCheck := by
  have hNone : Environment.Nameless () :=
    fun _ _ _ _ => rfl
  have hString :
      Renders { binaryTokens := false, procedureDepth := 1 }
        (.string #[]) [code '(', code ')'] :=
    @Renders.parenthesised _ #[] [] .nil (by decide)
      (by decide)
  have hText :
      Renders { binaryTokens := false, procedureDepth := 1 }
        (.procedure [.string #[]])
        [0x7b, code '(', code ')', 0x7d] :=
    .procedure
      (.cons .nil (absurd · Bool.false_ne_true) hString
        (.nil .nil))
  constructor
  · rcases @readObject_tree Reader Unit _ _ _ _ [] _ []
        ⟨Reader.ofList [0x7b, code '(', code ')', 0x7d],
          NameTable.initial, (), #[]⟩
        [] .nil hText nofun staysLocal_unit (by decide)
        (by decide) (Reader.supplies _) with
      ⟨o, st', hRead, -⟩
    have hScan := scan_eq hRead
    exact ⟨o, _, hScan,
      (scan_bounded _ _).1 rfl hNone o _ hScan⟩
  · exact (scan_bounded _ _).2
      (overdeep_braces [] (Reader.supplies _))

end Scanner

end PostScript
