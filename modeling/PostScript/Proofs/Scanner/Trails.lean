import PostScript.Proofs.BinaryToken.Extent
import PostScript.Proofs.Scanner.Rendered
import PostScript.Proofs.StringBody.Trails

/-
  This file shows that every call of the scanner is decided
  by what the source answers: the object or the error, the
  names and the environment that are left.

  Key definitions include:
    * `Held`
    * `holding`
    * `Scanner.leaving`

  Main results:
    * `Lexeme.tokenFrom_local`
    * `Lexeme.read_local`
    * `Scanner.scan_local`
    * `Scanner.scan_keeps`
-/

namespace PostScript

open ByteSource

/- What a state holds beside its source. -/
structure Held (ε : Type) where
  names : NameTable
  env : ε
  text : Bytes

/- A result and what is held beside the source. -/
abbrev holding
    (ε α : Type) :
    Pairing (Except Cause α × Held ε)
      (Except Cause α × ScanState · ε) :=
  fun _ v s => (v.1, ⟨s, v.2.names, v.2.env, v.2.text⟩)

variable {σ ε : Type}
variable [ByteSource σ]

namespace Lexeme

------------------------------------------------------------
-- Comments and Regular Bytes
------------------------------------------------------------

/- A comment is read to its end, by induction on what is left. -/
theorem comment_local
    (limit : Nat)
    (text : Bytes)
    (s : σ) :
    LocalAt (gathering Unit)
      (fun _ _ t => comment limit text t) s := by
  induction s using ByteSource.induction_remaining
    generalizing text with
  | step s ih =>
      rcases hNext : next s with ⟨b | _ | m, u⟩
      · have hLess := remaining_byte hNext
        refine .kept hNext (fun h => by rw [comment_eq, h]) ?_
        refine .ite (fun _ => .done (.ok (), text) rfl)
          (fun _ => ?_)
        exact ih u hLess _
      · exact .keptLast (.ok (), text) hNext
          (fun h => by rw [comment_eq, h])
      · exact .keptLast (.error (.source m), text) hNext
          (fun h => by rw [comment_eq, h])

/- A delimiter behind regular bytes is given back. -/
theorem regular_local
    (limit : Nat)
    (text : Bytes)
    (s : σ) :
    LocalAt (gathering Unit)
      (fun _ _ t => regular limit text t) s := by
  induction s using ByteSource.induction_remaining
    generalizing text with
  | step s ih =>
      rcases hNext : next s with ⟨b | _ | m, u⟩
      · have hLess := remaining_byte hNext
        by_cases hBack :
            isRegular b = false ∧ isWhitespace b = false
        · refine .returnedLast (.ok (), text) hNext
            (fun h => ?_)
          rw [regular_eq, h]
          simp [hBack]
        · refine .kept hNext (k := fun _ _ t =>
            if isRegular b then
              if text.size < limit then
                regular limit (text.push b) t
              else
                ⟨.error .tooLong, text, t⟩
            else
              ⟨.ok (), text, t⟩) (fun h => ?_) ?_
          · rw [regular_eq, h]
            grind
          · refine .ite (fun _ => .ite (fun _ => ih u hLess _)
              (fun _ => ?_)) (fun _ => ?_)
            · exact .done (.error .tooLong, text) rfl
            · exact .done (.ok (), text) rfl
      · exact .keptLast (.ok (), text) hNext
          (fun h => by rw [regular_eq, h])
      · exact .keptLast (.error (.source m), text) hNext
          (fun h => by rw [regular_eq, h])

/- So is a byte that is not the second slash. -/
theorem secondSlash_local
    (s : σ) :
    LocalAt (beside _) (fun _ _ t => secondSlash t) s := by
  rcases hNext : next s with ⟨b | _ | m, u⟩
  · by_cases hSlash : (b == code '/') = true
    · refine .keptLast (.ok true) hNext (fun h => ?_)
      rw [secondSlash, h]
      exact if_pos hSlash
    · refine .returnedLast (.ok false) hNext (fun h => ?_)
      rw [secondSlash, h]
      exact if_neg hSlash
  · exact .keptLast (.ok false) hNext
      (fun h => by rw [secondSlash, h])
  · exact .keptLast (.error (.source m)) hNext
      (fun h => by rw [secondSlash, h])

------------------------------------------------------------
-- Tokens
------------------------------------------------------------

variable (names : NameTable)
variable (env : ε)
variable (text : Bytes)

/- A name is made without the source. -/
theorem nameOf_local
    (executable : Bool)
    (bytes : Bytes)
    (s : σ) :
    LocalAt (holding ε Object)
      (fun _ _ t =>
        nameOf executable bytes ⟨t, names, env, text⟩) s := by
  unfold nameOf
  dsimp only
  rcases names.intern bytes with ⟨cause | name, names'⟩
  · exact .done (.error cause, ⟨names', env, text⟩) rfl
  · exact .done
      (.ok (Object.name name executable), ⟨names', env, text⟩)
      rfl

/- A word is a number, or a name that is made. -/
theorem word_local
    (cfg : ScanSettings)
    (first : UInt8)
    (s : σ) :
    LocalAt (holding ε Object)
      (fun _ _ t => word cfg first ⟨t, names, env, text⟩)
      s := by
  unfold word
  dsimp only
  refine (regular_local cfg.stringLength #[first] s).after ?_
  rintro ⟨cause | _, gathered⟩ u -
  · exact ⟨_, fun h => by rw [h],
      .done (.error cause, ⟨names, env, gathered⟩) rfl⟩
  · refine ⟨_, fun h => by rw [h], ?_⟩
    dsimp only
    rcases Number.ofLiteral gathered.toList with cause | _ | n
    · exact .done (.error cause, ⟨names, env, gathered⟩) rfl
    · exact nameOf_local names env gathered true gathered u
    · exact .done
        (.ok (Object.ofNumber n), ⟨names, env, gathered⟩) rfl

/- A closing bracket alone is no token. -/
theorem closeAngle_local
    (cfg : ScanSettings)
    (s : σ) :
    LocalAt (holding ε Object)
      (fun _ _ t => closeAngle cfg ⟨t, names, env, text⟩)
      s := by
  unfold closeAngle unexpected
  dsimp only
  rcases hNext : next s with ⟨b | _ | m, u⟩
  · refine .kept hNext (fun h => by rw [h]) ?_
    refine .ite (fun _ => ?_) (fun _ => ?_)
    · exact nameOf_local names env text true _ u
    · exact .done
        (.error .malformed, ⟨names, env, #[code '>']⟩) rfl
  · exact .keptLast
      (.error .malformed, ⟨names, env, #[code '>']⟩) hNext
      (fun h => by rw [h])
  · exact .keptLast
      (.error (.source m), ⟨names, env, text⟩) hNext
      (fun h => by rw [h])

variable [Environment ε]

/- The value of an immediate name is looked up without it. -/
theorem immediateOf_local
    (bytes : Bytes)
    (s : σ) :
    LocalAt (holding ε Object)
      (fun _ _ t => immediateOf bytes ⟨t, names, env, text⟩)
      s := by
  unfold immediateOf
  dsimp only
  rcases names.intern bytes with ⟨cause | name, names'⟩
  · exact .done (.error cause, ⟨names', env, text⟩) rfl
  · dsimp only
    rcases names'.load env name with ⟨_ | value, names''⟩
    · exact .done (.error .unbound, ⟨names'', env, text⟩) rfl
    · exact .done (.ok value, ⟨names'', env, text⟩) rfl

/- A name may stand behind one slash or two. -/
theorem slashed_local
    (cfg : ScanSettings)
    (s : σ) :
    LocalAt (holding ε Object)
      (fun _ _ t => slashed cfg ⟨t, names, env, text⟩)
      s := by
  unfold slashed
  dsimp only
  refine (secondSlash_local s).after ?_
  rintro (cause | immediate) u -
  · exact ⟨_, fun h => by rw [h],
      .done (.error cause, ⟨names, env, text⟩) rfl⟩
  · refine ⟨_, fun h => by rw [h], ?_⟩
    dsimp only
    refine (regular_local cfg.stringLength #[] u).after ?_
    rintro ⟨cause | _, gathered⟩ u' -
    · exact ⟨_, fun h => by rw [h],
        .done (.error cause, ⟨names, env, gathered⟩) rfl⟩
    · refine ⟨_, fun h => by rw [h], ?_⟩
      refine .ite (fun _ => ?_) (fun _ => ?_)
      · exact immediateOf_local names env gathered gathered u'
      · exact nameOf_local names env gathered false gathered u'

/- A binary token is read as planned. -/
theorem binary_local
    (first : UInt8)
    (s : σ) :
    LocalAt (holding ε Object)
      (fun _ _ t => binary first ⟨t, names, env, text⟩)
      s := by
  unfold binary
  dsimp only
  refine ((BinaryToken.planned_read first).localAt s).after ?_
  rintro (cause | token) u -
  · exact ⟨_, fun h => by rw [h],
      .done (.error cause, ⟨names, env, text⟩) rfl⟩
  · refine ⟨_, fun h => by rw [h], ?_⟩
    dsimp only
    cases token.object env names with
    | ok o names' =>
        exact .done (.ok o, ⟨names', env, text⟩) rfl
    | error cause names' =>
        exact .done (.error cause, ⟨names', env, text⟩) rfl

/- A string is made of what has been gathered. -/
theorem stringOf_local
    {f : Reading (Scanned · Unit)}
    {s : σ}
    (hBytes : LocalAt (gathering Unit) f s) :
    LocalAt (holding ε Object)
      (fun τ _ t =>
        stringOf (f τ t) (⟨t, names, env, text⟩ : ScanState τ ε))
      s := by
  refine hBytes.after ?_
  rintro ⟨cause | _, gathered⟩ u -
  · exact ⟨_, fun h => by rw [h, stringOf],
      .done (.error cause, ⟨names, env, gathered⟩) rfl⟩
  · exact ⟨_, fun h => by rw [h, stringOf],
      .done
        (.ok (Object.string gathered
          (Environment.newAttrs env)), ⟨names, env, gathered⟩)
        rfl⟩

theorem base85Of_local
    {f : Reading (Scanned · Bytes)}
    {s : σ}
    (hBytes : LocalAt (gathering Bytes) f s) :
    LocalAt (holding ε Object)
      (fun τ _ t =>
        base85Of (f τ t) (⟨t, names, env, text⟩ : ScanState τ ε))
      s := by
  refine hBytes.after ?_
  rintro ⟨cause | bytes, gathered⟩ u -
  · exact ⟨_, fun h => by rw [h, base85Of],
      .done (.error cause, ⟨names, env, gathered⟩) rfl⟩
  · exact ⟨_, fun h => by rw [h, base85Of],
      .done
        (.ok (Object.string bytes
          (Environment.newAttrs env)), ⟨names, env, gathered⟩)
        rfl⟩

/- Where the state was before does not matter for that. -/
omit [ByteSource σ] in
theorem stringOf_source
    (x : Scanned σ Unit)
    (s s' : σ) :
    stringOf x (⟨s, names, env, text⟩ : ScanState σ ε) =
      stringOf x ⟨s', names, env, text⟩ := by
  rcases x with ⟨_ | _, _, _⟩ <;> rfl

omit [ByteSource σ] in
theorem base85Of_source
    (x : Scanned σ Bytes)
    (s s' : σ) :
    base85Of x (⟨s, names, env, text⟩ : ScanState σ ε) =
      base85Of x ⟨s', names, env, text⟩ := by
  rcases x with ⟨_ | _, _, _⟩ <;> rfl

/- An opening one begins a name or a string. -/
theorem openAngle_local
    (cfg : ScanSettings)
    (s : σ) :
    LocalAt (holding ε Object)
      (fun _ _ t => openAngle cfg ⟨t, names, env, text⟩)
      s := by
  unfold openAngle unexpected
  dsimp only
  rcases hNext : next s with ⟨b | _ | m, u⟩
  · by_cases hName :
        (b == code '<' && cfg.knowsDictNames) = true
    · refine .kept hNext (fun h => ?_)
        (nameOf_local names env text true
          (Bytes.ofText "<<") u)
      rw [h]
      exact if_pos hName
    · by_cases h85 : (b == code '~' && cfg.knowsBase85) = true
      · refine .kept hNext (fun {τ} _ {t w} h => ?_)
          (base85Of_local names env text
            (Base85.read_local cfg.stringLength u))
        rw [h]
        dsimp only
        rw [if_neg hName, if_pos h85]
        exact base85Of_source names env text _ t w
      · refine .returned hNext (fun {τ} _ {t w} h => ?_)
          (stringOf_local names env text
            (Hexadecimal.body_local cfg.stringLength none #[]
              (pushBack b u)))
        rw [h]
        dsimp only
        rw [if_neg hName, if_neg h85]
        exact stringOf_source names env text _ t (pushBack b w)
  · exact .keptLast
      (.error .malformed, ⟨names, env, #[code '<']⟩) hNext
      (fun h => by rw [h])
  · exact .keptLast
      (.error (.source m), ⟨names, env, text⟩) hNext
      (fun h => by rw [h])

/- Any token is decided by its own bytes and those it needs. -/
theorem tokenFrom_local
    (cfg : ScanSettings)
    (first : UInt8)
    (s : σ) :
    LocalAt (holding ε Object)
      (fun _ _ t => tokenFrom cfg first ⟨t, names, env, text⟩)
      s := by
  unfold tokenFrom unexpected
  dsimp only
  refine .ite (fun _ => ?_) (fun _ => ?_)
  · exact stringOf_local names env text
      (Parenthesised.body_local cfg.stringLength 1 #[] s)
  refine .ite (fun _ => openAngle_local names env text cfg s)
    (fun _ => ?_)
  refine .ite (fun _ => closeAngle_local names env text cfg s)
    (fun _ => ?_)
  refine .ite (fun _ => ?_) (fun _ => ?_)
  · exact nameOf_local names env text true #[first] s
  refine .ite (fun _ => ?_) (fun _ => ?_)
  · exact .done (.error .malformed, ⟨names, env, #[first]⟩)
      rfl
  refine .ite (fun _ => slashed_local names env text cfg s)
    (fun _ => ?_)
  refine .ite (fun _ => binary_local names env text first s)
    (fun _ => ?_)
  exact word_local names env text cfg first s

------------------------------------------------------------
-- Pieces
------------------------------------------------------------

/- So is any piece that begins with a byte. -/
theorem readFrom_local
    (cfg : ScanSettings)
    (nested : Bool)
    (first : UInt8)
    (s : σ) :
    LocalAt (holding ε Lexeme)
      (fun _ _ t =>
        readFrom cfg nested first ⟨t, names, env, text⟩)
      s := by
  unfold readFrom
  refine .ite
    (fun _ => .done (.ok .opening, ⟨names, env, text⟩) rfl)
    (fun _ => .ite (fun _ => ?_) (fun _ => ?_))
  · exact .done (.ok .closing, ⟨names, env, text⟩) rfl
  · refine (tokenFrom_local names env text cfg first s).after ?_
    rintro ⟨cause | o, held⟩ u -
    · exact ⟨_, fun h => by rw [h],
        .done (.error cause, held) rfl⟩
    · exact ⟨_, fun h => by rw [h],
        .done (.ok (.object o), held) rfl⟩

/- Blanks are skipped, by induction on what is left. -/
theorem skipBlanks_local
    (cfg : ScanSettings)
    (s : σ) :
    LocalAt (holding ε (Option UInt8))
      (fun _ _ t => skipBlanks cfg ⟨t, names, env, text⟩)
      s := by
  induction s using ByteSource.induction_remaining
    generalizing env text with
  | step s ih =>
      rcases hNext : next s with ⟨b | _ | m, u⟩
      · have hLess := remaining_byte hNext
        refine .kept hNext
          (fun h => by rw [skipBlanks_eq, h]) ?_
        refine .ite (fun _ => ?_) (fun _ => ?_)
        · refine (comment_local cfg.stringLength #[] u).after ?_
          rintro ⟨cause | _, gathered⟩ u' hComment
          · exact ⟨_, fun h => by rw [h],
              .done (.error cause, ⟨names, env, gathered⟩)
                rfl⟩
          · have hLeft :=
              remaining_comment cfg.stringLength #[] u
            rw [hComment] at hLeft
            exact ⟨_, fun h => by rw [h],
              ih u' (Nat.lt_of_le_of_lt hLeft hLess) _ _⟩
        · refine .ite (fun _ => ?_) (fun _ => ?_)
          · exact .done (.ok none, ⟨names, env, text⟩) rfl
          · refine .ite (fun _ => ih u hLess env text)
              (fun _ => ?_)
            exact .done (.ok (some b), ⟨names, env, text⟩) rfl
      · exact .keptLast (.ok none, ⟨names, env, text⟩) hNext
          (fun h => by rw [skipBlanks_eq, h])
      · exact .keptLast
          (.error (.source m), ⟨names, env, text⟩) hNext
          (fun h => by rw [skipBlanks_eq, h])

/- A piece is decided by what is asked for up to its end. -/
theorem read_local
    (cfg : ScanSettings)
    (nested : Bool)
    (s : σ) :
    LocalAt (holding ε Lexeme)
      (fun _ _ t => read cfg nested ⟨t, names, env, text⟩)
      s := by
  unfold read
  refine (skipBlanks_local names env text cfg s).after ?_
  rintro ⟨cause | _ | first, held⟩ u -
  · exact ⟨_, fun h => by rw [h],
      .done (.error cause, held) rfl⟩
  · exact ⟨_, fun h => by rw [h], .done (.ok .ended, held) rfl⟩
  · exact ⟨_, fun h => by rw [h],
      readFrom_local held.names held.env #[] cfg nested first
        u⟩

end Lexeme

------------------------------------------------------------
-- Objects
------------------------------------------------------------

namespace Scanner

variable [Environment ε]

/- Pieces are read one by one, by induction on what is left. -/
theorem readObject_local
    (cfg : ScanSettings)
    (outer : OpenProcedures)
    (names : NameTable)
    (env : ε)
    (text : Bytes)
    (s : σ) :
    LocalAt (holding ε (Option Object))
      (fun _ _ t => readObject cfg outer ⟨t, names, env, text⟩)
      s := by
  induction s using ByteSource.induction_remaining
    generalizing outer names env text with
  | step s ih =>
      refine (Lexeme.read_local names env text cfg
        (!outer.isEmpty) s).after ?_
      rintro ⟨cause | l, held⟩ u hRead
      · exact ⟨_, fun h => by rw [readObject_step, h],
          .done (.error cause, held) rfl⟩
      · refine ⟨_, fun h => by rw [readObject_step, h], ?_⟩
        dsimp only
        cases hStep : step cfg held.env outer l with
        | answer r => exact .done (r, held) rfl
        | more outer' =>
            refine ih u ?_ outer' held.names held.env held.text
            refine Lexeme.remaining_read_lt cfg _ _ _ l hRead ?_
            intro hEnd
            subst hEnd
            exact step_ended_ne_more cfg held.env outer outer'
              hStep

------------------------------------------------------------
-- Calls
------------------------------------------------------------

/- A result and what is left beside the source. -/
abbrev leaving
    (ε : Type) :
    Pairing
      (Except Error (Option Object) × NameTable × ε)
      (Except Error (Option Object) × Rest · ε) :=
  fun _ v s => (v.1, ⟨s, v.2.1, v.2.2⟩)

/- A call is decided by what it asks for. -/
theorem scan_local
    (cfg : ScanSettings)
    (names : NameTable)
    (env : ε)
    (s : σ) :
    LocalAt (leaving ε)
      (fun _ _ t => scan cfg ⟨t, names, env⟩) s := by
  unfold scan
  dsimp only
  refine (readObject_local cfg [] names env #[] s).after ?_
  rintro ⟨cause | o, held⟩ u -
  · exact ⟨_, fun h => by rw [h],
      .done
        (.error (.inToken cause held.text), held.names,
          held.env) rfl⟩
  · exact ⟨_, fun h => by rw [h],
      .done (.ok o, held.names, held.env) rfl⟩

/- What holds on through every exchange holds after a call. -/
theorem scan_keeps
    {P : σ → Prop}
    (hNext : ∀ {s}, P s → P (next s).2)
    (hBack :
      ∀ {s s' b}, P s → next s = (.byte b, s') →
        P (pushBack b s'))
    (cfg : ScanSettings)
    (r : Rest σ ε)
    (hStart : P r.source) :
    P (scan cfg r).2.source := by
  rcases scan_local cfg r.names r.env r.source with
    ⟨es, v, u, hTrail, hYields⟩
  have hScan : scan cfg r = leaving ε σ v u := hYields hTrail
  rw [hScan]
  exact hTrail.keeps hNext hBack hStart

end Scanner

end PostScript
