import PostScript.Source.Any
import PostScript.Source.Scanned

/-
  This file says what it means that a source supplies a text:
  its bytes are read one by one, a byte that is pushed back is
  read again, and then the source ends. Memory supplies what
  it holds, and so does a device that never fails, however
  its bytes are cut into blocks.

  Key definitions include:
    * `ByteSource.Faithful`
    * `ByteSource.Supplies`
    * `Stream.Sound`
    * `Stream.pending`

  Main results:
    * `ByteSource.Supplies.byte`
    * `ByteSource.Supplies.unique`
    * `Reader.supplies`
    * `Stream.supplies`
    * `Source.supplies_memory`
    * `Source.supplies_device`
-/

namespace PostScript

namespace ByteSource

variable {σ : Type}
variable [ByteSource σ]

------------------------------------------------------------
-- Supplying a Text
------------------------------------------------------------

/-
  A relation of sources to texts that holds on when bytes are
  read and pushed back.
-/
structure Faithful
    (R : σ → List UInt8 → Prop) : Prop where
  atEnd :
    ∀ {src}, R src [] →
      ∃ s, next src = (.atEnd, s) ∧ R s []
  byte :
    ∀ {src b rest}, R src (b :: rest) →
      ∃ s, next src = (.byte b, s) ∧ R s rest ∧
        R (pushBack b s) (b :: rest)

/- The source gives the bytes of the text and then ends. -/
def Supplies
    (src : σ)
    (text : List UInt8) : Prop :=
  ∃ R : σ → List UInt8 → Prop, Faithful R ∧ R src text

variable {src : σ}
variable {b : UInt8}
variable {rest : List UInt8}

/- Where the text ends, the source ends. -/
theorem Supplies.atEnd
    (h : Supplies src []) :
    ∃ s, next src = (.atEnd, s) ∧ Supplies s [] := by
  rcases h with ⟨R, hR, hSrc⟩
  rcases hR.atEnd hSrc with ⟨s, hNext, hRest⟩
  exact ⟨s, hNext, R, hR, hRest⟩

/- The first byte is read, and may be pushed back. -/
theorem Supplies.byte
    (h : Supplies src (b :: rest)) :
    ∃ s, next src = (.byte b, s) ∧ Supplies s rest ∧
      Supplies (pushBack b s) (b :: rest) := by
  rcases h with ⟨R, hR, hSrc⟩
  rcases hR.byte hSrc with ⟨s, hNext, hRest, hBack⟩
  exact ⟨s, hNext, ⟨R, hR, hRest⟩, R, hR, hBack⟩

/- A byte that is there can be demanded. -/
theorem Supplies.demand
    (h : Supplies src (b :: rest)) :
    ∃ s, demand src = (.ok b, s) ∧ Supplies s rest := by
  rcases h.byte with ⟨s, hNext, hRest, -⟩
  refine ⟨s, ?_, hRest⟩
  unfold PostScript.demand
  rw [hNext]

/- A source supplies one text. -/
theorem Supplies.unique
    {text other : List UInt8}
    (hText : Supplies src text)
    (hOther : Supplies src other) :
    text = other := by
  induction text generalizing src other with
  | nil =>
      rcases hText.atEnd with ⟨s, hNext, -⟩
      cases other with
      | nil => rfl
      | cons c more =>
          rcases hOther.byte with ⟨s', hNext', -⟩
          rw [hNext] at hNext'
          injection hNext'
          contradiction
  | cons b rest ih =>
      rcases hText.byte with ⟨s, hNext, hRest, -⟩
      cases other with
      | nil =>
          rcases hOther.atEnd with ⟨s', hNext', -⟩
          rw [hNext] at hNext'
          injection hNext'
          contradiction
      | cons c more =>
          rcases hOther.byte with ⟨s', hNext', hMore, -⟩
          rw [hNext] at hNext'
          injection hNext' with hByte hSame
          injection hByte with hByte
          subst hByte hSame
          rw [ih hRest hMore]

end ByteSource

open ByteSource

------------------------------------------------------------
-- Gathering
------------------------------------------------------------

/- If more bytes fit behind others, the first of them fits. -/
theorem fits_cons
    {gathered : Bytes}
    {b : UInt8}
    {bytes : List UInt8}
    {limit : Nat}
    (h : gathered.size + (b :: bytes).length ≤ limit) :
    gathered.size < limit ∧
      (gathered.push b).size + bytes.length ≤ limit := by
  rw [List.length_cons] at h
  rw [Array.size_push]
  omega

/- Bytes are gathered one by one. -/
theorem push_append
    (gathered : Bytes)
    (b : UInt8)
    (bytes : List UInt8) :
    gathered.push b ++ bytes.toArray =
      gathered ++ (b :: bytes).toArray := by
  simp

------------------------------------------------------------
-- Memory
------------------------------------------------------------

/- Memory supplies the bytes that have not been read. -/
theorem Reader.supplies
    (r : Reader) :
    Supplies r r.rest := by
  refine ⟨fun r text => r.rest = text, ⟨?_, ?_⟩, rfl⟩
  case refine_1 =>
    rintro ⟨rest, offset, lines⟩ hRest
    dsimp only at hRest
    subst hRest
    exact ⟨_, rfl, rfl⟩
  case refine_2 =>
    rintro ⟨rest, offset, lines⟩ b more hRest
    dsimp only at hRest
    subst hRest
    exact ⟨_, rfl, rfl, rfl⟩

------------------------------------------------------------
-- Devices
------------------------------------------------------------

/- The bytes of an answer. -/
def Delivery.bytes : Delivery → List UInt8
  | block first more => first :: more
  | failure _ => []

namespace Stream

/- The device never fails. -/
def Sound
    (s : Stream) : Prop :=
  s.outage = none ∧
    ∀ m, Delivery.failure m ∉ s.deliveries

/- The bytes that are still to come. -/
def pending
    (s : Stream) : List UInt8 :=
  s.pushed.toList ++ s.buffer ++
    s.deliveries.flatMap Delivery.bytes

/- What is pushed back into a sound device comes first. -/
theorem pending_pushBack
    {s : Stream}
    (b : UInt8)
    (hNone : s.pushed = none) :
    (s.pushBack b).pending = b :: s.pending := by
  simp [pushBack, pending, hNone]

/- A sound device gives the bytes that are pending. -/
theorem next_of_sound
    {s : Stream}
    (h : s.Sound) :
    (s.pending = [] ∧ s.next = (.atEnd, s)) ∨
      ∃ b s', s.next = (.byte b, s') ∧ s'.Sound ∧
        s'.pushed = none ∧ s.pending = b :: s'.pending := by
  rcases s with ⟨buffer, ds, outage, pushed, lines⟩
  rcases h with ⟨hOutage, hSound⟩
  dsimp only at hOutage hSound
  subst hOutage
  cases pushed with
  | some b =>
      exact .inr ⟨b, _, rfl, ⟨rfl, hSound⟩, rfl,
        by simp [pending]⟩
  | none =>
      cases buffer with
      | cons b buffer =>
          exact .inr ⟨b, _, rfl, ⟨rfl, hSound⟩, rfl,
            by simp [pending]⟩
      | nil =>
          cases ds with
          | nil => exact .inl ⟨rfl, rfl⟩
          | cons d ds =>
              cases d with
              | failure m =>
                  exact absurd List.mem_cons_self (hSound m)
              | block b more =>
                  refine .inr ⟨b, _, rfl, ⟨rfl, ?_⟩, rfl,
                    by simp [pending, Delivery.bytes]⟩
                  exact fun m hm =>
                    hSound m (List.mem_cons_of_mem _ hm)

/- A sound device supplies what is pending. -/
theorem supplies
    {s : Stream}
    (h : s.Sound) :
    Supplies s s.pending := by
  refine ⟨fun s text => s.Sound ∧ s.pending = text,
    ⟨?_, ?_⟩, h, rfl⟩
  case refine_1 =>
    rintro s ⟨hSound, hPending⟩
    rcases next_of_sound hSound with
      ⟨-, hNext⟩ | ⟨b, s', -, -, -, hMore⟩
    · exact ⟨s, hNext, hSound, hPending⟩
    · rw [hPending] at hMore
      contradiction
  case refine_2 =>
    rintro s b rest ⟨hSound, hPending⟩
    rcases next_of_sound hSound with
      ⟨hNone, -⟩ | ⟨c, s', hNext, hSound', hFree, hMore⟩
    · rw [hPending] at hNone
      contradiction
    · rw [hPending] at hMore
      rcases List.cons.inj hMore with ⟨rfl, rfl⟩
      exact ⟨s', hNext, ⟨hSound', rfl⟩, hSound',
        pending_pushBack b hFree⟩

end Stream

------------------------------------------------------------
-- Either
------------------------------------------------------------

namespace Source

/- A source of either kind supplies what is behind it. -/
theorem faithful_supplies :
    Faithful (fun src text =>
      match src with
      | memory r => Supplies r text
      | device s => Supplies s text) where
  atEnd := by
    rintro (r | s) h
    · rcases h.atEnd with ⟨r', hNext, hRest⟩
      exact ⟨memory r', congrArg (Prod.map id memory) hNext,
        hRest⟩
    · rcases h.atEnd with ⟨s', hNext, hRest⟩
      exact ⟨device s', congrArg (Prod.map id device) hNext,
        hRest⟩
  byte := by
    rintro (r | s) b rest h
    · rcases h.byte with ⟨r', hNext, hRest, hBack⟩
      exact ⟨memory r', congrArg (Prod.map id memory) hNext,
        hRest, hBack⟩
    · rcases h.byte with ⟨s', hNext, hRest, hBack⟩
      exact ⟨device s', congrArg (Prod.map id device) hNext,
        hRest, hBack⟩

/- Memory supplies the same as a source. -/
theorem supplies_memory
    (r : Reader) :
    Supplies (memory r) r.rest :=
  ⟨_, faithful_supplies, r.supplies⟩

/- So does a device that never fails. -/
theorem supplies_device
    {s : Stream}
    (h : s.Sound) :
    Supplies (device s) s.pending :=
  ⟨_, faithful_supplies, s.supplies h⟩

end Source

end PostScript
