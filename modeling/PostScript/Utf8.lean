import PostScript.Bytes
import PostScript.Numeric.Power

/-
  This file reads bytes as UTF-8 text, one byte at a time.
  Every longest run of bytes that begins a character but
  does not finish it, and every byte that begins none, reads
  as one replacement character.

  Key definitions include:
    * `Utf8.Pending`
    * `Utf8.Reading`
    * `Utf8.Reading.step`
    * `Utf8.lossyText`
    * `Utf8.isValid`
-/

namespace PostScript.Utf8

/-
  A character that has begun: the bits read so far, how many
  bytes it still needs and the range of the next of them.
-/
structure Pending where
  bits : Nat
  owed : Nat
  least : UInt8
  greatest : UInt8
deriving DecidableEq, Repr

/- The state between two bytes. -/
structure Reading where
  text : List Char
  sound : Bool
  pending : Option Pending
deriving DecidableEq, Repr

namespace Reading

/- Nothing read yet. -/
def start : Reading :=
  ⟨[], true, none⟩

/- A run that is no character reads as U+FFFD. -/
def replace
    (r : Reading) : Reading :=
  ⟨Char.ofNat 0xfffd :: r.text, false, none⟩

/- A finished character. -/
def emit
    (r : Reading)
    (bits : Nat) : Reading :=
  ⟨Char.ofNat bits :: r.text, r.sound, none⟩

/- A begun character. -/
def await
    (r : Reading)
    (p : Pending) : Reading :=
  { r with pending := some p }

/-
  The first byte of a character decides its length. The
  range of the second byte leaves out overlong forms,
  surrogates and numbers past U+10FFFF.
-/
def begin
    (r : Reading)
    (b : UInt8) : Reading :=
  let low (k : Nat) := b.toNat % power 2 k
  if b < 0x80 then
    r.emit b.toNat
  else if b < 0xc2 then
    r.replace
  else if b < 0xe0 then
    r.await ⟨low 5, 1, 0x80, 0xbf⟩
  else if b == 0xe0 then
    r.await ⟨low 4, 2, 0xa0, 0xbf⟩
  else if b == 0xed then
    r.await ⟨low 4, 2, 0x80, 0x9f⟩
  else if b < 0xf0 then
    r.await ⟨low 4, 2, 0x80, 0xbf⟩
  else if b == 0xf0 then
    r.await ⟨low 3, 3, 0x90, 0xbf⟩
  else if b < 0xf4 then
    r.await ⟨low 3, 3, 0x80, 0xbf⟩
  else if b == 0xf4 then
    r.await ⟨low 3, 3, 0x80, 0x8f⟩
  else
    r.replace

/-
  Read one byte. A byte outside the expected range ends the
  begun character and begins the next.
-/
def step
    (r : Reading)
    (b : UInt8) : Reading :=
  match r.pending with
  | none => r.begin b
  | some p =>
      if p.least ≤ b && b ≤ p.greatest then
        let bits := p.bits * 64 + b.toNat % 64
        if p.owed == 1 then
          r.emit bits
        else
          r.await ⟨bits, p.owed - 1, 0x80, 0xbf⟩
      else
        r.replace.begin b

/- A character that the text ends in is replaced. -/
def finish
    (r : Reading) : Reading :=
  match r.pending with
  | none => r
  | some _ => r.replace

end Reading

/- The reading of a whole byte string. -/
def read
    (bs : Bytes) : Reading :=
  (bs.foldl Reading.step Reading.start).finish

/- The text of a byte string. -/
def lossyText
    (bs : Bytes) : String :=
  String.ofList (read bs).text.reverse

/- Whether a byte string is UTF-8 throughout. -/
def isValid
    (bs : Bytes) : Bool :=
  (read bs).sound

end PostScript.Utf8
