/-
  This file defines the settings of the scanner.

  Key definitions include:
    * `ScanSettings`
    * `ScanSettings.flags`
    * `ScanSettings.knowsBase85`
    * `ScanSettings.knowsDictNames`
-/

namespace PostScript

/-
  The language level, three switches and three limits. The
  limit on strings holds for the length of any token.
-/
structure ScanSettings where
  languageLevel : Nat := 3
  controlDEnds : Bool := false
  binaryTokens : Bool := true
  dictNames : Bool := false
  procedureDepth : Nat := 256
  arrayLength : Nat := 0xffff
  stringLength : Nat := 0xffff
deriving DecidableEq, Repr

namespace ScanSettings

/- The switches from bits; other bits mean nothing. -/
def withFlags
    (cfg : ScanSettings)
    (flags : Nat) : ScanSettings :=
  { cfg with
    controlDEnds := flags.testBit 0
    binaryTokens := flags.testBit 1
    dictNames := flags.testBit 2 }

/- The switches as bits. -/
def flags
    (cfg : ScanSettings) : Nat :=
  (if cfg.controlDEnds then 1 else 0) +
    (if cfg.binaryTokens then 2 else 0) +
    (if cfg.dictNames then 4 else 0)

/- Strings in base 85 belong to level 2. -/
def knowsBase85
    (cfg : ScanSettings) : Bool :=
  2 ≤ cfg.languageLevel

/- Doubled angle brackets are names from level 2 on. -/
def knowsDictNames
    (cfg : ScanSettings) : Bool :=
  cfg.knowsBase85 || cfg.dictNames

end ScanSettings

end PostScript
