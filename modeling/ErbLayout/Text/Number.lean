import ErbLayout.Text.Blank
/-!
Integers as people write them: digits of any script, underscores between them, a sign in front and
white space around.
-/

namespace ErbLayout

/-- The zeros of the scripts that have decimal digits; the nine digits follow each of them. -/
def zeros : List Nat := [
  0x30, 0x660, 0x6F0, 0x7C0, 0x966, 0x9E6, 0xA66, 0xAE6, 0xB66, 0xBE6, 0xC66, 0xCE6, 0xD66, 0xDE6,
  0xE50, 0xED0, 0xF20, 0x1040, 0x1090, 0x17E0, 0x1810, 0x1946, 0x19D0, 0x1A80, 0x1A90, 0x1B50,
  0x1BB0, 0x1C40, 0x1C50, 0xA620, 0xA8D0, 0xA900, 0xA9D0, 0xA9F0, 0xAA50, 0xABF0, 0xFF10, 0x104A0,
  0x10D30, 0x11066, 0x110F0, 0x11136, 0x111D0, 0x112F0, 0x11450, 0x114D0, 0x11650, 0x116C0,
  0x11730, 0x118E0, 0x11950, 0x11C50, 0x11D50, 0x11DA0, 0x16A60, 0x16AC0, 0x16B50, 0x1D7CE,
  0x1D7D8, 0x1D7E2, 0x1D7EC, 0x1D7F6, 0x1E140, 0x1E2F0, 0x1E950, 0x1FBF0]

/-- The value of a decimal digit of any script. -/
def digitValue? (c : Char) : Option Nat :=
  (zeros.find? fun z => z ≤ c.toNat && c.toNat < z + 10).map (c.toNat - ·)

def isDigit (c : Char) : Bool := (digitValue? c).isSome

namespace Text

/-- White space around a number. The information separators are none here. -/
def isNumberSpace (c : Char) : Bool := isBlank c && !(28 ≤ c.toNat && c.toNat ≤ 31)

/-- The number that begins with `n`. `mayBreak` says that a digit has just been read, so that an
underscore may follow, and the text may end. -/
def digitsFrom (n : Nat) : Bool → List Char → Option Nat
  | mayBreak, [] => if mayBreak then some n else none
  | mayBreak, c :: s =>
    match digitValue? c with
    | some d => digitsFrom (10 * n + d) true s
    | none => if c == '_' && mayBreak then digitsFrom n false s else none

/-- The integer that a text writes. -/
def integer? (s : List Char) : Option Int :=
  let s := (s.dropWhile isNumberSpace).reverse.dropWhile isNumberSpace |>.reverse
  match s with
  | '-' :: s => (digitsFrom 0 false s).map fun n => -(n : Int)
  | '+' :: s => (digitsFrom 0 false s).map fun n => (n : Int)
  | s => (digitsFrom 0 false s).map fun n => (n : Int)

theorem digitsFrom_nil (n : Nat) : digitsFrom n true [] = some n := rfl

end Text

end ErbLayout
