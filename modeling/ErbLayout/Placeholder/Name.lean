import ErbLayout.Text.Quoted
import ErbLayout.Text.Scan
/-!
The names of placeholders: `erb`, thirty-two digits to base sixteen, `tag`. They hold no
punctuation of markup, so a name never reads as a part of a tag's syntax.
-/

namespace ErbLayout.Placeholder

abbrev Name := BitVec 128

def opening : List Char := ['e', 'r', 'b']

def ending : List Char := ['t', 'a', 'g']

def Name.text (n : Name) : List Char := opening ++ Text.hexDigits 32 n.toNat ++ ending

def Name.size : Nat := 38

/-- The value of a lower-case digit to base sixteen. -/
def hexValue (c : Char) : Option Nat :=
  if '0' ≤ c && c ≤ '9' then some (c.toNat - 48)
  else if 'a' ≤ c && c ≤ 'f' then some (c.toNat - 87)
  else none

/-- Exactly `count` digits, appended to the number `n`, and the text after them. -/
def readDigits : Nat → Nat → List Char → Option (Nat × List Char)
  | 0, n, s => some (n, s)
  | _ + 1, _, [] => none
  | count + 1, n, c :: s =>
    match hexValue c with
    | some d => readDigits count (16 * n + d) s
    | none => none

def Name.read : Text.Reader Name
  | 'e' :: 'r' :: 'b' :: s =>
    match readDigits 32 0 s with
    | some (n, 't' :: 'a' :: 'g' :: _) => some (BitVec.ofNat 128 n, Name.size)
    | _ => none
  | _ => none

/-- The names that occur in a text, those that overlap others among them. -/
def Name.occurrences : List Char → List Name
  | [] => []
  | c :: s =>
    match Name.read (c :: s) with
    | some (n, _) => n :: Name.occurrences s
    | none => Name.occurrences s

/-- Lower-case ASCII letters and digits, of which the words shaped like names consist. -/
def isNameChar (c : Char) : Bool := ('a' ≤ c && c ≤ 'z') || ('0' ≤ c && c ≤ '9')

/-- The length of the longest stretch of `s` that ends with the last `tag` in it. -/
def lastEnding : Nat → List Char → Option Nat
  | _, [] => none
  | n, c :: s =>
    match lastEnding (n + 1) s with
    | some m => some m
    | none => if ending.isPrefixOf (c :: s) then some (n + 3) else none

/-- A word with the outline of a name, `erb` and `tag` with letters or digits between. -/
def lookalike : Text.Reader (List Char)
  | 'e' :: 'r' :: 'b' :: s =>
    match s.takeWhile isNameChar with
    | [] => none
    | _ :: r =>
      match lastEnding 1 r with
      | some n => some ('e' :: 'r' :: 'b' :: s.take n, n + 3)
      | none => none
  | _ => none

end ErbLayout.Placeholder
