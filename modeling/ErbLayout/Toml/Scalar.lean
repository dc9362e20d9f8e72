import ErbLayout.Placeholder.Name
import ErbLayout.Text.Number
import ErbLayout.Toml.Value
/-!
The values that are no containers: strings in their four forms, numbers, booleans, dates and times.
A reader gets the text from its first character on and gives the value with the text after it.
-/

namespace ErbLayout.Toml

abbrev Parse (α : Type) := List Char → Option (α × List Char)

def isSpace (c : Char) : Bool := c == ' ' || c == '\t'

def skipSpace (s : List Char) : List Char := s.dropWhile isSpace

/-- A control character. Only the tab may stand in a document as it is, and the line feed where
lines may end. -/
def isIllegal (multiline : Bool) (c : Char) : Bool :=
  (c.toNat < 32 || c.toNat == 127) && c != '\t' && !(multiline && c == '\n')

/-- Where a reader stands in a string with escapes: among its characters, after a backslash, among
the digits of a code point of which `n` has been read, or after the backslash of a line that goes
on after its end and the margin of the next one. -/
inductive StringState where
  | plain
  | escape
  | code (todo n : Nat)
  | lineEnd
  | margin
  deriving DecidableEq, Repr

def escaped? : Char → Option Char
  | 'b' => some '\x08'
  | 't' => some '\t'
  | 'n' => some '\n'
  | 'f' => some '\x0c'
  | 'r' => some '\r'
  | '"' => some '"'
  | '\\' => some '\\'
  | _ => none

def hexValue? (c : Char) : Option Nat :=
  if 'A' ≤ c && c ≤ 'F' then some (c.toNat - 55) else Placeholder.hexValue c

def scalarValue? (n : Nat) : Option Char := if n.isValidChar then some (Char.ofNat n) else none

/-- After the three marks that end a string of many lines, up to two more belong to it. -/
def moreMarks (mark : Char) (text : List Char) : Parse (List Char)
  | a :: b :: s =>
    if a == mark then
      if b == mark then some (text ++ [mark, mark], s) else some (text ++ [mark], b :: s)
    else some (text, a :: b :: s)
  | [a] => if a == mark then some (text ++ [mark], []) else some (text, [a])
  | [] => some (text, [])

/-- The rest of a string with escapes, where `acc`, read backwards, has been seen of it. -/
def stringFrom (multiline : Bool) : List Char → StringState → Parse (List Char)
  | _, _, [] => none
  | acc, .escape, c :: s =>
    if multiline && isSpace c then stringFrom multiline acc .lineEnd s
    else if multiline && c == '\n' then stringFrom multiline acc .margin s
    else if c == 'u' then stringFrom multiline acc (.code 3 0) s
    else if c == 'U' then stringFrom multiline acc (.code 7 0) s
    else
      match escaped? c with
      | some c => stringFrom multiline (c :: acc) .plain s
      | none => none
  | acc, .code todo n, c :: s =>
    match hexValue? c, todo with
    | none, _ => none
    | some d, k + 1 => stringFrom multiline acc (.code k (16 * n + d)) s
    | some d, 0 =>
      match scalarValue? (16 * n + d) with
      | some c => stringFrom multiline (c :: acc) .plain s
      | none => none
  | acc, .lineEnd, c :: s =>
    if isSpace c then stringFrom multiline acc .lineEnd s
    else if c == '\n' then stringFrom multiline acc .margin s
    else none
  | acc, state, c :: s =>
    if state == .margin && (isSpace c || c == '\n') then stringFrom multiline acc .margin s
    else if c == '"' then
      if !multiline then some (acc.reverse, s)
      else if ['"', '"'].isPrefixOf s then moreMarks '"' acc.reverse (s.drop 2)
      else stringFrom multiline (c :: acc) .plain s
    else if c == '\\' then stringFrom multiline acc .escape s
    else if isIllegal multiline c then none
    else stringFrom multiline (c :: acc) .plain s

/-- The rest of a string without escapes. -/
def literalFrom (multiline : Bool) : List Char → Parse (List Char)
  | _, [] => none
  | acc, c :: s =>
    if c == '\'' then
      if !multiline then some (acc.reverse, s)
      else if ['\'', '\''].isPrefixOf s then moreMarks '\'' acc.reverse (s.drop 2)
      else literalFrom multiline (c :: acc) s
    else if isIllegal multiline c then none
    else literalFrom multiline (c :: acc) s

/-- A line feed right after the marks that begin a string of many lines is no part of it. -/
def skipFirstBreak : List Char → List Char
  | '\n' :: s => s
  | s => s

def string? : Parse (List Char)
  | '"' :: '"' :: '"' :: s => stringFrom true [] .plain (skipFirstBreak s)
  | '"' :: s => stringFrom false [] .plain s
  | '\'' :: '\'' :: '\'' :: s => literalFrom true [] (skipFirstBreak s)
  | '\'' :: s => literalFrom false [] s
  | _ => none

/-- Further digits, each after an underscore or not, and the text after them. -/
def moreDigits (p : Char → Bool) : List Char → List Char × List Char
  | '_' :: c :: s =>
    if p c then
      let (ds, r) := moreDigits p s
      (c :: ds, r)
    else ([], '_' :: c :: s)
  | c :: s =>
    if p c then
      let (ds, r) := moreDigits p s
      (c :: ds, r)
    else ([], c :: s)
  | [] => ([], [])

def digits? (p : Char → Bool) : Parse (List Char)
  | c :: s =>
    if p c then
      let (ds, r) := moreDigits p s
      some (c :: ds, r)
    else none
  | [] => none

def isDecimal (c : Char) : Bool := '0' ≤ c && c ≤ '9'

def isHex (c : Char) : Bool := (hexValue? c).isSome

def ofDigits (base : Nat) (ds : List Char) : Nat :=
  ds.foldl (fun n c => base * n + (hexValue? c).getD 0) 0

/-- A number to another base than ten. -/
def based? : Parse Value
  | '0' :: c :: s =>
    let number (base : Nat) (p : Char → Bool) : Option (Value × List Char) :=
      (digits? p s).map fun (ds, r) => (.integer (ofDigits base ds), r)
    if c == 'x' then number 16 isHex
    else if c == 'o' then number 8 fun c => '0' ≤ c && c ≤ '7'
    else if c == 'b' then number 2 fun c => '0' ≤ c && c ≤ '1'
    else none
  | _ => none

/-- A point with digits after it, or nothing. -/
def fraction (s : List Char) : List Char × List Char :=
  match s with
  | '.' :: r =>
    match digits? isDecimal r with
    | some (ds, r) => ('.' :: ds, r)
    | none => ([], s)
  | _ => ([], s)

def sign : List Char → List Char × List Char
  | '+' :: s => (['+'], s)
  | '-' :: s => (['-'], s)
  | s => ([], s)

/-- An exponent with its mark, or nothing. -/
def exponent (s : List Char) : List Char × List Char :=
  match s with
  | c :: r =>
    if c == 'e' || c == 'E' then
      let (mark, r) := sign r
      match digits? isDecimal r with
      | some (ds, r) => (c :: mark ++ ds, r)
      | none => ([], s)
    else ([], s)
  | [] => ([], s)

/-- The digits of a whole number to base ten; after a zero at its head there are no more. -/
def whole? : Parse (List Char)
  | '0' :: s => some (['0'], s)
  | s => digits? isDecimal s

def number? (s : List Char) : Option (Value × List Char) :=
  match based? s with
  | some r => some r
  | none =>
    let (mark, s) := sign s
    match whole? s with
    | none => none
    | some (ds, s) =>
      let (frac, s) := fraction s
      let (exp, s) := exponent s
      if frac.isEmpty && exp.isEmpty then
        let n : Int := ofDigits 10 ds
        some (.integer (if mark == ['-'] then -n else n), s)
      else some (.real (mark ++ ds ++ frac ++ exp), s)

/-- Infinity, or what is no number. -/
def special? (s : List Char) : Option (Value × List Char) :=
  let (mark, r) := sign s
  let word := r.take 3
  if word == "inf".toList || word == "nan".toList then some (.real (mark ++ word), r.drop 3)
  else none

/-- A number of exactly two digits between the bounds. -/
def twoDigits? (low high : Nat) : Parse Nat
  | a :: b :: s =>
    let n := ofDigits 10 [a, b]
    if isDecimal a && isDecimal b && low ≤ n && n ≤ high then some (n, s) else none
  | _ => none

def after? (c : Char) : List Char → Option (List Char)
  | a :: s => if a == c then some s else none
  | [] => none

/-- The text after hours, minutes and seconds, which may have a fraction. -/
def clock? (s : List Char) : Option (List Char) := do
  let (_, s) ← twoDigits? 0 23 s
  let (_, s) ← twoDigits? 0 59 (← after? ':' s)
  let (_, s) ← twoDigits? 0 59 (← after? ':' s)
  match s with
  | '.' :: c :: r => some (if isDecimal c then r.dropWhile isDecimal else s)
  | _ => some s

/-- The text after the offset of a time, if it has one. -/
def skipOffset (s : List Char) : List Char :=
  match s with
  | c :: r =>
    if c == 'Z' || c == 'z' then r
    else if c == '+' || c == '-' then
      let hours := do
        let (_, r) ← twoDigits? 0 23 r
        let (_, r) ← twoDigits? 0 59 (← after? ':' r)
        return r
      hours.getD s
    else s
  | [] => s

def daysIn (year month : Nat) : Nat :=
  if month == 2 then
    if year % 4 == 0 && (year % 100 != 0 || year % 400 == 0) then 29 else 28
  else if [4, 6, 9, 11].contains month then 30
  else 31

/-- A day as it is written, with the year, month and day that it names. -/
def day? (s : List Char) : Option ((Nat × Nat × Nat) × List Char) := do
  let (century, s) ← twoDigits? 0 99 s
  let (year, s) ← twoDigits? 0 99 s
  let (month, s) ← twoDigits? 1 12 (← after? '-' s)
  let (day, s) ← twoDigits? 1 31 (← after? '-' s)
  return ((100 * century + year, month, day), s)

/-- The text after the time of day that may follow a day. -/
def skipTimeOfDay (s : List Char) : List Char :=
  match s with
  | c :: r =>
    if c == 'T' || c == 't' || c == ' ' then ((clock? r).map skipOffset).getD s else s
  | [] => s

/-- The text of which `rest` is the end, without that end. -/
def upTo (s rest : List Char) : List Char := s.take (s.length - rest.length)

/-- A date or a time. A text that begins like a day of the calendar must name one. -/
def moment? (s : List Char) : Option (Option (Value × List Char)) :=
  match day? s with
  | some ((year, month, day), r) =>
    if year == 0 || day > daysIn year month then some none
    else
      let r := skipTimeOfDay r
      some (some (.date (upTo s r), r))
  | none => (clock? s).map fun r => some (.time (upTo s r), r)

def scalar? (s : List Char) : Option (Value × List Char) :=
  match s with
  | '"' :: _ | '\'' :: _ => (string? s).map fun (t, r) => (.string t, r)
  | 't' :: 'r' :: 'u' :: 'e' :: r => some (.boolean true, r)
  | 'f' :: 'a' :: 'l' :: 's' :: 'e' :: r => some (.boolean false, r)
  | s =>
    match moment? s with
    | some found => found
    | none =>
      match number? s with
      | some r => some r
      | none => special? s

end ErbLayout.Toml
