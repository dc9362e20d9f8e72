import ErbLayout.Text.Lines
/-!
Command lines as text: the words of one, with quotes and escapes taken off, and a line whose words
are given.
-/

namespace ErbLayout.Command

abbrev Word := List Char

inductive WordsError where
  | noClosingQuotation
  | noEscapedCharacter
  deriving DecidableEq, Repr

def WordsError.message : WordsError → List Char
  | .noClosingQuotation => "No closing quotation".toList
  | .noEscapedCharacter => "No escaped character".toList

/-- Where a reader stands in a command line. After an escape it goes on in the quotes around it, or
outside. -/
inductive Position where
  | between
  | word
  | quotes (mark : Char)
  | escape (inside : Option Char)
  deriving DecidableEq, Repr

def isSeparator (c : Char) : Bool := c == ' ' || c == '\t' || c == '\r' || c == '\n'

def isQuote (c : Char) : Bool := c == '\'' || c == '"'

/-- The words of a line, where `word`, read backwards, has been seen of the current one. -/
def splitFrom (word : Word) : Position → List Char → Except WordsError (List Word)
  | .between, [] => .ok []
  | .word, [] => .ok [word.reverse]
  | .quotes _, [] => .error .noClosingQuotation
  | .escape _, [] => .error .noEscapedCharacter
  | .between, c :: s =>
    if isSeparator c then splitFrom [] .between s
    else if c == '\\' then splitFrom [] (.escape none) s
    else if isQuote c then splitFrom [] (.quotes c) s
    else splitFrom [c] .word s
  | .word, c :: s =>
    if isSeparator c then do return word.reverse :: (← splitFrom [] .between s)
    else if c == '\\' then splitFrom word (.escape none) s
    else if isQuote c then splitFrom word (.quotes c) s
    else splitFrom (c :: word) .word s
  | .quotes q, c :: s =>
    if c == q then splitFrom word .word s
    else if c == '\\' && q == '"' then splitFrom word (.escape (some q)) s
    else splitFrom (c :: word) (.quotes q) s
  | .escape none, c :: s => splitFrom (c :: word) .word s
  | .escape (some q), c :: s =>
    let word := if c != '\\' && c != q then '\\' :: word else word
    splitFrom (c :: word) (.quotes q) s

/-- The words of a command line. An escape in double quotes that has no effect there is kept. -/
def split (line : List Char) : Except WordsError (List Word) := splitFrom [] .between line

/-- A character that means nothing to a shell. -/
def isSafe (c : Char) : Bool :=
  ('a' ≤ c && c ≤ 'z') || ('A' ≤ c && c ≤ 'Z') || ('0' ≤ c && c ≤ '9') ||
    "_@%+=:,./-".toList.contains c

/-- A single quote, in the only form in which it can stand between single quotes. -/
def quoteInQuotes : List Char := ['\'', '"', '\'', '"', '\'']

def quoteWord (w : Word) : List Char :=
  if w.isEmpty then ['\'', '\'']
  else if w.all isSafe then w
  else '\'' :: w.flatMap (fun c => if c == '\'' then quoteInQuotes else [c]) ++ ['\'']

/-- The command line with the given words. -/
def join (ws : List Word) : List Char := Text.joinWith [' '] (ws.map quoteWord)

theorem split_nil : split [] = .ok [] := rfl

end ErbLayout.Command
