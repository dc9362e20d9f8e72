import ErbLayout.Ruby.Source
/-!
What stands between the tokens of Ruby: white space, continued lines and comments. Where a line
break counts it is a token itself, unless the next line goes on with a call.
-/

namespace ErbLayout.Ruby

/-- What white space comes to: a token of its own, or the code after it. White space that holds
something else comes to nothing. -/
inductive Gap where
  | lineBreak (rest : List Char)
  | body (rest : List Char)
  | code (spaced : Bool) (rest : List Char)
  | none
  deriving DecidableEq, Repr

/-- Whether code goes on with a call after a line break. -/
def goesOn : List Char → Bool
  | '.' :: '.' :: _ => false
  | '.' :: _ => true
  | '&' :: '.' :: _ => true
  | _ => false

/-- The white space at the start of a text, where `crossed` is the text from the first line break
on. The body of a here-document that was announced begins at the line break. A comment is left for
what comes after the gap. -/
def gapFrom (breaks body spaced : Bool) (crossed : Option (List Char)) : List Char → Gap
  | '\\' :: '\r' :: c :: s => if isSpace c then gapFrom breaks body true crossed s else .none
  | '\\' :: c :: s => if isSpace c then gapFrom breaks body true crossed s else .none
  | '\\' :: [] => .none
  | [] =>
    match crossed with
    | some line => if breaks then .lineBreak line else .code spaced []
    | none => .code spaced []
  | c :: s =>
    if c == ' ' || c == '\t' then gapFrom breaks body true crossed s
    else if c == '\r' then
      if body then .body (c :: s) else gapFrom breaks body true crossed s
    else if c == '\n' then
      if body then .body (c :: s)
      else gapFrom breaks body true (crossed.or (some (c :: s))) s
    else
      match crossed with
      | none => .code spaced (c :: s)
      | some line =>
        if c != '#' && breaks then if goesOn (c :: s) then .none else .lineBreak line
        else .code spaced (c :: s)

def gap (breaks body : Bool) (s : List Char) : Gap := gapFrom breaks body false none s

/-- The text after white space and continued lines, and whether there is any. -/
def skipBlank (spaced : Bool) : List Char → Bool × List Char
  | '\\' :: '\n' :: s => skipBlank true s
  | '\\' :: '\r' :: '\n' :: s => skipBlank true s
  | c :: s => if isSpace c then skipBlank true s else (spaced, c :: s)
  | [] => (spaced, [])

def skipLine (s : List Char) : List Char := s.dropWhile (· != '\n')

/-- The text after the line that ends a block comment. -/
def afterBlockEnd : List Char → Option (List Char)
  | [] => none
  | '=' :: 'e' :: 'n' :: 'd' :: s => some (skipLine s)
  | '=' :: 'e' :: 'n' :: _ :: s => afterBlockEnd s
  | '=' :: 'e' :: c :: s => if c == 'n' then none else afterBlockEnd s
  | '=' :: c :: s => if c == 'e' then none else afterBlockEnd s
  | _ :: s => afterBlockEnd s

/-- The text after a comment of several lines. -/
def afterBlockComment (s : List Char) : Option (List Char) :=
  if "=begin".toList.isPrefixOf s then (skipLine s).tail?.bind afterBlockEnd else none

/-- The text after a comment. Code in a text is none, and where an equals sign may come no block
comment begins. -/
def afterComment (expects : Expected) (s : List Char) : Option (List Char) :=
  match s with
  | '#' :: t => if t.head? == some '{' && expects .codeStart then none else some (skipLine t)
  | '=' :: _ => if expects .assign then none else afterBlockComment s
  | _ => none

theorem gap_space (breaks body : Bool) (s : List Char) :
    gap breaks body (' ' :: s) = gapFrom breaks body true none s := by
  simp [gap, gapFrom]

end ErbLayout.Ruby
