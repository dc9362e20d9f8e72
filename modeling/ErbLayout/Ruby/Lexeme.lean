import ErbLayout.Ruby.Delimited
/-!
Numbers, names of variables, symbols, characters and escape sequences of Ruby: how far each reaches.
-/

namespace ErbLayout.Ruby

/-- The text after more digits, of which each may have an underscore before it. -/
def skipDigits (digit : Char → Bool) : List Char → List Char
  | [] => []
  | '_' :: c :: s => if digit c then skipDigits digit s else '_' :: c :: s
  | c :: s => if digit c then skipDigits digit s else c :: s

/-- The text after at least one digit. -/
def afterDigits (digit : Char → Bool) : List Char → Option (List Char)
  | c :: s => if digit c then some (skipDigits digit s) else none
  | [] => none

/-- The digits of a number with a base, by the letter of the base. -/
def bases : List (Char × (Char → Bool)) :=
  [('b', isBinaryDigit), ('B', isBinaryDigit), ('o', isOctalDigit), ('O', isOctalDigit),
    ('d', isDigit), ('D', isDigit), ('x', isHexDigit), ('X', isHexDigit)]

/-- The text after an integer. A letter that no digit of its base follows is not part of it. -/
def afterInteger (s : List Char) : Option (List Char) :=
  let based : Option (List Char) :=
    match s with
    | '0' :: b :: t => (bases.lookup b).bind (afterDigits · t)
    | _ => none
  based.or (afterDigits isDigit s)

def skipExponent (s : List Char) : List Char :=
  match s with
  | e :: t =>
    if e == 'e' || e == 'E' then
      let digits := if t.head? == some '+' || t.head? == some '-' then t.drop 1 else t
      (afterDigits isDigit digits).getD s
    else s
  | [] => s

/-- The text after a number that may have decimal places and an exponent. -/
def afterFloat (s : List Char) : Option (List Char) :=
  (afterDigits isDigit s).map fun t =>
    match t with
    | '.' :: c :: u => skipExponent (if isDigit c then skipDigits isDigit u else t)
    | _ => skipExponent t

/-- The text after a global variable, from behind its sign. -/
def afterGlobal (s : List Char) : List Char :=
  let t := if s.head? == some '-' then s.drop 1 else s
  match t with
  | c :: u =>
    if isDigit c then u.dropWhile isDigit
    else if isNameChar c then u.dropWhile isNameChar
    else if globalSigns.contains c then u
    else t
  | [] => t

/-- The operators that may be symbols; of those that one text begins with the longest is first. -/
def symbolOperators : List Word :=
  ["<=>", "===", "[]=", "<<", "<=", ">>", ">=", "=~", "==", "+@", "-@", "~@", "..", "!=", "!~",
    "**", "[]", "<", ">", "+", "-", "~", "&", "^", "|", "/", "%", "`", "!", "*"].map String.toList

/-- The text after the signs of a variable. -/
def skipVariableSign : List Char → List Char
  | '@' :: '@' :: s => s
  | '@' :: s => s
  | '$' :: s => s
  | s => s

/-- The text after an equals sign that does not begin another sign. -/
def skipAssign : List Char → List Char
  | '=' :: s =>
    if s.head? == some '~' || s.head? == some '>' || s.head? == some '=' then '=' :: s else s
  | s => s

/-- The text after the end of a symbol: what is left of its word, a mark and an equals sign. -/
def skipSymbolEnd (s : List Char) : List Char :=
  let t := s.dropWhile isWordChar
  skipAssign (if t.head? == some '?' || t.head? == some '!' then t.drop 1 else t)

/-- The text after a symbol without quotes, from behind its colon. -/
def afterSymbol (s : List Char) : Option (List Char) :=
  let s := skipVariableSign s
  let begun : Option (List Char) :=
    match s with
    | c :: t =>
      if isWordChar c then some t
      else (symbolOperators.find? (·.isPrefixOf s)).map fun op => s.drop op.length
    | [] => none
  begun.map skipSymbolEnd

/-- The text after an escaped character, from behind the character. -/
def skipCharacterCode (s : List Char) : List Char :=
  match s with
  | '{' :: t =>
    match t.dropWhile isHexDigit with
    | '}' :: u => u
    | _ => s
  | '-' :: c :: t =>
    if isSpace c then s
    else
      match t with
      | m :: '-' :: d :: u => if (m == 'M' || m == 'C') && !isSpace d then u else t
      | _ => t
  | _ => s.dropWhile isHexDigit

/-- The text after a character, from behind its question mark. -/
def afterCharacter : List Char → Option (List Char)
  | '\\' :: c :: s => if isSpace c then some (c :: s) else some (skipCharacterCode s)
  | c :: s => if isSpace c then none else some s
  | [] => none

/-- The text after so many digits at most. -/
def skipAtMost (n : Nat) (digit : Char → Bool) (s : List Char) : List Char :=
  s.drop ((s.take n).takeWhile digit).length

/-- The text after an escape sequence, from behind its backslash. -/
def afterEscape : List Char → Option (List Char)
  | 'x' :: s => if s.head?.any isHexDigit then some (skipAtMost 2 isHexDigit s) else none
  | 'u' :: '{' :: s =>
    match s.span fun c => isHexDigit c || c == ' ' with
    | (_ :: _, '}' :: t) => some t
    | _ => none
  | 'u' :: s =>
    let code := (s.take 4).takeWhile isHexDigit
    if code.length == 4 then some (s.drop 4) else none
  | c :: s => some (if isOctalDigit c then skipAtMost 2 isOctalDigit s else s)
  | [] => none

theorem afterDigits_cons (digit : Char → Bool) (c : Char) (s : List Char) :
    afterDigits digit (c :: s) = if digit c then some (skipDigits digit s) else none := rfl

end ErbLayout.Ruby
