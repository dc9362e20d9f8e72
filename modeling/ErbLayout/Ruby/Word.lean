/-!
The characters and words of Ruby.
-/

namespace ErbLayout.Ruby

abbrev Word := List Char

def isSpace (c : Char) : Bool :=
  c == ' ' || c == '\t' || c == '\n' || c == '\r' || c == '\x0b' || c == '\x0c'

def punctuation : List Char :=
  ":;`\"'@$#.,|^&<=>+-*/\\%?!~()[]".toList ++ ['{', '}']

/-- Everything but controls, white space and punctuation may stand in a word. -/
def isWordChar (c : Char) : Bool := c.toNat > 0x1F && !isSpace c && !punctuation.contains c

def isDigit (c : Char) : Bool := '0' ≤ c && c ≤ '9'

def isBinaryDigit (c : Char) : Bool := c == '0' || c == '1'

def isOctalDigit (c : Char) : Bool := '0' ≤ c && c ≤ '7'

def isHexDigit (c : Char) : Bool := isDigit c || ('a' ≤ c && c ≤ 'f') || ('A' ≤ c && c ≤ 'F')

def isCapital (c : Char) : Bool := 'A' ≤ c && c ≤ 'Z'

def isSmall (c : Char) : Bool := 'a' ≤ c && c ≤ 'z'

/-- Letters, digits and underscores, which are all that the names of global variables hold. -/
def isNameChar (c : Char) : Bool := isSmall c || isCapital c || isDigit c || c == '_'

def isWordStart (c : Char) : Bool := isWordChar c && !isDigit c

/-- The word that a text begins with, and the rest. -/
def readWord : List Char → Option (Word × List Char)
  | c :: s => if isWordStart c then some ((c :: s).span isWordChar) else none
  | [] => none

/-- The text after a word. -/
def afterWord (s : List Char) : Option (List Char) := (readWord s).map Prod.snd

/-- The text after a `?` or `!` that belongs to the word before it. -/
def afterSuffix : List Char → Option (List Char)
  | '!' :: '=' :: _ => none
  | '!' :: s => some s
  | '?' :: '=' :: '=' :: s => some ('=' :: '=' :: s)
  | '?' :: '=' :: '~' :: s => some ('=' :: '~' :: s)
  | '?' :: '=' :: '>' :: s => some ('=' :: '>' :: s)
  | '?' :: '=' :: _ => none
  | '?' :: s => some s
  | _ => none

/-- Whether no white space is next. -/
def standsNextTo : List Char → Bool
  | c :: _ => !isSpace c
  | [] => true

theorem readWord_eq_none_of_digit {c : Char} (s : List Char) (h : isDigit c = true) :
    readWord (c :: s) = none := by
  simp [readWord, isWordStart, h]

end ErbLayout.Ruby
