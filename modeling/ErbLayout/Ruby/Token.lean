/-!
The tokens of Ruby, and the texts of those that have only one.
-/

namespace ErbLayout.Ruby

/-- The first tokens are known by their form or by where they stand, the attached ones by having
nothing before them, not even white space, and the others by their text. -/
inductive Token where
  | endOfCode | lineBreak | noLineBreak | identifier | constant | instanceVariable
  | classVariable | globalVariable | suffixedIdentifier | suffixedConstant | hashKey | integer
  | float | character | plainSymbol | stringStart | symbolStart | subshellStart | regexStart
  | stringArrayStart | symbolArrayStart | hereDocStart | hereDocBodyStart | stringContent
  | hereDocContent | escapeSequence | shortInterpolation | stringEnd | hereDocEnd | endMark
  | blockAmpersand | splatStar | hashSplatStars | binaryStar | binaryStars | unaryMinus
  | numberMinus | binaryMinus | singletonSign | subscriptBracket
  | attachedParen | attachedBracket | attachedColon | attachedColons | attachedAssign
  | bang | notEqual | noMatchSign | codeStart | percent | percentAssign | ampersand | andAnd
  | andAndAssign | safeDot | ampersandAssign | openParen | closeParen | star | starStar
  | starStarAssign | starAssign | plus | plusAssign | plusAt | comma | minus | minusAssign
  | thinArrow | minusAt | dot | dotDot | dotDotDot | slash | slashAssign | colon | colonColon
  | semicolon | less | shiftLeft | shiftLeftAssign | lessEqual | spaceship | assign | equal
  | caseEqual | fatArrow | matchSign | greater | greaterEqual | shiftRight | shiftRightAssign
  | question | openBracket | brackets | bracketsAssign | closeBracket | caret | caretAssign
  | backquote | openBrace | bar | barAssign | orOr | orOrAssign | closeBrace | tilde | tildeAt
  | kwAlias | kwAnd | kwAtBegin | kwAtEnd | kwBegin | kwBreak | kwCase | kwClass | kwDataEnd
  | kwDef | kwDefined | kwDo | kwElse | kwElsif | kwEncoding | kwEnd | kwEnsure | kwFalse
  | kwFile | kwFor | kwIf | kwIn | kwLine | kwModule | kwNext | kwNil | kwNot | kwOr | kwRedo
  | kwRescue | kwRetry | kwReturn | kwSelf | kwSuper | kwThen | kwTrue | kwUndef | kwUnless
  | kwUntil | kwUpperFalse | kwUpperNil | kwUpperTrue | kwWhen | kwWhile | kwYield | suffixI
  | suffixR | suffixRi
  deriving DecidableEq, Repr

namespace Token

def number (t : Token) : Nat := t.ctorIdx

/-- How many tokens there are. -/
def count : Nat := number .suffixRi + 1

/-- Signs, of which the longest that may come next counts. -/
def signs : List (List Char × Token) :=
  [("!", .bang), ("!=", .notEqual), ("!~", .noMatchSign), ("#\x7b", .codeStart), ("%", .percent),
    ("%=", .percentAssign), ("&", .ampersand), ("&&", .andAnd), ("&&=", .andAndAssign),
    ("&.", .safeDot), ("&=", .ampersandAssign), ("(", .openParen), (")", .closeParen),
    ("*", .star), ("**", .starStar), ("**=", .starStarAssign), ("*=", .starAssign), ("+", .plus),
    ("+=", .plusAssign), ("+@", .plusAt), (",", .comma), ("-", .minus), ("-=", .minusAssign),
    ("->", .thinArrow), ("-@", .minusAt), (".", .dot), ("..", .dotDot), ("...", .dotDotDot),
    ("/", .slash), ("/=", .slashAssign), (":", .colon), ("::", .colonColon), (";", .semicolon),
    ("<", .less), ("<<", .shiftLeft), ("<<=", .shiftLeftAssign), ("<=", .lessEqual),
    ("<=>", .spaceship), ("=", .assign), ("==", .equal), ("===", .caseEqual), ("=>", .fatArrow),
    ("=~", .matchSign), (">", .greater), (">=", .greaterEqual), (">>", .shiftRight),
    (">>=", .shiftRightAssign), ("?", .question), ("[", .openBracket), ("[]", .brackets),
    ("[]=", .bracketsAssign), ("]", .closeBracket), ("^", .caret), ("^=", .caretAssign),
    ("`", .backquote), ("\x7b", .openBrace), ("|", .bar), ("|=", .barAssign), ("||", .orOr),
    ("||=", .orOrAssign), ("\x7d", .closeBrace), ("~", .tilde), ("~@", .tildeAt),
    ("BEGIN", .kwAtBegin), ("END", .kwAtEnd), ("defined?", .kwDefined), ("FALSE", .kwUpperFalse),
    ("NIL", .kwUpperNil), ("TRUE", .kwUpperTrue)].map fun (text, t) => (text.toList, t)

/-- Signs that stand next to what is before them. -/
def attachedSigns : List (List Char × Token) :=
  [("(", .attachedParen), ("[", .attachedBracket), (":", .attachedColon),
    ("::", .attachedColons), ("=", .attachedAssign)].map fun (text, t) => (text.toList, t)

/-- Names that may be keywords. -/
def keywords : List (List Char × Token) :=
  [("alias", .kwAlias), ("and", .kwAnd), ("begin", .kwBegin), ("break", .kwBreak),
    ("case", .kwCase), ("class", .kwClass), ("__END__", .kwDataEnd), ("def", .kwDef),
    ("do", .kwDo), ("else", .kwElse), ("elsif", .kwElsif), ("__ENCODING__", .kwEncoding),
    ("end", .kwEnd), ("ensure", .kwEnsure), ("false", .kwFalse), ("__FILE__", .kwFile),
    ("for", .kwFor), ("if", .kwIf), ("in", .kwIn), ("__LINE__", .kwLine), ("module", .kwModule),
    ("next", .kwNext), ("nil", .kwNil), ("not", .kwNot), ("or", .kwOr), ("redo", .kwRedo),
    ("rescue", .kwRescue), ("retry", .kwRetry), ("return", .kwReturn), ("self", .kwSelf),
    ("super", .kwSuper), ("then", .kwThen), ("true", .kwTrue), ("undef", .kwUndef),
    ("unless", .kwUnless), ("until", .kwUntil), ("when", .kwWhen), ("while", .kwWhile),
    ("yield", .kwYield), ("i", .suffixI), ("r", .suffixR), ("ri", .suffixRi)].map
      fun (text, t) => (text.toList, t)

/-- Keywords that end a block or go on with it. -/
def blockKeywords : List Token :=
  [.kwDo, .kwElse, .kwElsif, .kwEnd, .kwEnsure, .kwIn, .kwRescue, .kwThen, .kwWhen]

end Token

end ErbLayout.Ruby
