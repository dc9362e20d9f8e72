import ErbLayout.Ruby.Gap
import ErbLayout.Ruby.HereDoc
import ErbLayout.Ruby.Lexeme
/-!
The next token of Ruby code. What a text is depends on the tokens that may come next and on the
white space around it.
-/

namespace ErbLayout.Ruby

section

variable (expects : Expected) (src : Source) (spaced : Bool)

/-- The sign of a block argument, which stands next to the argument. -/
def readAmpersand (rest : List Char) : Option Read :=
  let block : Bool :=
    match rest with
    | [] => true
    | c :: _ => c != '&' && c != '.' && c != '=' && !isSpace c
  if block && expects .blockAmpersand then
    some { token := .blockAmpersand, source := src.after rest }
  else none

/-- A star or two stars: an operator when it may be one and stands next to what is before it, else a
splat when it may be one and stands next to what is after it, else what it may be. -/
def readStars (operator splat : Token) (rest : List Char) : Option Read :=
  let found (token : Token) : Option Read := some { token, source := src.after rest }
  if rest.head? == some '=' then none
  else if expects operator && !spaced then found operator
  else if expects splat && standsNextTo rest then found splat
  else if expects operator then found operator
  else if expects splat then found splat
  else none

/-- A minus sign belongs to a number after it, but not next to an operand before it; else it changes
the sign of what it stands next to, unless there is no white space before it; else it subtracts. -/
def readMinus (rest : List Char) : Option Read :=
  let found (token : Token) : Option Read := some { token, source := src.after rest }
  if rest.head? == some '=' || rest.head? == some '>' then none
  else if rest.head?.any isDigit && expects .numberMinus && (spaced || !expects .binaryStar) then
    found .numberMinus
  else if spaced && standsNextTo rest && expects .unaryMinus then found .unaryMinus
  else if expects .binaryMinus then found .binaryMinus
  else if expects .unaryMinus || expects .numberMinus then found .unaryMinus
  else none

def readSymbol (rest : List Char) : Option Read :=
  let delimited (q : Char) (interpolates : Bool) : Option Read :=
    let d := quotedBy .symbolStart q interpolates
    some { token := .symbolStart, source := src.opening d (rest.drop 1) }
  if !expects .symbolStart then none
  else if rest.head? == some '"' then delimited '"' true
  else if rest.head? == some '\'' then delimited '\'' false
  else (afterSymbol rest).map fun r => { token := .plainSymbol, source := src.after r }

/-- A word that is the key of a pair, or that has a suffix. -/
def readSuffixed (s : List Char) : Option Read :=
  match readWord s with
  | none => none
  | some (w, r) =>
    let suffix := if w == "defined".toList && r.head? == some '?' then none else afterSuffix r
    let kind := if s.head?.any isCapital then Token.suffixedConstant else .suffixedIdentifier
    match suffix.getD r with
    | ':' :: t =>
      if t.head? != some ':' && expects .hashKey then
        some { token := .hashKey, source := src.after (':' :: t) }
      else suffixed kind suffix
    | _ => suffixed kind suffix
where
  suffixed (kind : Token) (rest : Option (List Char)) : Option Read :=
    match rest with
    | some r => if expects kind then some { token := kind, source := src.after r } else none
    | none => none

def readHereDoc (rest : List Char) : Option Read :=
  match announced rest with
  | some (h, rest) =>
    if expects .stringStart && (spaced || !expects .shiftLeft) then
      some { token := .hereDocStart, source := { src with rest, hereDocs := src.hereDocs ++ [h] } }
    else none
  | none => none

def readOpening (s : List Char) : Option Read :=
  if expects .stringStart then
    (openDelimited expects spaced s).map fun (d, rest) =>
      { token := d.start, source := src.opening d rest }
  else none

/-- The tokens that are told by where they stand. -/
def readPlaced (s : List Char) : Option Read :=
  match s with
  | [] => none
  | '&' :: t => readAmpersand expects src t
  | '*' :: '*' :: t => readStars expects src spaced .binaryStars .hashSplatStars t
  | '*' :: t => readStars expects src spaced .binaryStar .splatStar t
  | '-' :: t => readMinus expects src spaced t
  | ':' :: t => readSymbol expects src t
  | '[' :: t =>
    if expects .subscriptBracket && (!spaced || !expects .stringStart) then
      some { token := .subscriptBracket, source := src.after t }
    else none
  | '<' :: '<' :: t =>
    if expects .singletonSign then some { token := .singletonSign, source := src.after t }
    else readHereDoc expects src spaced t
  | c :: _ =>
    if isWordStart c then readSuffixed expects src s else readOpening expects src spaced s

/-- The parts of delimited texts and of here-documents, line breaks, and the tokens that are told by
where they stand. -/
def readContextual : Option Read :=
  if !src.delimited.isEmpty && !expects .stringStart &&
      (expects .stringContent || expects .stringEnd) then
    readDelimited src
  else if src.inBody && !expects .stringStart &&
      (expects .hereDocContent || expects .hereDocEnd) then
    readBody src
  else
    match gap (expects .lineBreak && !expects .noLineBreak) src.awaitsBody src.rest with
    | .none => none
    | .lineBreak rest => some { token := .lineBreak, source := src.after rest }
    | .body rest => some { token := .hereDocBodyStart, source := src.beginBody rest }
    | .code spaced s => readPlaced expects src spaced s

end

/-- A token and the text after it. -/
abbrev Reach := Token × List Char

/-- The first of those that reach farthest. -/
def farthest : List Reach → Option Reach
  | [] => none
  | r :: rs =>
    match farthest rs with
    | some r' => if r'.2.length < r.2.length then some r' else some r
    | none => some r

/-- A name is also the keyword of its text. The mark of the end of code stands in a line of its
own. -/
def nameReaches (s : List Char) : List Reach :=
  match readWord s with
  | none => []
  | some (w, r) =>
    let mark : List Reach :=
      if w == "__END__".toList && beginsLineBreak r then [(.endMark, [])] else []
    let keyword := (Token.keywords.lookup w).toList.map fun t => (t, r)
    mark ++ keyword ++ [(.identifier, r)]

/-- What a text other than a sign may be, by its first character. -/
def lexemeReaches (s : List Char) : List Reach :=
  let reach (token : Token) (rest : Option (List Char)) : List Reach :=
    rest.toList.map fun r => (token, r)
  match s with
  | [] => []
  | '@' :: '@' :: t => reach .classVariable (afterWord t)
  | '@' :: t => reach .instanceVariable (afterWord t)
  | '$' :: t => [(.globalVariable, afterGlobal t)]
  | '?' :: t => reach .character (afterCharacter t)
  | c :: _ =>
    if isDigit c then reach .integer (afterInteger s) ++ reach .float (afterFloat s)
    else if isCapital c then reach .constant (afterWord s)
    else nameReaches s

def signReaches (signs : List (List Char × Token)) (s : List Char) : List Reach :=
  signs.filterMap fun (text, t) =>
    if text.isPrefixOf s then some (t, s.drop text.length) else none

/-- The tokens that a text may begin with, by the text alone. -/
def reaches (spaced : Bool) (s : List Char) : List Reach :=
  (if spaced then [] else signReaches Token.attachedSigns s) ++ signReaches Token.signs s ++
    lexemeReaches s

/-- The token that is told by the text alone: the longest of those that may come next. -/
def readTold (expects : Expected) (src : Source) (spaced : Bool) (s : List Char) : Option Read :=
  match s with
  | [] => some { token := .endOfCode, source := src.after [] }
  | _ =>
    (farthest ((reaches spaced s).filter fun r => expects r.1)).map fun (token, rest) =>
      let keyword := (readWord s).bind fun (w, _) => Token.keywords.lookup w
      { token
        source := src.after rest
        blockWord := token == .identifier && keyword.any Token.blockKeywords.contains }

def readEscape (expects : Expected) (src : Source) : Option Read :=
  match src.rest with
  | '\\' :: s =>
    if expects .escapeSequence then
      (afterEscape s).map fun rest => { token := .escapeSequence, source := src.after rest }
    else none
  | _ => none

/-- The next token of some code, after the comments before it. -/
def readFrom (expects : Expected) : Nat → Source → Option Read
  | 0, _ => none
  | fuel + 1, src =>
    ((readContextual expects src).or (readEscape expects src)).or
      (let (spaced, s) := skipBlank false src.rest
       match afterComment expects s with
       | some rest => readFrom expects fuel (src.after rest)
       | none => readTold expects src spaced s)

def read (expects : Expected) (src : Source) : Option Read :=
  readFrom expects (src.rest.length + 1) src

theorem readTold_nil (expects : Expected) (src : Source) (spaced : Bool) :
    readTold expects src spaced [] = some { token := .endOfCode, source := src.after [] } := rfl

end ErbLayout.Ruby
