import ErbLayout.Ruby.Source
/-!
Delimited text of Ruby: strings, symbols, regular expressions and lists of words. What opens one,
what is plain in it, and what ends it.
-/

namespace ErbLayout.Ruby

/-- The signs that are names of global variables. -/
def globalSigns : List Char := "!@&`'+~=/\\,;.<>*$?:\"".toList

def beginsVariable (s : List Char) : Bool := s.head? == some '@' || s.head? == some '$'

/-- Whether a variable stands in a text that holds code, from behind the number sign. -/
def isShortCode : List Char → Bool
  | '@' :: '@' :: c :: _ => isWordStart c
  | '@' :: c :: _ => isWordStart c
  | '$' :: '-' :: c :: _ => isNameChar c && !isDigit c
  | '$' :: c :: _ => globalSigns.contains c || isNameChar c
  | _ => false

/-- Where a stretch of delimited text stops: at its end, or before a variable, before code or before
an escape sequence with so many delimiters to be closed. -/
inductive Stop where
  | closing (rest : List Char)
  | shortCode (rest : List Char) (depth : Nat)
  | other (rest : List Char) (depth : Nat)
  | unclosed
  deriving DecidableEq, Repr

namespace Delimited

/-- The first stop in a text. `fresh` says that nothing of the text has been passed over. What looks
like a variable ends what stands before it even when it proves to be none. -/
def stop (d : Delimited) (fresh : Bool) (depth : Nat) : List Char → Stop
  | [] => if d.closing.isNone then .closing [] else .unclosed
  | c :: s =>
    if some c == d.closing then
      if depth ≤ 1 then .closing (c :: s) else d.stop false (depth - 1) s
    else if some c == d.opening then d.stop false (depth + 1) s
    else if d.interpolates && c == '#' then
      if s.head? == some '{' then .other (c :: s) depth
      else if beginsVariable s && (!fresh || isShortCode s) then .shortCode (c :: s) depth
      else d.stop false depth s
    else if c == '\\' then
      if d.interpolates then .other (c :: s) depth
      else
        match s with
        | [] => .unclosed
        | _ :: t => d.stop false depth t
    else d.stop false depth s

end Delimited

/-- What comes next in the innermost delimited text: plain text, the sign before a variable, or the
end. Small letters may stand behind a regular expression. -/
def readDelimited (src : Source) : Option Read :=
  match src.delimited with
  | [] => none
  | d :: outer =>
    let content (rest : List Char) (depth : Nat) : Option Read :=
      if rest.length < src.rest.length then
        some ⟨.stringContent, { src with rest, delimited := { d with depth } :: outer }, false⟩
      else none
    match d.stop true d.depth src.rest with
    | .unclosed => none
    | .other rest depth => content rest depth
    | .shortCode rest depth =>
      (content rest depth).or
        (some { token := .shortInterpolation, source := src.after (rest.drop 1) })
    | .closing rest =>
      let behind := rest.drop 1
      let behind := if d.start = .regexStart then behind.dropWhile isSmall else behind
      (content rest 1).or
        (some { token := .stringEnd, source := { src with rest := behind, delimited := outer } })

/-- The delimiters of a percent literal. Where a remainder could be meant as well, white space and
an equals sign belong to the operator. White space opens a text that no character closes. -/
def percentDelimiter (start : Token) (interpolates remainder : Bool) :
    List Char → Option (Delimited × List Char)
  | '(' :: s => some (⟨start, some '(', some ')', 1, interpolates⟩, s)
  | '[' :: s => some (⟨start, some '[', some ']', 1, interpolates⟩, s)
  | '{' :: s => some (⟨start, some '{', some '}', 1, interpolates⟩, s)
  | '<' :: s => some (⟨start, some '<', some '>', 1, interpolates⟩, s)
  | c :: s =>
    if c == ' ' || c == '\t' || c == '\n' || c == '\r' then
      if remainder then none else some (⟨start, none, none, 1, interpolates⟩, s)
    else if c == '=' && remainder then none
    else if "|!#/\\@$%^&)]>=+-~`,.?:;_\"'*".toList.contains c || c == '}' then
      some (⟨start, none, some c, 1, interpolates⟩, s)
    else none
  | [] => none

/-- The kinds of percent literals by their letters. -/
def percentKinds : List (Char × Token × Bool) :=
  [('s', .symbolStart, false), ('r', .regexStart, true), ('x', .subshellStart, true),
    ('q', .stringStart, false), ('Q', .stringStart, true), ('w', .stringArrayStart, false),
    ('W', .stringArrayStart, true), ('i', .symbolArrayStart, false),
    ('I', .symbolArrayStart, true)]

/-- A percent literal from behind its sign. -/
def percentLiteral (expects : Expected) (s : List Char) : Option (Delimited × List Char) :=
  match s with
  | [] => none
  | c :: t =>
    match percentKinds.lookup c with
    | some (start, interpolates) =>
      if expects start then percentDelimiter start interpolates (expects .slash) t else none
    | none => percentDelimiter .stringStart true (expects .slash) s

def quotedBy (start : Token) (q : Char) (interpolates : Bool) : Delimited :=
  ⟨start, none, some q, 1, interpolates⟩

/-- What opens a delimited text other than a symbol. A slash that could divide opens a regular
expression only when white space stands before it and neither that nor an equals sign after it. -/
def openDelimited (expects : Expected) (spaced : Bool) :
    List Char → Option (Delimited × List Char)
  | '"' :: s => some (quotedBy .stringStart '"' true, s)
  | '\'' :: s => some (quotedBy .stringStart '\'' false, s)
  | '`' :: s =>
    if expects .subshellStart then some (quotedBy .subshellStart '`' true, s) else none
  | '/' :: s =>
    let divides := expects .slash && !(spaced && standsNextTo s && s.head? != some '=')
    if expects .regexStart && !divides then some (quotedBy .regexStart '/' true, s) else none
  | '%' :: s => percentLiteral expects s
  | _ => none

end ErbLayout.Ruby
