import ErbLayout.Markup.Attribute
import ErbLayout.Markup.Element
import ErbLayout.Text.Letter
/-!
Structural tokens: comments and declarations, close tags and open tags, as they stand at the
start of a text.
-/

namespace ErbLayout.Markup

inductive Token where
  | comment (text : List Char)
  | close (text name : List Char)
  | opening (text name attrs : List Char) (closing : Closing)
  deriving DecidableEq, Repr

namespace Token

def text : Token → List Char
  | .comment t => t
  | .close t _ => t
  | .opening t _ _ _ => t

/-- The text up to and with the first `end_` in `s`. -/
def upTo (end_ : List Char) : List Char → Option (List Char)
  | [] => if end_.isEmpty then some [] else none
  | c :: s =>
    if end_.isPrefixOf (c :: s) then some ((c :: s).take end_.length)
    else (upTo end_ s).map (c :: ·)

def isAsciiLetter (c : Char) : Bool := ('a' ≤ c && c ≤ 'z') || ('A' ≤ c && c ≤ 'Z')

/-- A comment, or a declaration such as a document type. -/
def readComment : List Char → Option Token
  | '<' :: '!' :: '-' :: '-' :: s =>
    (upTo ['-', '-', '>'] s).map fun t => .comment ('<' :: '!' :: '-' :: '-' :: t)
  | '<' :: '!' :: c :: s =>
    if isAsciiLetter c then
      match s.span fun x => x != '<' && x != '>' with
      | (t, '>' :: _) => some (.comment ('<' :: '!' :: c :: t ++ ['>']))
      | _ => none
    else none
  | _ => none

/-- White space is allowed on both sides of the name. -/
def readClose : List Char → Option Token
  | '<' :: '/' :: s =>
    let (before, s₁) := s.span isBlank
    let (name, s₂) := s₁.span isWord
    let (after, s₃) := s₂.span isBlank
    match name, s₃ with
    | _ :: _, '>' :: _ => some (.close ('<' :: '/' :: before ++ name ++ after ++ ['>']) name)
    | _, _ => none
  | _ => none

/-- The ways to divide a text in two, the longest first part first, that is not empty. -/
def divisions : List Char → List (List Char × List Char)
  | [] => []
  | c :: s => ((divisions s).map fun (a, b) => (c :: a, b)) ++ [([c], s)]

/-- The ways to begin a text with a run of `p`, the longest run first; the run is not empty. -/
def runs (p : Char → Bool) (s : List Char) : List (List Char × List Char) :=
  let (run, rest) := s.span p
  (divisions run).map fun (a, b) => (a, b ++ rest)

/-- The ways to begin a text with name characters of which the last is no slash, the longest run
first. -/
def nameRuns (s : List Char) : List (List Char × List Char) :=
  (runs isNameChar s).filter fun (a, _) => !Attribute.endsWithSlash a

/-- The ways to begin a text with white space and an attribute, in the order in which they are
tried: quoted values, bare values, names, and of each the longest first. -/
def attributeRuns (s : List Char) : List (List Char × List Char) :=
  let spaced (read : List Char → List (List Char × List Char)) : List (List Char × List Char) :=
    (runs isBlank s).flatMap fun (gap, r) => (read r).map fun (a, rest) => (gap ++ a, rest)
  let quoted (q : Quote) (r : List Char) : List (List Char × List Char) :=
    ((Attribute.readQuoted q r).map fun (a, rest) => (a.text, rest)).toList
  let bare (r : List Char) : List (List Char × List Char) :=
    match Attribute.nameRun r with
    | (n, '=' :: v) =>
      if n.isEmpty || Attribute.endsWithSlash n then []
      else (nameRuns v).map fun (a, rest) => (n ++ '=' :: a, rest)
    | _ => []
  spaced (quoted .single) ++ spaced (quoted .double) ++ spaced bare ++ spaced nameRuns

/-- The end of an open tag after its attributes: the white space, how it closes. -/
def readClosing (s : List Char) : Option (List Char × Closing) :=
  match s.span isBlank with
  | (gap, '/' :: '>' :: _) => some (gap, .slash)
  | (gap, '>' :: _) => some (gap, .plain)
  | _ => none

/-- The attributes of an open tag, the white space after them and the closing. As many attributes
are taken as the end of the tag admits. -/
def readAttributes : Nat → List Char → Option (List Char × List Char × Closing)
  | 0, _ => none
  | fuel + 1, s =>
    match (attributeRuns s).findSome? fun (a, rest) =>
        (readAttributes fuel rest).map fun (attrs, gap, closing) => (a ++ attrs, gap, closing) with
    | some found => some found
    | none => (readClosing s).map fun (gap, closing) => ([], gap, closing)

def readOpening : List Char → Option Token
  | '<' :: s =>
    match s.span isWord with
    | ([], _) => none
    | (name, rest) =>
      (readAttributes (rest.length + 1) rest).map fun (attrs, gap, closing) =>
        .opening ('<' :: name ++ attrs ++ gap ++ closing.text) name attrs closing
  | _ => none

def readAny (s : List Char) : Option Token :=
  match readComment s with
  | some t => some t
  | none =>
    match readClose s with
    | some t => some t
    | none => readOpening s

def read : Text.Reader Token := fun s => (readAny s).map fun t => (t, t.text.length)

end Token

end ErbLayout.Markup
