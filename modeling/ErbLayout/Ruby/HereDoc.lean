import ErbLayout.Ruby.Delimited
/-!
Here-documents of Ruby: how one is announced, and what comes next in its body.
-/

namespace ErbLayout.Ruby

/-- The ending of a here-document, with its quotes or without. -/
def readEnding (indented : Bool) (s : List Char) : Option (HereDoc × List Char) :=
  match s with
  | [] => none
  | q :: t =>
    let (ending, rest) :=
      if q == '"' || q == '\'' || q == '`' then
        let (w, r) := t.span (· != q)
        (w, r.drop 1)
      else s.span isWordChar
    if ending.isEmpty then none
    else some ({ ending, indented, interpolates := q != '\'' }, rest)

/-- A here-document from behind its angle brackets. -/
def announced : List Char → Option (HereDoc × List Char)
  | '~' :: s => readEnding true s
  | '-' :: s => readEnding true s
  | s => readEnding false s

/-- What comes next in the body of a here-document. -/
inductive BodyPart where
  | content (rest : List Char)
  | shortCode (rest : List Char)
  | ending (rest : List Char)
  deriving DecidableEq, Repr

/-- How far the reader of a body has come: what would have to come next of the ending, whether the
ending may stand here at all, whether there is content before this point, and the text after it. -/
structure BodyPoint where
  missing : Word
  search : Bool := true
  content : Bool := false
  mark : List Char
  deriving DecidableEq, Repr

namespace BodyPoint

/-- The content that ends at a text, if there is any. -/
def contentTo (p : BodyPoint) (rest : List Char) : Option BodyPart :=
  if p.content then some (.content rest) else none

end BodyPoint

def isBlank (c : Char) : Bool := c == ' ' || c == '\t'

def beginsLineBreak (s : List Char) : Bool := s.head? == some '\n' || s.head? == some '\r'

namespace HereDoc

/-- The next part of a body. The ending stands at the start of a line or of what follows code, and
nothing but blanks may follow it in its line. -/
def nextPart (h : HereDoc) : Nat → BodyPoint → List Char → Option BodyPart
  | 0, _, _ => none
  | fuel + 1, p, s =>
    if p.missing.isEmpty then
      let p := if p.content then p else { p with mark := s }
      let t := s.dropWhile isBlank
      if beginsLineBreak t then (p.contentTo p.mark).or (some (.ending p.mark))
      else h.nextPart fuel { p with missing := h.ending, content := true } t
    else
      match s with
      | [] => (p.contentTo []).or (some (.ending []))
      | c :: t =>
        if p.search && p.missing.head? == some c then
          h.nextPart fuel { p with missing := p.missing.drop 1 } t
        else
          let p' := { p with missing := h.ending, search := false }
          if h.interpolates && c == '\\' then p.contentTo s
          else if h.interpolates && c == '#' then
            if t.head? == some '{' then p.contentTo s
            else if beginsVariable t && p.content then some (.content s)
            else if isShortCode t then some (.shortCode t)
            else h.nextPart fuel { p' with mark := s } t
          else if beginsLineBreak s then
            let line := if c == '\r' && t.head? == some '\n' then t.drop 1 else t
            let mark := line.dropWhile isBlank
            let search := h.indented || mark.length == line.length
            h.nextPart fuel { p' with search, content := true, mark } mark
          else h.nextPart fuel { p' with content := true, mark := t } t

end HereDoc

/-- What comes next in the body of the first here-document. -/
def readBody (src : Source) : Option Read :=
  match src.hereDocs with
  | [] => none
  | h :: hs =>
    let start : BodyPoint := { missing := h.ending, mark := src.rest }
    (h.nextPart (2 * src.rest.length + 2) start src.rest).map fun
      | .content rest => { token := .hereDocContent, source := src.after rest }
      | .shortCode rest => { token := .shortInterpolation, source := src.after rest }
      | .ending rest => { token := .hereDocEnd, source := { src with rest, hereDocs := hs } }

end ErbLayout.Ruby
