import ErbLayout.Template.Run
/-!
The layout of a template: it is protected, cut into pieces, and the pieces are written one after
another; every close token must match what is open.
-/

namespace ErbLayout.Template

open Layout Markup Placeholder

/-- A style together with the template that it is applied to. -/
structure Job where
  style : Style
  protected_ : Protected

namespace Job

def table (j : Job) : Table := j.protected_.table

/-- The length that a protected text has in the end. -/
def len (j : Job) : Measure := j.table.restoredLength

def width (j : Job) : Int := j.style.width

/-- The columns for code at the depth of a run. -/
def codeWidth (j : Job) (r : Run) : Int := j.width - (2 * r.nesting.depth : Nat)

def structural (r : Run) (cause : Cause) (offset : Nat) : Halt := ⟨r, .structural cause offset⟩

/-- Reformats code in a run; the call is remembered. -/
def reformat (j : Job) (r : Run) (code suffix : List Char) : Except Halt (List Char × Run) :=
  let width := j.codeWidth r
  let reply := Ruby.reformat j.style.reformatter code suffix width
  let r := { r with calls := r.calls ++ [(code ++ suffix, width)] }.note reply.log
  match reply.result with
  | .ok code' => .ok (code', r)
  | .error e => .error ⟨r, .reformatter e⟩

/-- Writes a code tag and opens or closes its block. -/
def codeTag (j : Job) (r : Run) (text : List Char) (offset : Nat) : Step :=
  match Erb.Tag.split? text with
  | none => .error ⟨r, .noErbTag text⟩
  | some tag => do
    let kind := Ruby.classify j.style.checker tag.code
    let r := r.note
      (Log.debug ("classified ".toList ++ Text.quoted tag.code ++ " as ".toList ++ kind.name))
    let closes := kind == .close || kind == .elseLike
    if closes && !r.nesting.topIsBlock then
      let shown := tag.opener.text ++ ' ' :: tag.code ++ ' ' :: tag.closer.text
      throw (structural r (r.unmatched shown) offset)
    else
      let (code, r) ←
        match kind with
        | .close => pure (tag.code, r.pop)
        | .elseLike => pure (tag.code, r.pop)
        | .blockOpen =>
          j.reformat r tag.code (Ruby.autocloseSuffix j.style.checker tag.code)
        | .standalone => j.reformat r tag.code []
      let newLine := kind.isControlFlow || r.breaksBeforeCode
      let text := Erb.Tag.build tag.opener.text code tag.closer.text r.indent
      let r := r.emit j.len j.width text newLine
      let r := if kind == .elseLike || kind == .blockOpen then r.push (.block code) else r
      return { r with last := if kind.isControlFlow then .control else .text, gap := [] }

/-- Writes what a scan for names found: the literal stretches, of which `cur` read backwards is the
current one, and the code tags between them. `offset` is where the scan has got to. -/
def gapFrom (j : Job) (cur : List Char) (offset : Nat) :
    List (Text.Found (Name × List Char)) → Run → Step
  | [], r => .ok (r.text j.len j.width cur.reverse)
  | .char c :: fs, r => gapFrom j (c :: cur) (offset + 1) fs r
  | .value (_, text) :: fs, r => do
    let r ← j.codeTag (r.text j.len j.width cur.reverse) text offset
    gapFrom j [] (offset + Name.size) fs r

/-- Writes the text between two tokens, once nothing in it looks like a broken tag. -/
def gap (j : Job) (r : Run) (text : List Char) (offset : Nat) : Step :=
  match Text.find? readSpacedAttribute 0 text with
  | some (n, _, _) => .error (structural r .spacedAttribute (offset + n))
  | none =>
    match Text.find? readTagStart 0 text with
    | some (n, _, _) =>
      let fragment := Text.firstLine (j.table.restore (text.drop n))
      .error (structural r (.stray fragment) (offset + n))
    | none => j.gapFrom [] offset (Text.scan j.table.codeTags.read text) r

/-- How wide an open tag is when written inline, or the width of its name if it has no place on
one line. -/
def inlineWidth (j : Job) (r : Run) (name attrs closing : List Char) : Nat :=
  let inline :=
    if Text.allBlank attrs then '<' :: name ++ closing
    else '<' :: name ++ ' ' :: Text.normalize attrs ++ closing
  let width := j.len inline
  if (width : Int) > j.codeWidth r then name.length + 1 else width

/-- What the layout of attributes pushes and pops on the way. -/
def rowsLog (depth : Nat) (rows : List Row) : Log :=
  let list (m : List Char) (depth : Nat) (inner : Log) : Log :=
    let label := (Frame.attribute m).label
    Run.depthNote "push".toList label (depth + 1) ++ inner ++ Run.depthNote "pop".toList label depth
  list ['='] depth <| rows.flatMap fun
    | .whole _ => []
    | .tokens .. => list ['"'] (depth + 1) []

def layoutLog (depth : Nat) : AttributeLayout → Log
  | .rows rows => rowsLog depth rows
  | _ => []

def openTag (j : Job) (r : Run) (name attrs : List Char) (closing : Closing) (offset : Nat) :
    Step :=
  if !Element.isValidName name then .error (structural r (.unknownTag name) offset)
  else
    let blockLevel := Element.isBlockLevel name
    let newLine := r.breaksBeforeTag blockLevel
    let depth := r.nesting.depth
    let inlineClosing : List Char := match closing with
      | .slash => [' ', '/', '>']
      | .plain => ['>']
    let r := if newLine then r else
      { r with buffer :=
          r.buffer.makeRoom j.len j.width (j.inlineWidth r name attrs inlineClosing) }
    let column := if newLine then 2 * depth else r.buffer.column
    let layout := AttributeLayout.of j.len j.width depth column name attrs inlineClosing
    let written := if layout.isBroken then closing.text else inlineClosing
    let tag := '<' :: name ++ layout.text depth ++ written
    let r := (r.note (layoutLog depth layout)).emit j.len j.width tag newLine
    let r := if Element.isSelfClosing name closing then r
      else r.push (.element name (j.table.restore tag))
    .ok (r.tagWritten blockLevel)

def closeTag (j : Job) (r : Run) (name : List Char) (offset : Nat) : Step :=
  let tag := '<' :: '/' :: name ++ ['>']
  if !r.nesting.topIsElement name then .error (structural r (r.unmatched tag) offset)
  else
    let r := r.pop
    let blockLevel := Element.isBlockLevel name
    let r := r.emit j.len j.width tag (r.breaksBeforeTag blockLevel)
    .ok (r.tagWritten blockLevel)

/-- A comment is inline, and a declaration is block-level. -/
def comment (j : Job) (r : Run) (text : List Char) : Run :=
  let blockLevel := !(['<', '!', '-', '-'].isPrefixOf text)
  (r.emit j.len j.width text (r.breaksBeforeTag blockLevel)).tagWritten blockLevel

/-- Copies the body of an element, and closes it if its close tag is there. -/
def rawText (j : Job) (r : Run) (name content closeTag : List Char) : Run :=
  let r := { r with buffer := r.buffer.write j.len (Text.trimRight content) }
  let r := if Text.allBlank content then r else { r with last := .text }
  if closeTag.isEmpty then r
  else
    let r := r.pop.emit j.len j.width ('<' :: '/' :: name ++ ['>']) (Text.endsBlank content)
    r.tagWritten true

def piece (j : Job) (r : Run) (offset : Nat) : Piece → Step
  | .gap text => j.gap r text offset
  | .token (.comment text) => .ok (j.comment r text)
  | .token (.close _ name) => j.closeTag r name offset
  | .token (.opening _ name attrs closing) => j.openTag r name attrs closing offset
  | .rawText name content closeTag => .ok (j.rawText r name content closeTag)

def pieces (j : Job) : Nat → List Piece → Run → Step
  | offset, [], r =>
    match r.nesting with
    | [] => .ok r
    | f :: _ => .error (structural r (.unclosed f.label) offset)
  | offset, p :: ps, r => do
    let r ← j.piece r offset p
    pieces j (offset + p.text.length) ps r

def start (j : Job) : Run :=
  let tags := j.table.codeTags.length
  Run.note {} (Log.debug ("formatting ".toList ++ j.style.filename ++ [':', ' '] ++
    (toString tags).toList ++ " code tags, width ".toList ++ (toString j.width).toList))

def run (j : Job) : Step := j.pieces 0 (Piece.cut j.protected_.working) j.start

/-- The line of the source on which an offset of the protected text lies. -/
def lineAt (j : Job) (offset : Nat) : Nat :=
  (j.table.restore (j.protected_.working.take offset)).count '\n' + 1

def fault (j : Job) (r : Run) (cause : Cause) (offset : Nat) : Fault where
  kind := cause.kind
  message := cause.message
  filename := j.style.filename
  line := j.lineAt offset
  frame := r.nesting.top?.map Frame.label
  formatted := j.table.restore r.buffer.text
  stack := r.nesting.dump

def failure (j : Job) (h : Halt) : Failure :=
  match h.problem with
  | .structural cause offset => .fault (j.fault h.run cause offset)
  | .reformatter e => .reformatter e
  | .noErbTag text => .noErbTag text

/-- The text of a finished run. -/
def finish (j : Job) (r : Run) : List Char := Text.trim (j.table.restore r.buffer.text) ++ ['\n']

end Job

/-- What comes of a layout: the text or the failure, the log, the calls of the reformatter, and the
names that are left. -/
structure Report where
  result : Except Failure (List Char)
  log : Log
  calls : List (List Char × Int)
  names : Names

def report (style : Style) (names : Names) (source : List Char) : Report :=
  let p := protect names source
  let j : Job := ⟨style, p⟩
  match j.run with
  | .ok r => ⟨.ok (j.finish r), r.log, r.calls, p.names⟩
  | .error h => ⟨.error (j.failure h), h.run.log, h.run.calls, p.names⟩

/-- The template laid out, trimmed, with one line feed at its end; or its first failure. -/
def format (style : Style) (names : Names) (source : List Char) : Except Failure (List Char) :=
  (report style names source).result

end ErbLayout.Template
