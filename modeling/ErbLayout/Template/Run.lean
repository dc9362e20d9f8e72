import ErbLayout.Erb.Tag
import ErbLayout.Layout.Buffer
import ErbLayout.Log
import ErbLayout.Markup.Piece
import ErbLayout.Markup.Stray
import ErbLayout.Nesting
import ErbLayout.Placeholder.Table
import ErbLayout.Ruby.Fragment
import ErbLayout.Template.Fault
/-!
A run over the pieces of a protected template. Line breaks come only where they do not change what
the template renders: a tag or a code tag goes to a line of its own when white space stood before
it, when it is directly between two tags of which one is block-level, and when it is control flow
or directly follows control flow. All else is written flush.
-/

namespace ErbLayout.Template

open Layout Markup

/-- How a template is laid out. -/
structure Style where
  width : Int := 80
  filename : List Char := defaultFilename
  checker : Ruby.Checker
  reformatter : Ruby.Reformatter := Ruby.passThrough

/-- What was written last. -/
inductive Adjacency where
  | start
  | text
  | inlineTag
  | blockTag
  | control
  deriving DecidableEq, Repr

/-- The state between two pieces: `gap` is the literal text directly before the next one, and
`calls` is what the reformatter was given. -/
structure Run where
  nesting : Nesting := []
  buffer : Buffer := {}
  last : Adjacency := .start
  gap : List Char := []
  log : Log := []
  calls : List (List Char × Int) := []

/-- What can be wrong with the structure of a template. -/
inductive Cause where
  | spacedAttribute
  | stray (fragment : List Char)
  | unknownTag (name : List Char)
  | unmatched (close : List Char) (top : Option (List Char))
  | unclosed (label : List Char)
  deriving DecidableEq, Repr

namespace Cause

def kind : Cause → Fault.Kind
  | .spacedAttribute => .badAttribute
  | .stray _ => .unrecognizedContent
  | .unknownTag _ => .unknownTag
  | .unmatched _ _ => .unmatchedClose
  | .unclosed _ => .unmatchedClose

def message : Cause → List Char
  | .spacedAttribute => "Bad attribute, please fix spaces after the equal sign.".toList
  | .stray fragment => "Unrecognized content: ".toList ++ Text.quoted fragment
  | .unknownTag name => "Unknown tag ".toList ++ Text.quoted name
  | .unmatched close top =>
    "Unmatched close tag, tried with ".toList ++ close ++ ", but ".toList ++
      match top with
      | some label => '`' :: label ++ "' was on the stack".toList
      | none => "the stack was empty".toList
  | .unclosed label => "Unclosed `".toList ++ label ++ "' at end of template".toList

end Cause

/-- Why a run cannot go on: a fault of the template at an offset of the protected text, a failure of
the reformatter, or a protected tag that is none. -/
inductive Problem where
  | structural (cause : Cause) (offset : Nat)
  | reformatter (error : Ruby.ReformatError)
  | noErbTag (text : List Char)
  deriving DecidableEq, Repr

/-- A run that cannot go on, with its last state. -/
structure Halt where
  run : Run
  problem : Problem

abbrev Step := Except Halt Run

namespace Run

def indent (r : Run) : List Char := r.nesting.indent

def note (r : Run) (entries : Log) : Run := { r with log := r.log ++ entries }

def depthNote (verb label : List Char) (depth : Nat) : Log :=
  Log.debug (verb ++ ' ' :: label ++ " (depth ".toList ++ (toString depth).toList ++ [')'])

def push (r : Run) (f : Frame) : Run :=
  { r with nesting := f :: r.nesting }.note
    (depthNote "push".toList f.label (r.nesting.depth + 1))

/-- The run without its innermost frame. -/
def pop (r : Run) : Run :=
  match r.nesting with
  | [] => r
  | f :: fs => { r with nesting := fs }.note (depthNote "pop".toList f.label fs.length)

def unmatched (r : Run) (close : List Char) : Cause :=
  .unmatched close (r.nesting.top?.map Frame.label)

/-- Writes a unit on a line of its own or flush. -/
def emit (r : Run) (len : Measure) (width : Int) (text : List Char) (newLine : Bool) : Run :=
  if newLine then { r with buffer := r.buffer.writeLine len r.nesting.depth text }
  else
    let b := r.buffer.makeRoom len width (len (Text.firstLine text))
    { r with buffer := b.write len text }

def breaksBeforeTag (r : Run) (blockLevel : Bool) : Bool :=
  if Text.endsBlank r.gap then true
  else if !r.gap.isEmpty then false
  else if r.last == .control || r.last == .blockTag then true
  else r.last == .inlineTag && blockLevel

def breaksBeforeCode (r : Run) : Bool :=
  if Text.endsBlank r.gap then true
  else if !r.gap.isEmpty then false
  else r.last == .control

def tagWritten (r : Run) (blockLevel : Bool) : Run :=
  { r with last := if blockLevel then .blockTag else .inlineTag, gap := [] }

/-- Literal text, wrapped. Text of white space alone is only a place for a blank line. -/
def text (r : Run) (len : Measure) (width : Int) (s : List Char) : Run :=
  let r := { r with gap := s }
  if Text.allBlank s then
    if s.count '\n' > 1 then { r with buffer := r.buffer.blankLine len } else r
  else
    let newLine := Text.startsBlank s || r.last == .control
    let word := ((Text.words s).head?).getD []
    let b := if newLine then r.buffer else r.buffer.makeRoom len width (len word)
    let depth := r.nesting.depth
    let indent := 2 * depth
    let lines := wrap len s (indent + effectiveWidth width depth)
      (if newLine then indent else b.column) indent
    let b := match lines with
      | [] => b
      | l :: ls =>
        ls.foldl (fun b l => b.writeText len depth l true) (b.writeText len depth l newLine)
    let b := if Text.trailingNewlines s > 1 then b.blankLine len else b
    { r with buffer := b, last := .text }

end Run

end ErbLayout.Template
