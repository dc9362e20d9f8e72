import ErbLayout.Layout.Attributes
import ErbLayout.Text.Lines
/-!
The output of a layout while it is written. Text is only appended, but the last space that wrapped
text put on the current line stays breakable: when something glued to the end of the line would
cross the margin, that space becomes a line break.
-/

namespace ErbLayout.Layout

/-- The text before an offset; a negative offset counts from the end. -/
def before (i : Int) (s : List Char) : List Char :=
  if 0 ≤ i then s.take i.toNat else s.take (s.length - i.natAbs)

/-- The text from an offset on; a negative offset counts from the end. -/
def after (i : Int) (s : List Char) : List Char :=
  if 0 ≤ i then s.drop i.toNat else s.drop (s.length - i.natAbs)

/-- How many characters precede the last space of a line. -/
def lastSpace (line : List Char) : Option Nat :=
  match line.reverse.span (· != ' ') with
  | (_, []) => none
  | (_, _ :: r) => some r.length

/-- A space that may become a line break: its offset, and the depth of the line to come. -/
structure Break where
  offset : Int
  depth : Nat
  deriving DecidableEq, Repr

/-- What was written, read backwards, its length, the width of its last line, and the breakable
space of that line. -/
structure Buffer where
  written : List Char := []
  size : Nat := 0
  column : Nat := 0
  breakable : Option Break := none
  deriving DecidableEq, Repr

namespace Buffer

def text (b : Buffer) : List Char := b.written.reverse

/-- Appends text right where the last write ended. -/
def write (len : Measure) (b : Buffer) (s : List Char) : Buffer :=
  if s.isEmpty then b
  else if s.contains '\n' then
    ⟨s.reverse ++ b.written, b.size + s.length, len (Text.lastLine s), none⟩
  else ⟨s.reverse ++ b.written, b.size + s.length, b.column + len s, b.breakable⟩

/-- Starts a line at a depth and appends the trimmed text. -/
def writeLine (len : Measure) (depth : Nat) (b : Buffer) (s : List Char) : Buffer :=
  b.write len (indented depth s)

/-- Writes one line of wrapped text, on a line of its own or not, and marks its last space. -/
def writeText (len : Measure) (depth : Nat) (b : Buffer) (line : List Char) (newLine : Bool) :
    Buffer :=
  let b' := if newLine then b.writeLine len depth line else b.write len line
  match lastSpace line with
  | none => b'
  | some n => { b' with breakable := some ⟨(b'.size : Int) - line.length + n, depth⟩ }

/-- Breaks the current line at its breakable space if `needed` more columns do not fit in it. -/
def makeRoom (len : Measure) (b : Buffer) (width needed : Int) : Buffer :=
  match b.breakable with
  | none => b
  | some k =>
    if b.column + needed ≤ width then b
    else
      let rest := after (k.offset + 1) b.text
      let s := before k.offset b.text ++ '\n' :: Nesting.indentOf k.depth ++ rest
      ⟨s.reverse, s.length, len (Text.lastLine s), none⟩

def blankLine (len : Measure) (b : Buffer) : Buffer := b.write len ['\n']

theorem text_write (len : Measure) (b : Buffer) (s : List Char) :
    (b.write len s).text = b.text ++ s := by
  unfold write
  split
  · simp_all
  · split <;> simp [text]

theorem text_writeLine (len : Measure) (depth : Nat) (b : Buffer) (s : List Char) :
    (b.writeLine len depth s).text = b.text ++ indented depth s := text_write len b _

theorem text_blankLine (len : Measure) (b : Buffer) :
    (b.blankLine len).text = b.text ++ ['\n'] := text_write len b _

end Buffer

end ErbLayout.Layout
