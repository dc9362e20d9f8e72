import ErbLayout.Layout.Wrap
import ErbLayout.Markup.Attribute
import ErbLayout.Markup.Element
import ErbLayout.Nesting
/-!
Layout of the attributes of an open tag. They stay inline when the whole tag fits on its line.
Otherwise each has a line of its own, one level deeper than the tag, and the closing bracket stands
on a line at the depth of the tag. A list of tokens that is too long is split further, one token
to a line.
-/

namespace ErbLayout.Layout

open Markup (Attribute Quote Element.isTokenList)

/-- An attribute on a line of its own, or one token of its value to a line. -/
inductive Row where
  | whole (text : List Char)
  | tokens (name : List Char) (quote : Quote) (tokens : List (List Char))
  deriving DecidableEq, Repr

inductive AttributeLayout where
  | none
  | inline (text : List Char)
  | rows (rows : List Row)
  deriving DecidableEq, Repr

/-- A line break, the indentation of a depth, and the trimmed text. -/
def indented (depth : Nat) (text : List Char) : List Char :=
  '\n' :: Nesting.indentOf depth ++ Text.trim text

namespace Row

/-- An attribute at a depth: a quoted list of tokens is split when it is too wide. -/
def ofAttribute (len : Measure) (lineWidth : Int) (depth : Nat) (a : Attribute) : Row :=
  match a with
  | .quoted name quote value =>
    if 2 * depth + len a.text > lineWidth && Element.isTokenList name then
      .tokens name quote (Text.words value)
    else .whole a.text
  | _ => .whole a.text

def text (depth : Nat) : Row → List Char
  | .whole t => indented depth t
  | .tokens name quote ts =>
    indented depth (name ++ ['=', quote.mark]) ++ ts.flatMap (indented (depth + 1)) ++
      indented depth [quote.mark]

/-- The row as it is put out inside what is open, and what is open after it. The tokens of a value
stand inside the value. -/
def write (n : Nesting) : Row → List Char × Nesting
  | .whole t => (indented n.depth t, n)
  | .tokens name quote ts =>
    let inner : Nesting := .attribute ['"'] :: n
    (indented n.depth (name ++ ['=', quote.mark]) ++ ts.flatMap (indented inner.depth) ++
      indented n.depth [quote.mark], inner.tail)

end Row

namespace AttributeLayout

/-- The layout for a tag that starts at `column`, inside `depth` levels of nesting. -/
def of (len : Measure) (lineWidth : Int) (depth column : Nat)
    (name attrs closing : List Char) : AttributeLayout :=
  if Text.allBlank attrs then .none
  else
    let plain := Text.normalize attrs
    if column + len ('<' :: name ++ ' ' :: plain ++ closing) ≤ lineWidth then .inline plain
    else .rows ((Attribute.all plain).map (Row.ofAttribute len lineWidth (depth + 1)))

/-- What stands between the name of the tag and its closing. -/
def text (depth : Nat) : AttributeLayout → List Char
  | .none => []
  | .inline t => ' ' :: t
  | .rows rs => rs.flatMap (Row.text (depth + 1)) ++ indented depth []

/-- The layout as it is put out inside what is open, and what is open after it. Rows stand inside the
tag, its closing bracket does not. -/
def write (n : Nesting) : AttributeLayout → List Char × Nesting
  | .none => ([], n)
  | .inline t => (' ' :: t, n)
  | .rows rs =>
    let (text, inner) := rs.foldl (fun (text, inner) r =>
      let (t, inner) := r.write inner
      (text ++ t, inner)) ([], .attribute ['='] :: n)
    (text ++ indented (Nesting.depth inner.tail) [], inner.tail)

def isBroken : AttributeLayout → Bool
  | .rows _ => true
  | _ => false

end AttributeLayout

theorem Row.write_eq (n : Nesting) (r : Row) : r.write n = (r.text n.depth, n) := by
  cases r <;> rfl

/-- What is opened for the rows is closed behind them. -/
theorem AttributeLayout.write_eq (n : Nesting) (l : AttributeLayout) :
    l.write n = (l.text n.depth, n) := by
  have hrows (rs : List Row) (s : List Char) (inner : Nesting) :
      rs.foldl (fun (text, inner) r =>
        let (t, inner) := r.write inner
        (text ++ t, inner)) (s, inner) = (s ++ rs.flatMap (Row.text inner.depth), inner) := by
    induction rs generalizing s with
    | nil => simp
    | cons r rs ih =>
      rw [List.foldl_cons]
      dsimp only
      rw [Row.write_eq, ih, List.flatMap_cons, List.append_assoc]
  cases l with
  | none => rfl
  | inline t => rfl
  | rows rs =>
    rw [write, hrows]
    rfl

end ErbLayout.Layout
