import ErbLayout.Text.Blank
/-!
Wrapping of text: words are put on lines one after another, and a line ends where the next word
would cross the right margin.
-/

namespace ErbLayout.Layout

/-- How wide a piece of text is. -/
abbrev Measure := List Char → Nat

/-- With so few columns left or fewer, text runs over the full line. -/
def readabilityFloor : Int := 40

/-- The columns for text at a depth of nesting. -/
def effectiveWidth (lineWidth depth : Int) : Int :=
  let remaining := lineWidth - 2 * depth
  if remaining ≤ readabilityFloor then lineWidth else remaining

/-- The lines made of `ws` when the current line holds the words `line`, the last one first, and
reaches up to `column`. -/
def fillFrom (len : Measure) (width offset : Int) (line : List (List Char)) (column : Int) :
    List (List Char) → List (List Char)
  | [] => if line.isEmpty then [] else [Text.joinWords line.reverse]
  | w :: ws =>
    if line.isEmpty then fillFrom len width offset [w] (column + len w) ws
    else if column + 1 + len w ≤ width then
      fillFrom len width offset (w :: line) (column + 1 + len w) ws
    else Text.joinWords line.reverse :: fillFrom len width offset [w] (offset + len w) ws

/-- The lines of a text. The first one starts at column `initial` and the others at `offset`; no
word is broken, and a word that is too long has a line of its own. -/
def wrap (len : Measure) (text : List Char) (width initial offset : Int) : List (List Char) :=
  fillFrom len width offset [] initial (Text.words text)

theorem wrap_of_words_nil (len : Measure) {text : List Char} (width initial offset : Int)
    (h : Text.words text = []) : wrap len text width initial offset = [] := by
  simp [wrap, h, fillFrom]

end ErbLayout.Layout
