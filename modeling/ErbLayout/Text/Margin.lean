import ErbLayout.Text.Lines
/-!
The margin of a block of lines: the spaces and tabs that all of its lines with content begin with.
-/

namespace ErbLayout.Text

def isIndent (c : Char) : Bool := c == ' ' || c == '\t'

/-- Spaces and tabs only, the empty line among them. -/
def isIndentOnly (l : List Char) : Bool := l.all isIndent

def leadingIndent (l : List Char) : List Char := l.takeWhile isIndent

def commonPrefix : List Char → List Char → List Char
  | a :: s, b :: t => if a = b then a :: commonPrefix s t else []
  | _, _ => []

/-- The longest indent that every line with content begins with. -/
def margin : List (List Char) → List Char
  | [] => []
  | l :: ls =>
    if isIndentOnly l then margin ls
    else if ls.all isIndentOnly then leadingIndent l
    else commonPrefix (leadingIndent l) (margin ls)

/-- The lines without their margin; a line of spaces and tabs becomes empty. -/
def dedent (ls : List (List Char)) : List (List Char) :=
  let m := (margin ls).length
  ls.map fun l => if isIndentOnly l then [] else l.drop m

theorem commonPrefix_prefix_left (s t : List Char) : commonPrefix s t <+: s := by
  fun_induction commonPrefix s t with
  | case1 => simpa
  | case2 => simp
  | case3 => simp

theorem commonPrefix_prefix_right (s t : List Char) : commonPrefix s t <+: t := by
  fun_induction commonPrefix s t with
  | case1 => simpa
  | case2 => simp
  | case3 => simp

end ErbLayout.Text
