/-!
Nesting: what is open around the place where a document is read. The depth of the nesting is the
indentation, two spaces a level.
-/

namespace ErbLayout

/-- Something open: an element with its tag as written, the attributes of a tag that are put on
lines of their own, or a block of Ruby code. -/
inductive Frame where
  | element (name raw : List Char)
  | attribute (marker : List Char)
  | block (code : List Char)
  deriving DecidableEq, Repr

namespace Frame

def blockLabel : List Char := ['%', 'e', 'r', 'b', '%']

def label : Frame → List Char
  | .element name _ => name
  | .attribute marker => ['a', 't', 't', 'r'] ++ marker
  | .block _ => blockLabel

def describe : Frame → List Char
  | .element name raw => name ++ [':', ' '] ++ raw
  | .attribute marker => (Frame.attribute marker).label
  | .block code => blockLabel ++ [':', ' '] ++ code

end Frame

/-- The open frames, the innermost first. -/
abbrev Nesting := List Frame

namespace Nesting

def depth (n : Nesting) : Nat := n.length

def indentOf (depth : Nat) : List Char := List.replicate (2 * depth) ' '

def indent (n : Nesting) : List Char := indentOf n.depth

def top? (n : Nesting) : Option Frame := n.head?

def topIsElement (n : Nesting) (name : List Char) : Bool :=
  match n with
  | .element m _ :: _ => m == name
  | _ => false

def topIsBlock (n : Nesting) : Bool :=
  match n with
  | .block _ :: _ => true
  | _ => false

def topIsAttribute (n : Nesting) : Bool :=
  match n with
  | .attribute _ :: _ => true
  | _ => false

/-- All frames described, the outermost first. -/
def dump (n : Nesting) : List (List Char) := n.reverse.map Frame.describe

theorem length_indent (n : Nesting) : n.indent.length = 2 * n.length := by
  simp [indent, indentOf, depth]

theorem depth_cons (f : Frame) (n : Nesting) : depth (f :: n) = depth n + 1 := rfl

end Nesting

end ErbLayout
