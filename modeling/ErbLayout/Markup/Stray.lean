import ErbLayout.Markup.Attribute
import ErbLayout.Text.Letter
/-!
What text between tokens must not hold: an attribute with white space after its equals sign, and
the start of a tag that is no token.
-/

namespace ErbLayout.Markup

/-- How far a name, an equals sign and white space reach at the start of a text. -/
def spacedValue (s : List Char) : Option Nat :=
  match Attribute.nameRun s with
  | (n, '=' :: r) =>
    match r.span isBlank with
    | ([], _) => none
    | (gap, _) =>
      if n.isEmpty || Attribute.endsWithSlash n then none else some (n.length + 1 + gap.length)
  | _ => none

/-- The first spaced value that follows white space, before any angle bracket. -/
def laterSpacedValue : Nat → List Char → Option Nat
  | _, [] => none
  | at_, c :: s =>
    if c == '<' || c == '>' then none
    else if isBlank c then
      match spacedValue s with
      | some n => some (at_ + 1 + n)
      | none => laterSpacedValue (at_ + 1) s
    else laterSpacedValue (at_ + 1) s

/-- A spaced value as one word with the name of the tag before it. -/
def gluedSpacedValue : List Char → Option Nat
  | [] => none
  | _ :: s => (spacedValue s).map (· + 1)

/-- What looks like an open tag and holds an attribute with white space after its equals sign, up
to the end of that white space. -/
def readSpacedAttribute : Text.Reader Unit
  | '<' :: s =>
    match s.span isWord with
    | ([], _) => none
    | (name, rest) =>
      match laterSpacedValue (name.length + 1) rest with
      | some n => some ((), n)
      | none => (gluedSpacedValue s).map fun n => ((), n + 1)
  | _ => none

/-- The start of a tag. -/
def readTagStart : Text.Reader Unit
  | '<' :: '/' :: c :: _ => if isWord c then some ((), 3) else none
  | '<' :: c :: _ => if isWord c then some ((), 2) else none
  | _ => none

end ErbLayout.Markup
