import ErbLayout.Ignore.Pattern
/-!
The patterns of one ignore file together. The last of them that describes a path decides whether it
is ignored.
-/

namespace ErbLayout.Ignore

open Text

abbrev Rules := List Pattern

/-- A path as patterns see it: one slash at its head, or the directory that it starts from, is left
out. -/
def plainPath : List Char → List Char
  | '/' :: s => s
  | '.' :: '/' :: s => s
  | s => s

namespace Rules

def ofLines (lines : List (List Char)) : Except PatternError Rules := do
  return (← lines.mapM Pattern.parse).filterMap id

/-- What the rules say of a path, if they say anything. A directory is written with a slash at its
end. -/
def verdict? (rs : Rules) (path : List Char) : Option Bool :=
  (rs.reverse.find? fun p => p.shape.matches_ (plainPath path)).map fun p => !p.negated

def ignores (rs : Rules) (path : List Char) : Bool := rs.verdict? path == some true

/-- The lines of an ignore file that hold patterns. -/
def linesOf (text : List Char) : List (List Char) :=
  (splitLines text).filter fun l => !allBlank l && (trimLeft l).head? != some '#'

/-- The rules of an ignore file, or nothing if no line of it holds a pattern. -/
def ofText (text : List Char) : Except PatternError (Option Rules) :=
  match linesOf text with
  | [] => .ok none
  | ls => (ofLines ls).map some

theorem verdict?_nil (path : List Char) : verdict? [] path = none := rfl

/-- A pattern that describes a path has the last word over those before it. -/
theorem verdict?_append_of_matches (rs : Rules) (p : Pattern) (path : List Char)
    (h : p.shape.matches_ (plainPath path) = true) :
    verdict? (rs ++ [p]) path = some !p.negated := by simp [verdict?, h]

theorem verdict?_append_of_not_matches (rs : Rules) (p : Pattern) (path : List Char)
    (h : p.shape.matches_ (plainPath path) = false) :
    verdict? (rs ++ [p]) path = verdict? rs path := by simp [verdict?, h]

end Rules

end ErbLayout.Ignore
