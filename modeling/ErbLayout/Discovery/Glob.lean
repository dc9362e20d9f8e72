import ErbLayout.Files.Workspace
import ErbLayout.Text.Wildcard
/-!
Paths with wildcards, and the paths in a tree of files that they stand for.
-/

namespace ErbLayout.Discovery

open Files Text

/-- One name of such a path: a plain one, one with wildcards, or any way down. -/
inductive GlobPart where
  | name (n : Name)
  | wild (atoms : List Wildcard.Atom)
  | anyWay
  deriving DecidableEq, Repr

/-- Two stars are a name of their own, and no part of one. -/
structure GlobError where
  deriving DecidableEq, Repr

def GlobError.message (_ : GlobError) : List Char :=
  "Invalid pattern: '**' can only be an entire path component".toList

def isGlobChar (c : Char) : Bool := c == '*' || c == '?' || c == '['

def hasGlobChars (s : List Char) : Bool := s.any isGlobChar

def globDialect : Wildcard.Dialect := ⟨['!'], false⟩

def hasTwoStars : List Char → Bool
  | '*' :: '*' :: _ => true
  | _ :: s => hasTwoStars s
  | [] => false

def GlobPart.parse (n : Name) : Except GlobError GlobPart :=
  if n == ['*', '*'] then .ok .anyWay
  else if hasTwoStars n then .error {}
  else if hasGlobChars n then .ok (.wild ((Wildcard.parse globDialect n).getD []))
  else .ok (.name n)

mutual

/-- The directories of a tree with the names on the way to them, links not followed. -/
def directories : Node → List (List Name)
  | .directory es => [] :: directoriesIn es
  | _ => []

def directoriesIn : List (Name × Node) → List (List Name)
  | [] => []
  | (n, c) :: es => (directories c).map (n :: ·) ++ directoriesIn es

end

/-- The paths below a directory that the parts stand for. -/
def select (w : Workspace) : List GlobPart → Pathname → List Pathname
  | [], p => [p]
  | .name n :: parts, p =>
    let q := p.child n
    if parts.isEmpty then if (w.node? q).isSome then [q] else []
    else if w.isDirectory q then select w parts q
    else []
  | .wild atoms :: parts, p =>
    let names := ((w.node? p).elim [] Node.entries).map (·.1)
    let here := names.filter fun n =>
      (parts.isEmpty || w.isDirectory (p.child n)) && Wildcard.matchAll atoms n
    here.flatMap fun n => select w parts (p.child n)
  | .anyWay :: parts, p =>
    let below := (w.node? p).elim [] directories
    (below.flatMap fun names => select w parts { p with names := p.names ++ names }).eraseDups

/-- Where a path with wildcards begins to have them: the path before, and the names from there. -/
def splitGlob (p : Pathname) : Pathname × List Name :=
  let (plain, rest) := p.names.span (!hasGlobChars ·)
  ({ p with names := plain }, rest)

def glob (w : Workspace) (p : Pathname) : Except GlobError (List Pathname) :=
  let (root, names) := splitGlob p
  match names.mapM GlobPart.parse with
  | .error e => .error e
  | .ok parts => .ok (if w.isDirectory root then select w parts root else [])

end ErbLayout.Discovery
