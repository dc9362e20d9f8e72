import ErbLayout.Text.Lines
import ErbLayout.Text.Quoted
import ErbLayout.Text.Wildcard
/-!
The patterns of ignore files. A pattern names files and directories below the directory of its
file: anywhere when it is a single name, else on the very way that it writes. What it names it names
with all that lies below it.
-/

namespace ErbLayout.Ignore

open Text

/-- A part of a pattern between slashes: any directories or none, any one name, or a name with
wildcards. -/
inductive Part where
  | anyWay
  | anyName
  | name (atoms : List Wildcard.Atom)
  deriving DecidableEq, Repr

/-- What a pattern names: everything, everything that lies in a directory, or what its parts
describe. -/
inductive Shape where
  | everything
  | nested
  | parts (ps : List Part)
  deriving DecidableEq, Repr

/-- A negated pattern takes back what patterns before it name. -/
structure Pattern where
  negated : Bool
  shape : Shape
  deriving DecidableEq, Repr

structure PatternError where
  line : List Char
  deriving DecidableEq, Repr

def PatternError.message (e : PatternError) : List Char :=
  "Invalid git pattern: ".toList ++ quoted e.line

def dialect : Wildcard.Dialect := ⟨['!', '^'], true⟩

/-- How any way is written. -/
def twoStars : List Char := ['*', '*']

namespace Part

def parse? (s : List Char) : Option Part :=
  if s == twoStars then some .anyWay
  else if s == ['*'] then some .anyName
  else (Wildcard.parse dialect s).map .name

/-- Whether `rest` holds after some way down, of which one character has been read. -/
def wayThen (rest : List Char → Bool) : List Char → Bool
  | [] => false
  | c :: s => (c == '/' && rest s) || (c != '\n' && wayThen rest s)

/-- Whether `rest` holds at the start or after some way down from it. -/
def leadingThen (rest : List Char → Bool) (s : List Char) : Bool :=
  rest s ||
    match s with
    | c :: s => c != '\n' && wayThen rest s
    | [] => false

/-- Whether `rest` holds here or further on in the line. -/
def laterThen (rest : List Char → Bool) : List Char → Bool
  | [] => rest []
  | c :: s => rest (c :: s) || (c != '\n' && laterThen rest s)

/-- Whether `rest` holds here or after a way further down. -/
def innerThen (rest : List Char → Bool) (s : List Char) : Bool :=
  rest s ||
    match s with
    | '/' :: c :: s => c != '\n' && laterThen rest s
    | _ => false

/-- The end of a path, or of a directory on it. -/
def atEnd : List Char → Bool
  | [] => true
  | '\n' :: [] => true
  | c :: _ => c == '/'

/-- Whether a name is read and `rest` holds after it. -/
def nameThen (rest : List Char → Bool) : Part → List Char → Bool
  | .name as, s => Wildcard.matchThen rest as s
  | _, c :: s => c != '/' && Wildcard.manyThen rest s
  | _, [] => false

def afterSlash (needed : Bool) (rest : List Char → Bool) (s : List Char) : Bool :=
  if needed then
    match s with
    | '/' :: s => rest s
    | _ => false
  else rest s

/-- Whether the parts that follow others describe a path from here on. -/
def matchFrom : Bool → List Part → List Char → Bool
  | _, [], s => atEnd s
  | _, [.anyWay], s => s.head? == some '/'
  | _, .anyWay :: ps, s => innerThen (matchFrom true ps) s
  | slash, p :: ps, s => afterSlash slash (nameThen (matchFrom true ps) p) s

/-- Whether the parts describe a path. -/
def matchAll : List Part → List Char → Bool
  | .anyWay :: ps, s => leadingThen (matchFrom false ps) s
  | ps, s => matchFrom false ps s

end Part

namespace Shape

/-- The way that a pattern writes, from the directory of its file. A single name may lie anywhere,
and a slash at the end stands for what lies below. -/
def fullWay (ss : List (List Char)) : List (List Char) :=
  let ss :=
    match ss with
    | [] :: ss => ss
    | [s] => if s == twoStars then [s] else [twoStars, s]
    | [s, []] => if s == twoStars then [s, []] else [twoStars, s, []]
    | ss => ss
  match ss.getLast? with
  | some [] => ss.dropLast ++ [twoStars]
  | _ => ss

/-- Without any way right after any way. -/
def collapse : List (List Char) → List (List Char)
  | s :: t :: ss =>
    if s == twoStars && t == twoStars then collapse (t :: ss) else s :: collapse (t :: ss)
  | ss => ss

def parse? (s : List Char) : Option Shape :=
  let isDirectory := s.getLast? == some '/' && s != ['/']
  match collapse (fullWay (splitOn '/' s)) with
  | [] => none
  | [t] =>
    if t == twoStars then some (if isDirectory then .nested else .everything)
    else (Part.parse? t).map fun p => .parts [p]
  | ts =>
    if ts == [twoStars, ['*']] then some .everything
    else (ts.mapM Part.parse?).map .parts

def matches_ : Shape → List Char → Bool
  | .everything, s => s.any (· != '\n')
  | .nested, s => s.contains '/'
  | .parts ps, s => Part.matchAll ps s

end Shape

namespace Pattern

/-- The white space at the end of a line is no part of its pattern, unless a backslash stands before
a last space. -/
def stripLine (s : List Char) : List Char :=
  if ['\\', ' '].isSuffixOf s then s else trimRight s

/-- The pattern of a line; blank lines and comments have none. -/
def parse (line : List Char) : Except PatternError (Option Pattern) :=
  match stripLine line with
  | [] => .ok none
  | '#' :: _ => .ok none
  | '!' :: s =>
    match Shape.parse? s with
    | some shape => .ok (some ⟨true, shape⟩)
    | none => .error ⟨line⟩
  | s =>
    match Shape.parse? s with
    | some shape => .ok (some ⟨false, shape⟩)
    | none => .error ⟨line⟩

end Pattern

end ErbLayout.Ignore
