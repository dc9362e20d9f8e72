/-!
Wildcards in names: a question mark for one character, a star for any number of them, and a set in
brackets for one of those that it lists. None of the two marks stands for a slash.
-/

namespace ErbLayout.Text.Wildcard

/-- A set lists the bounds of the ranges in it; a range whose bounds are in the wrong order holds
nothing. -/
inductive Atom where
  | char (c : Char)
  | one
  | many
  | set (negated : Bool) (ranges : List (Char × Char))
  deriving DecidableEq, Repr

/-- What is special in a notation for wildcards: the marks that negate a set, and whether a
backslash takes the meaning of the character after it. -/
structure Dialect where
  negators : List Char
  escapes : Bool
  deriving DecidableEq, Repr

def ranges : List Char → List (Char × Char)
  | a :: '-' :: b :: s => (a, b) :: ranges s
  | a :: s => (a, a) :: ranges s
  | [] => []

/-- The set whose bracket has just been read. A closing bracket that stands first is in it. -/
def set? (d : Dialect) (s : List Char) : Option (Atom × List Char) :=
  let (negated, s) : Bool × List Char :=
    match s with
    | c :: r => if d.negators.contains c then (true, r) else (false, c :: r)
    | [] => (false, [])
  let (first, s) : List Char × List Char :=
    match s with
    | ']' :: r => ([']'], r)
    | s => ([], s)
  match s.span (· != ']') with
  | (more, ']' :: r) => some (.set negated (ranges (first ++ more)), r)
  | _ => none

def parseFrom (d : Dialect) : Nat → List Char → Option (List Atom)
  | _, [] => some []
  | 0, _ :: _ => none
  | n + 1, c :: s =>
    if c == '\\' && d.escapes then
      match s with
      | [] => none
      | e :: s => (parseFrom d n s).map (.char e :: ·)
    else if c == '*' then (parseFrom d n s).map (.many :: ·)
    else if c == '?' then (parseFrom d n s).map (.one :: ·)
    else if c == '[' then
      match set? d s with
      | some (a, s) => (parseFrom d n s).map (a :: ·)
      | none => (parseFrom d n s).map (.char c :: ·)
    else (parseFrom d n s).map (.char c :: ·)

/-- The atoms of a name. A backslash with nothing after it has no meaning; a bracket that is not
closed stands for itself. -/
def parse (d : Dialect) (s : List Char) : Option (List Atom) := parseFrom d s.length s

def inRanges (c : Char) (rs : List (Char × Char)) : Bool := rs.any fun (a, b) => a ≤ c && c ≤ b

/-- Whether an atom for one character may stand for `c`. -/
def Atom.takes : Atom → Char → Bool
  | .char a, c => a == c
  | .one, c => c != '/'
  | .many, _ => false
  | .set negated rs, c => inRanges c rs != negated

/-- Whether `rest` holds after some stretch without a slash. -/
def manyThen (rest : List Char → Bool) : List Char → Bool
  | [] => rest []
  | c :: s => rest (c :: s) || (c != '/' && manyThen rest s)

/-- Whether the atoms take a beginning of a text after which `rest` holds. -/
def matchThen (rest : List Char → Bool) : List Atom → List Char → Bool
  | [], s => rest s
  | .many :: as, s => manyThen (matchThen rest as) s
  | a :: as, c :: s => a.takes c && matchThen rest as s
  | _ :: _, [] => false

/-- Whether the atoms take a whole name. -/
def matchAll (as : List Atom) (s : List Char) : Bool := matchThen List.isEmpty as s

theorem matchAll_chars (s : List Char) : matchAll (s.map .char) s = true := by
  unfold matchAll
  induction s with
  | nil => rfl
  | cons c s ih => simp [matchThen, Atom.takes, ih]

end ErbLayout.Text.Wildcard
