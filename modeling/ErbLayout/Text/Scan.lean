/-!
Leftmost scanning: a reader is tried at every position of a text from left to right, and each
stretch that it takes is skipped as a whole. The result says for every character whether it was
taken by a reading or left over.
-/

namespace ErbLayout.Text

/-- A reader sees the text from a position on and may take a stretch there: a value and the
number of characters that it spans. A span of zero counts as one. -/
abbrev Reader (α : Type) := List Char → Option (α × Nat)

/-- What a scan finds at a position: a character that no reading took, or a reading. -/
inductive Found (α : Type) where
  | char (c : Char)
  | value (a : α)
  deriving DecidableEq, Repr

/-- The scan of a text whose first `skip` characters belong to the last reading. -/
def scanFrom {α : Type} (read : Reader α) : Nat → List Char → List (Found α)
  | _, [] => []
  | skip + 1, _ :: s => scanFrom read skip s
  | 0, c :: s =>
    match read (c :: s) with
    | some (a, n) => .value a :: scanFrom read (n - 1) s
    | none => .char c :: scanFrom read 0 s

def scan {α : Type} (read : Reader α) (s : List Char) : List (Found α) := scanFrom read 0 s

/-- The text in which every reading is replaced by what `write` makes of it. -/
def Found.fill {α : Type} (write : α → List Char) (fs : List (Found α)) : List Char :=
  fs.flatMap fun
    | .char c => [c]
    | .value a => write a

/-- The readings of a scan with the positions where they stand. -/
def scanAt {α : Type} (read : Reader α) : Nat → Nat → List Char → List (Nat × α × Nat)
  | _, _, [] => []
  | at_, skip + 1, _ :: s => scanAt read (at_ + 1) skip s
  | at_, 0, c :: s =>
    match read (c :: s) with
    | some (a, n) => (at_, a, n) :: scanAt read (at_ + 1) (n - 1) s
    | none => scanAt read (at_ + 1) 0 s

/-- The position of the first reading at or after `at_`, with it. -/
def find? {α : Type} (read : Reader α) : Nat → List Char → Option (Nat × α × Nat)
  | _, [] => none
  | at_, c :: s =>
    match read (c :: s) with
    | some (a, n) => some (at_, a, n)
    | none => find? read (at_ + 1) s

end ErbLayout.Text
