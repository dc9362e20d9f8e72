import ErbLayout.Text.Lines
/-!
Paths as they are written, and locations, which are the names on the way from the root down.
-/

namespace ErbLayout.Files

abbrev Name := List Char

/-- A written path: the slashes that it begins with, and its names. -/
structure Pathname where
  root : List Char := []
  names : List Name := []
  deriving DecidableEq, Repr

def here : Name := ['.']

def up : Name := ['.', '.']

/-- The names between slashes; those that stay in place are left out. -/
def splitNames (s : List Char) : List Name :=
  (Text.splitOn '/' s).filter fun n => !n.isEmpty && n != here

namespace Pathname

/-- Exactly two slashes at the head are kept apart from one, or more. -/
def rootOf (s : List Char) : List Char :=
  match (s.takeWhile (· == '/')).length with
  | 0 => []
  | 2 => ['/', '/']
  | _ => ['/']

def ofText (s : List Char) : Pathname := ⟨rootOf s, splitNames s⟩

def isAbsolute (p : Pathname) : Bool := !p.root.isEmpty

def text (p : Pathname) : List Char :=
  if p.root.isEmpty && p.names.isEmpty then here else p.root ++ Text.joinWith ['/'] p.names

/-- The last name of a path. -/
def name (p : Pathname) : Name := p.names.getLastD []

def parent (p : Pathname) : Pathname := { p with names := p.names.dropLast }

def child (p : Pathname) (n : Name) : Pathname := { p with names := p.names ++ [n] }

/-- The parts of a path, of which the root is one. -/
def parts (p : Pathname) : List Name := if p.isAbsolute then p.root :: p.names else p.names

end Pathname

/-- Where something stands: the names from the root down to it. -/
abbrev Location := List Name

namespace Location

def path (l : Location) : Pathname := ⟨['/'], l⟩

def text (l : Location) : List Char := l.path.text

def ancestorsFrom : List Name → List Location
  | [] => [[]]
  | n :: ns => (n :: ns).reverse :: ancestorsFrom ns

/-- A location and all those above it, from the innermost on. -/
def ancestors (l : Location) : List Location := ancestorsFrom l.reverse

/-- The names from `base` down to a location below it. -/
def below? (base : Location) (l : Location) : Option (List Name) :=
  if base.isPrefixOf l then some (l.drop base.length) else none

/-- Adds a location to a list that is ordered name by name, unless it is in it. -/
def insert (l : Location) : List Location → List Location
  | [] => [l]
  | m :: ms => if l = m then m :: ms else if l < m then l :: m :: ms else m :: insert l ms

theorem mem_insert {l k : Location} {ms : List Location} :
    k ∈ insert l ms ↔ k = l ∨ k ∈ ms := by
  induction ms with
  | nil => simp [insert]
  | cons m ms ih =>
    rw [insert]
    split
    · rename_i h
      simp [h]
    · split
      · simp
      · simp [ih]
        grind

/-- The locations of a list in order, each once. -/
def sorted (ls : List Location) : List Location := ls.foldr insert []

theorem mem_sorted {k : Location} {ls : List Location} : k ∈ sorted ls ↔ k ∈ ls := by
  induction ls with
  | nil => simp [sorted]
  | cons l ls ih =>
    rw [sorted, List.foldr_cons, mem_insert, List.mem_cons]
    exact or_congr_right ih

end Location

end ErbLayout.Files
