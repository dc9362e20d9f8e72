import ErbLayout.Files.Pathname
import ErbLayout.Text.Utf8
/-!
Trees of files: what stands at a location, and the tree in which something else stands there.
-/

namespace ErbLayout.Files

open Text (Bytes)

inductive Node where
  | file (content : Bytes)
  | link (target : List Char)
  | directory (entries : List (Name × Node))
  deriving Repr, Inhabited

abbrev Entries := List (Name × Node)

namespace Entries

/-- The entries with `node` under a name. Entries that are in the order of their names stay so. -/
def set (name : Name) (node : Node) : Entries → Entries
  | [] => [(name, node)]
  | e :: es =>
    if e.1 = name then (name, node) :: es
    else if name < e.1 then (name, node) :: e :: es
    else e :: set name node es

def erase (name : Name) (es : Entries) : Entries := es.filter (·.1 != name)

end Entries

namespace Node

def isDirectory : Node → Bool
  | .directory _ => true
  | _ => false

def isFile : Node → Bool
  | .file _ => true
  | _ => false

def entries : Node → Entries
  | .directory es => es
  | _ => []

/-- What stands at a location; no link is followed on the way. -/
def get? : Node → Location → Option Node
  | n, [] => some n
  | n, name :: l =>
    match n.entries.lookup name with
    | some c => c.get? l
    | none => none

/-- The tree with `new` at a location. Directories that are missing on the way are made. -/
def put : Node → Location → Node → Node
  | _, [], new => new
  | n, name :: l, new =>
    let old := (n.entries.lookup name).getD (.directory [])
    .directory (Entries.set name (old.put l new) n.entries)

/-- The tree without what stands at a location. -/
def erase : Node → Location → Node
  | n, [] => n
  | n, [name] => .directory (Entries.erase name n.entries)
  | n, name :: l =>
    match n.entries.lookup name with
    | some c => .directory (Entries.set name (c.erase l) n.entries)
    | none => n

mutual

def linkCount : Node → Nat
  | .file _ => 0
  | .link _ => 1
  | .directory es => linkCountIn es

def linkCountIn : List (Name × Node) → Nat
  | [] => 0
  | (_, n) :: es => n.linkCount + linkCountIn es

end

mutual

/-- The files and links of a tree with the names on the way to them. -/
def leaves : Node → List (Location × Node)
  | .directory es => leavesIn es
  | n => [([], n)]

def leavesIn : List (Name × Node) → List (Location × Node)
  | [] => []
  | (name, n) :: es => (n.leaves.map fun (l, m) => (name :: l, m)) ++ leavesIn es

end

theorem lookup_set (es : Entries) (a b : Name) (n : Node) :
    (Entries.set a n es).lookup b = if b = a then some n else es.lookup b := by
  have miss {x y : Name} (h : ¬ x = y) : (x == y) = false := beq_eq_false_iff_ne.2 h
  induction es with
  | nil => by_cases h : b = a <;> simp [Entries.set, List.lookup_cons, h, miss]
  | cons e es ih =>
    obtain ⟨c, m⟩ := e
    by_cases hc : c = a
    · subst hc
      by_cases hb : b = c <;> simp [Entries.set, List.lookup_cons, hb, miss]
    · by_cases hl : a < c
      · by_cases hb : b = a <;> simp [Entries.set, hc, hl, List.lookup_cons, hb, miss]
      · by_cases hb : b = c
        · subst hb
          simp [Entries.set, hc, hl]
        · simp [Entries.set, hc, hl, List.lookup_cons, hb, miss, ih]

theorem get?_put_self (n new : Node) (l : Location) : (n.put l new).get? l = some new := by
  induction l generalizing n with
  | nil => rfl
  | cons name l ih => simp [put, get?, entries, lookup_set, ih]

end Node

end ErbLayout.Files
