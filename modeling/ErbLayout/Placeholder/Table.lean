import ErbLayout.Erb.Tag
import ErbLayout.Placeholder.Name
/-!
Protection of a template: ERB tags, and before them the words that look like names, give way to
fresh names, so that nothing inside them is read as markup. The table of what was replaced undoes
it.
-/

namespace ErbLayout.Placeholder

/-- The names that are drawn one after another: the one drawn at each turn, the turn that comes
next, and how many turns are left. -/
structure Names where
  draw : Nat → Name
  turn : Nat := 0
  left : Nat

/-- The first drawn name that is not taken. When no turns are left it is the next one as it is. -/
def freshFrom (draw : Nat → Name) (taken : Name → Bool) : Nat → Nat → Name × Names
  | 0, turn => (draw turn, ⟨draw, turn, 0⟩)
  | left + 1, turn =>
    if taken (draw turn) then freshFrom draw taken left (turn + 1)
    else (draw turn, ⟨draw, turn + 1, left⟩)

def Names.fresh (names : Names) (taken : Name → Bool) : Name × Names :=
  freshFrom names.draw taken names.left names.turn

abbrev Entries := List (Name × List Char)

/-- What stands for what, in the order of replacement. -/
structure Table where
  source : List Char := []
  codeTags : Entries := []
  lookalikes : Entries := []

/-- A name that stands for something already, or that the source spells out. -/
def Table.taken (t : Table) : Name → Bool :=
  let spelled := Name.occurrences t.source
  fun n => t.codeTags.any (·.1 == n) || t.lookalikes.any (·.1 == n) || spelled.contains n

/-- A name of the table at the start of a text, and what it stands for. -/
def Entries.read (es : Entries) : Text.Reader (Name × List Char) := fun s =>
  match Name.read s with
  | some (n, k) =>
    match es.find? (·.1 == n) with
    | some e => some (e, k)
    | none => none
  | none => none

def Entries.restore (es : Entries) (s : List Char) : List Char :=
  Text.Found.fill Prod.snd (Text.scan es.read s)

def Table.restoreCodeTags (t : Table) (s : List Char) : List Char := t.codeTags.restore s

/-- Code tags first, since a code tag may hold a protected word. -/
def Table.restore (t : Table) (s : List Char) : List Char :=
  t.lookalikes.restore (t.restoreCodeTags s)

/-- The length of a text as it will read. -/
def Table.restoredLength (t : Table) (s : List Char) : Nat := (t.restore s).length

/-- Replaces what was found by fresh names. Returns the text, the entries for it and the names that
remain. -/
def replaceFrom (taken : Name → Bool) :
    List (Text.Found (List Char)) → Entries → Names → List Char × Entries × Names
  | [], es, names => ([], es, names)
  | .char c :: fs, es, names =>
    let (s, es', names') := replaceFrom taken fs es names
    (c :: s, es', names')
  | .value text :: fs, es, names =>
    let (n, names') := names.fresh fun m => taken m || es.any (·.1 == m)
    let (s, es', names'') := replaceFrom taken fs (es ++ [(n, text)]) names'
    (n.text ++ s, es', names'')

structure Protected where
  working : List Char
  table : Table
  names : Names

def protect (names : Names) (source : List Char) : Protected :=
  let spelled := Name.occurrences source
  let (s, lookalikes, names) := replaceFrom spelled.contains (Text.scan lookalike source) [] names
  let taken (n : Name) : Bool := lookalikes.any (·.1 == n) || spelled.contains n
  let tags := (Text.scan Erb.Tag.read s).map fun
    | .char c => .char c
    | .value (_, text) => .value text
  let (working, codeTags, names) := replaceFrom taken tags [] names
  ⟨working, ⟨source, codeTags, lookalikes⟩, names⟩

/-- One more name that neither stands for anything nor occurs in the source. -/
def Protected.newName (p : Protected) : Name × Names := p.names.fresh p.table.taken

end ErbLayout.Placeholder
