import ErbLayout.Grammar.Form
/-!
The table of a grammar: its symbols by number, its productions, the tokens a phrase may begin with,
and the phrases it may begin with.
-/

namespace ErbLayout.Grammar

/-- A set of tokens, a bit for each number. -/
abbrev TokenSet := Nat

namespace TokenSet

def single (t : Nat) : TokenSet := 1 <<< t

def has (s : TokenSet) (t : Nat) : Bool := Nat.testBit s t

def union (s s' : TokenSet) : TokenSet := s ||| s'

theorem has_union (s s' : TokenSet) (t : Nat) : (s.union s').has t = (s.has t || s'.has t) := by
  simp [has, union, Nat.testBit_or]

theorem has_single (t t' : Nat) : (single t).has t' = decide (t = t') := by
  simp [has, single, Nat.one_shiftLeft, Nat.testBit_two_pow]

end TokenSet

inductive Symbol where
  | token (number : Nat)
  | phrase (number : Nat)
  deriving DecidableEq, Repr

structure Step where
  symbol : Symbol
  strength : Strength
  deriving DecidableEq, Repr

/-- Steps that stand for a phrase. -/
structure Production where
  head : Nat
  steps : List Step
  deriving DecidableEq, Repr

/-- What may stand after a phrase at the beginning of another one: some tokens, and where nothing of
the other one is left also what may stand after that. -/
structure Corner where
  ahead : TokenSet := 0
  final : Bool := false
  deriving DecidableEq, Repr

def Corner.union (c d : Corner) : Corner := ⟨c.ahead.union d.ahead, c.final || d.final⟩

/-- What may stand after a phrase, given what may stand after the one that it begins. -/
def Corner.follow (c : Corner) (outer : TokenSet) : TokenSet :=
  if c.final then c.ahead.union outer else c.ahead

/-- Productions that begin with one symbol, by the phrase they stand for. -/
abbrev Openings := List (Nat × List Production)

structure Table where
  /-- How many phrases have names; the others are repetitions. -/
  named : Nat
  /-- The productions of each phrase. -/
  productions : Array (List Production)
  /-- The tokens each phrase may begin with. -/
  first : Array TokenSet
  /-- For each phrase, the phrases it may begin with. -/
  corners : Array (Array (Option Corner))
  byToken : Array Openings
  byPhrase : Array Openings

namespace Table

def isSeries (table : Table) (phrase : Nat) : Bool := table.named ≤ phrase

def productionsOf (table : Table) (phrase : Nat) : List Production :=
  table.productions.getD phrase []

def firstOf (first : Array TokenSet) : Symbol → TokenSet
  | .token t => .single t
  | .phrase n => first.getD n 0

end Table

/-- The tokens that some phrases may begin with, with those found before. -/
def firstTokens (productions : Array (List Production)) :
    Nat → List Nat → (visited : Nat) → TokenSet → TokenSet
  | 0, _, _, found => found
  | _, [], _, found => found
  | fuel + 1, n :: pending, visited, found =>
    if visited.testBit n then firstTokens productions fuel pending visited found
    else
      let (pending, found) := (productions.getD n []).foldl (fun (pending, found) p =>
        match p.steps with
        | ⟨.token t, _⟩ :: _ => (pending, found.union (.single t))
        | ⟨.phrase m, _⟩ :: _ => (m :: pending, found)
        | [] => (pending, found)) (pending, found)
      firstTokens productions fuel pending (visited ||| 1 <<< n) found

/-- The phrases that a phrase begins with at once, each with what may stand after it. -/
abbrev Edges := List (Nat × Corner)

def addCorner (n : Nat) (c : Corner) : Edges → Edges
  | [] => [(n, c)]
  | (m, d) :: l => if m = n then (m, d.union c) :: l else (m, d) :: addCorner n c l

def edgesOf (first : Array TokenSet) (productions : List Production) : Edges :=
  productions.foldl (fun edges p =>
    match p.steps with
    | [⟨.phrase n, _⟩] => addCorner n { final := true } edges
    | ⟨.phrase n, _⟩ :: next :: _ => addCorner n { ahead := Table.firstOf first next.symbol } edges
    | _ => edges) []

/-- Carries what may stand after the phrases that are pending on to the phrases they begin with,
until nothing is added. -/
def closeCorners (edges : Array Edges) :
    Nat → List Nat → Array (Option Corner) → Array (Option Corner)
  | 0, _, corners => corners
  | _, [], corners => corners
  | fuel + 1, n :: pending, corners =>
    let here := (corners.getD n none).getD {}
    let (corners, pending) := (edges.getD n []).foldl (fun (corners, pending) (m, c) =>
      let old := corners.getD m none
      let new := (old.getD {}).union ⟨c.follow here.ahead, c.final && here.final⟩
      if old == some new then (corners, pending) else (corners.set! m (some new), m :: pending))
      (corners, pending)
    closeCorners edges fuel pending corners

def cornersOf (edges : Array Edges) (n : Nat) : Array (Option Corner) :=
  closeCorners edges (edges.size * edges.size) [n]
    ((Array.replicate edges.size none).set! n (some { final := true }))

def addOpening (p : Production) : Openings → Openings
  | [] => [(p.head, [p])]
  | (n, ps) :: l => if n = p.head then (n, ps ++ [p]) :: l else (n, ps) :: addOpening p l

/-- The productions that begin with each symbol of a kind, of which `number` gives the numbers. -/
def openings (productions : List Production) (size : Nat) (number : Symbol → Option Nat) :
    Array Openings :=
  productions.foldl (fun found p =>
    match p.steps.head?.bind fun step => number step.symbol with
    | some n => found.modify n (addOpening p)
    | none => found) (Array.replicate size [])

abbrev Rule (τ ν : Type) := ν × Form τ ν

section

variable {τ ν : Type} [DecidableEq τ] [DecidableEq ν]

/-- The sequences of each phrase with a name, and after them those of each repetition. -/
def definitions (rules : List (Rule τ ν)) (series : List (Form τ ν)) :
    List (List (Sequence τ ν)) :=
  rules.map (fun r => r.2.sequences {} true) ++ series.map seriesOf

def Atom.symbol (tokenNumber : τ → Nat) (phraseNumber : ν → Nat) (named : Nat)
    (series : List (Form τ ν)) : Atom τ ν → Symbol
  | .token t => .token (tokenNumber t)
  | .phrase n => .phrase (phraseNumber n)
  | .series part => .phrase (named + series.idxOf part)

/-- The table of a grammar, in which each phrase has its rule at its number. -/
def Table.ofRules (tokenNumber : τ → Nat) (tokens : Nat) (phraseNumber : ν → Nat)
    (rules : List (Rule τ ν)) : Table :=
  let series := (rules.flatMap fun r => r.2.repeated).eraseDups
  let named := rules.length
  let productions := (definitions rules series).zipIdx.map fun (sequences, head) =>
    sequences.eraseDups.map fun l =>
      { head
        steps := l.map fun (atom, strength) =>
          ⟨atom.symbol tokenNumber phraseNumber named series, strength⟩ : Production }
  let size := productions.length
  let first := (List.range size).map fun n =>
    firstTokens productions.toArray (size * size) [n] 0 0
  let edges := (productions.map (edgesOf first.toArray)).toArray
  { named
    productions := productions.toArray
    first := first.toArray
    corners := ((List.range size).map (cornersOf edges)).toArray
    byToken := openings productions.flatten tokens fun
      | .token t => some t
      | .phrase _ => none
    byPhrase := openings productions.flatten size fun
      | .token _ => none
      | .phrase n => some n }

end

end ErbLayout.Grammar
