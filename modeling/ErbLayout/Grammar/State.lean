import ErbLayout.Grammar.Table
/-!
How far a reader of a text has come in the productions of a grammar, and what it does on the next
token: it takes the token in, or puts a phrase in the place of the symbols that stand for it.
-/

namespace ErbLayout.Grammar

/-- A production of which some symbols have been read. The last of them has the strength `held`. -/
structure Item where
  head : Nat
  size : Nat
  held : Strength
  rest : List Step
  /-- The tokens that may come after the whole production. -/
  follow : TokenSet
  deriving DecidableEq, Repr

namespace Item

def isWhole (i : Item) : Bool := i.rest.isEmpty

/-- A production before its first symbol. -/
def beginning (p : Production) (follow : TokenSet) : Item :=
  ⟨p.head, p.steps.length, {}, p.steps, follow⟩

/-- The tokens that may come next in a production. -/
def next (first : Array TokenSet) (i : Item) : TokenSet :=
  match i.rest with
  | [] => i.follow
  | step :: _ => Table.firstOf first step.symbol

/-- A production after one more symbol, if that is the symbol it goes on with. -/
def advance (symbol : Symbol) (i : Item) : Option Item :=
  match i.rest with
  | [] => none
  | step :: rest =>
    if step.symbol = symbol then some { i with held := step.strength, rest } else none

theorem size_advance {symbol : Symbol} {i j : Item} (h : i.advance symbol = some j) :
    j.size = i.size := by
  unfold advance at h
  split at h
  · simp at h
  · split at h <;> simp at h
    simp [← h]

end Item

/-- The productions that may go on, with the phrases that may come next in them and what may come
after these. -/
structure State where
  items : List Item
  opened : List (Nat × TokenSet)
  /-- The tokens that may come next. -/
  expected : TokenSet
  deriving Repr

inductive Action where
  | shift
  | reduce (head size : Nat)
  | fail
  deriving DecidableEq, Repr

namespace State

def ofItems (first : Array TokenSet) (items : List Item) : State where
  items
  opened := items.filterMap fun i =>
    match i.rest with
    | [⟨.phrase n, _⟩] => some (n, i.follow)
    | ⟨.phrase n, _⟩ :: next :: _ => some (n, Table.firstOf first next.symbol)
    | _ => none
  expected := items.foldl (fun s i => s.union (i.next first)) 0

/-- What may come after a phrase at the beginning of those that may come next, if it may stand
there. -/
def followOf (corners : Array (Array (Option Corner))) (s : State) (n : Nat) : Option TokenSet :=
  s.opened.foldl (fun found (m, outer) =>
    match (corners.getD m #[]).getD n none with
    | none => found
    | some c => some ((found.getD 0).union (c.follow outer))) none

/-- The productions of a state that one symbol begins. -/
def begun (table : Table) (symbol : Symbol) (s : State) : List Item :=
  let openings :=
    match symbol with
    | .token t => table.byToken.getD t []
    | .phrase n => table.byPhrase.getD n []
  openings.flatMap fun (n, ps) =>
    match s.followOf table.corners n with
    | none => []
    | some follow => ps.filterMap fun p => (Item.beginning p follow).advance symbol

/-- The state after one more symbol. -/
def after (table : Table) (symbol : Symbol) (s : State) : State :=
  .ofItems table.first (s.items.filterMap (·.advance symbol) ++ s.begun table symbol)

/-- The productions that are whole and that a token may follow. -/
def ended (s : State) (t : Nat) : List Item :=
  s.items.filter fun i => i.isWhole && i.follow.has t

/-- The productions that a token may continue. -/
def continued (first : Array TokenSet) (s : State) (t : Nat) : List Item :=
  s.items.filter fun i => !i.isWhole && (i.next first).has t

def strongest (i : Item) (is : List Item) : Item :=
  is.foldl (fun best i => if best.held.rank < i.held.rank then i else best) i

/-- A token that may follow a whole production and may also continue others is taken in when these
are the stronger ones, and the whole production ends when they are the weaker ones. Between equals
its side decides. -/
def choose (i : Item) (others : List Item) : Action :=
  let stronger := others.any fun o => i.held.rank < o.held.rank
  let weaker := others.any fun o => o.held.rank < i.held.rank
  let ends := if stronger == weaker then i.held.side == some .left else weaker
  if ends then .reduce i.head i.size else .shift

/-- What to do on a token. A repetition that could go on in two ways ends first, so that each part
is added to all those before it. -/
def action (table : Table) (s : State) (t : Nat) : Action :=
  match s.ended t, s.continued table.first t with
  | [], [] => .fail
  | [], _ :: _ => .shift
  | i :: is, [] =>
    let i := strongest i is
    .reduce i.head i.size
  | i :: is, others@(_ :: _) =>
    if table.isSeries i.head && (is ++ others).all (·.head == i.head) then .reduce i.head i.size
    else choose (strongest i is) others

end State

end ErbLayout.Grammar
