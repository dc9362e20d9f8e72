import ErbLayout.Grammar.State
import ErbLayout.Ruby.Fragment
import ErbLayout.Ruby.Reading
import ErbLayout.Ruby.Rules
/-!
Whether code is whole: all of it reads as statements of Ruby.
-/

namespace ErbLayout.Ruby

open ErbLayout.Grammar

/-- A state of the reader, and whether the symbol before it is a name that is spelled like a keyword
of a block. -/
structure Frame where
  state : State
  blockWord : Bool := false

/-- The state before any code. -/
def beforeCode : State :=
  .ofItems table.first
    ((table.productionsOf Phrase.program.number).map
      (Item.beginning · (.single Token.endOfCode.number)))

/-- The state at the beginning of the body of a here-document. -/
def beforeBody : State :=
  .ofItems table.first
    ((table.productionsOf Phrase.hereDocBody.number).filterMap fun p =>
      (Item.beginning p 0).advance (.token Token.hereDocBodyStart.number))

/-- Phrases in which a name that is spelled like a keyword of a block may be what is called. -/
def calls : List Phrase := [.memberCall, .chainedCommandCall, .call, .commandCall,
  .commandCallWithBlock]

/-- The mark of a phrase that is to stand for some symbols, from their marks. A name that is spelled
like a keyword of a block is nothing but the name of a method that is called. -/
def markOf (head : Nat) (marks : List Bool) : Option Bool :=
  if marks.all not then some false
  else if head = Phrase.variableName.number then some true
  else if calls.any (·.number == head) then some false
  else none

/-- Phrases at whose end a new statement may begin: statements, with what ends them, and the
repetition of those, which is the first one of the grammar. -/
def endsStatement (head : Nat) : Bool :=
  head == Phrase.statements.number || head == Phrase.emptyStatement.number ||
    head == Phrase.terminator.number || head == table.named

/-- Keywords of blocks that are no names at the end of an operand or of a statement, even where they
may not come next. Only outside of any block most of them may be names. -/
def reserved (s : State) : List Token :=
  let may (t : Token) : Bool := s.expected.has t.number
  let ended := s.items.filter Item.isWhole
  if ended.isEmpty then []
  else if may .kwAnd then
    if !may .endMark && may .lineBreak then Token.blockKeywords else [.kwDo, .kwRescue]
  else if !may .endMark && ended.any (endsStatement ·.head) then
    [.kwElse, .kwElsif, .kwEnd, .kwEnsure, .kwIn, .kwRescue, .kwWhen]
  else []

def expected (s : State) : Expected := fun t =>
  s.expected.has t.number || (reserved s).contains t

/-- What to do on a token. The body of a here-document may begin wherever a line ends. -/
def actionOn (s : State) (t : Token) : Action :=
  if t = .hereDocBodyStart then .shift else s.action table t.number

/-- The frames after a token. The end of a here-document ends its body, which counts for nothing. -/
def shift (frames : List Frame) (r : Read) : List Frame :=
  match frames with
  | [] => []
  | top :: _ =>
    if r.token = .hereDocBodyStart then { state := beforeBody } :: frames
    else
      let state := top.state.after table (.token r.token.number)
      let next : List Frame := { state, blockWord := r.blockWord } :: frames
      if r.token = .hereDocEnd then next.drop ((state.items.head?.map Item.size).getD 0) else next

/-- The frames after a phrase that stands for the last symbols. -/
def reduce (frames : List Frame) (head size : Nat) : Option (List Frame) :=
  match markOf head ((frames.take size).map Frame.blockWord), frames.drop size with
  | some blockWord, below@(top :: _) =>
    some ({ state := top.state.after table (.phrase head), blockWord } :: below)
  | _, _ => none

/-- What frames come to before a token: a program, or frames that take the token in. -/
inductive Settled where
  | program
  | ready (frames : List Frame)
  | fail

/-- Puts phrases in the place of the symbols that stand for them as long as they end before a token.
A program ends at the end of the code, which nothing takes in. -/
def settle (t : Token) : Nat → List Frame → Settled
  | 0, _ => .fail
  | _, [] => .fail
  | fuel + 1, frames@(top :: _) =>
    match actionOn top.state t with
    | .fail => .fail
    | .shift => if t = .endOfCode then .fail else .ready frames
    | .reduce head size =>
      if head = Phrase.program.number then if t = .endOfCode then .program else .fail
      else (reduce frames head size).elim .fail (settle t fuel)

/-- Whether code is a program, from some frames and the next token on. Phrases that stand for a
single one are never nested as deep as 64 of them. -/
def accepts : Nat → List Frame → Read → Bool
  | 0, _, _ => false
  | fuel + 1, frames, r =>
    match settle r.token (64 * (frames.length + 1)) frames with
    | .fail => false
    | .program => true
    | .ready frames =>
      match shift frames r with
      | [] => false
      | top :: below =>
        (read (expected top.state) r.source).any (accepts fuel (top :: below))

/-- Whether all of a code reads as statements. Some tokens take nothing of the code, but never many
of them in a row. -/
def isComplete : Checker := fun code =>
  (read (expected beforeCode) ⟨code, [], []⟩).any fun r =>
    accepts (64 * (r.source.rest.length + 2)) [{ state := beforeCode }] r

theorem isComplete_nil : isComplete [] = true := by decide +kernel

end ErbLayout.Ruby
