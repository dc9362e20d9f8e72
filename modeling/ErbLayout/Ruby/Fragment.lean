import ErbLayout.Log
import ErbLayout.Text.Letter
import ErbLayout.Text.Lines
import ErbLayout.Text.Quoted
import ErbLayout.Text.Utf8
/-!
Fragments of Ruby, as they stand in tags: what a fragment does to the blocks around it, the closers
that make it whole, and its layout by a reformatter that wants whole code.
-/

namespace ErbLayout.Ruby

/-- Whether code is whole by itself. -/
abbrev Checker := List Char → Bool

/-- What makes a reformatter fail instead of giving the code back. -/
inductive ReformatError where
  | undecodable (error : Text.DecodeError)
  | nulArgument
  deriving DecidableEq, Repr

def ReformatError.message : ReformatError → List Char
  | .undecodable e => e.message
  | .nulArgument => "embedded null byte".toList

/-- What a reformatter made of code, and what it had to say. -/
structure Reformatted where
  result : Except ReformatError (List Char)
  log : Log := []

/-- Lays out code for a width. -/
abbrev Reformatter := List Char → Int → Reformatted

/-- Leaves code as it is. -/
def passThrough : Reformatter := fun code _ => { result := .ok code }

/-- A fragment closes a block, closes it and opens its continuation, opens one, or stands alone. -/
inductive Kind where
  | close
  | elseLike
  | blockOpen
  | standalone
  deriving DecidableEq, Repr

namespace Kind

def isControlFlow (k : Kind) : Bool := k != .standalone

def name : Kind → List Char
  | .close => "close".toList
  | .elseLike => "else_like".toList
  | .blockOpen => "block_open".toList
  | .standalone => "standalone".toList

end Kind

def closers : List (List Char) := ["end".toList, ['}']]

/-- Keywords that continue a block by themselves. -/
def bareContinuations : List (List Char) := ["else".toList, "ensure".toList]

/-- Keywords that continue a block whatever follows them. -/
def openContinuations : List (List Char) :=
  ["elsif".toList, "when".toList, "in".toList, "rescue".toList]

/-- A keyword at the start of a text that no word character follows. -/
def beginsWithWord (word s : List Char) : Bool :=
  word.isPrefixOf s && !((s.drop word.length).head?.any isWord)

def isContinuation (code : List Char) : Bool :=
  bareContinuations.contains code || openContinuations.any (beginsWithWord · code)

/-- The role of a fragment, by its first word or by whether it is whole. -/
def classify (complete : Checker) (code : List Char) : Kind :=
  let c := Text.trim code
  if closers.contains c then .close
  else if isContinuation c then .elseLike
  else if complete c then .standalone
  else .blockOpen

/-- The closers tried in turn, each after a line break; one is kept when the code is whole with it
and with those kept before. -/
def suffixFrom (complete : Checker) (code suffix : List Char) : List (List Char) → List Char
  | [] => suffix
  | closer :: rest =>
    let candidate := suffix ++ '\n' :: closer
    suffixFrom complete code (if complete (code ++ candidate) then candidate else suffix) rest

/-- The closers that make a fragment whole, or nothing when none of them does. -/
def autocloseSuffix (complete : Checker) (code : List Char) : List Char :=
  suffixFrom complete code [] closers

/-- What is left of reformatted code without its closers, or nothing when these are not its last
lines. -/
def withoutClosers (closing : List (List Char)) (lines : List (List Char)) :
    Option (List (List Char)) :=
  let k := closing.length
  if k = 0 then some lines
  else if lines.length ≤ k || (lines.drop (lines.length - k)).map Text.trim != closing then none
  else some (lines.take (lines.length - k))

/-- A fragment from what the reformatter made of it and its suffix. The fragment itself stays when
the reformatter changed the block structure or left nothing. -/
def ofReformatted (code suffix result : List Char) : List Char × Log :=
  match withoutClosers (Text.words suffix) (Text.splitLines (Text.trim result)) with
  | none =>
    (code, Log.debug ("reformatted block lost its closer, keeping original: ".toList ++
      Text.quoted code))
  | some [] => (code, [])
  | some ls => (Text.joinLines ls, [])

/-- A fragment laid out by a reformatter, which sees it with a suffix that makes it whole. -/
def reformat (reformatter : Reformatter) (code suffix : List Char) (width : Int) : Reformatted :=
  let r := reformatter (code ++ suffix) width
  match r.result with
  | .error e => ⟨.error e, r.log⟩
  | .ok result =>
    let (code', log) := ofReformatted code suffix result
    ⟨.ok code', r.log ++ log⟩

theorem isControlFlow_iff (k : Kind) : k.isControlFlow = true ↔ k ≠ .standalone := by
  cases k <;> decide

theorem withoutClosers_nil (lines : List (List Char)) : withoutClosers [] lines = some lines := rfl

end ErbLayout.Ruby
