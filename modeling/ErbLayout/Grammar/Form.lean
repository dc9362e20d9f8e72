/-!
Forms: what may stand for a phrase of a language, and the sequences of symbols a form abbreviates.
-/

namespace ErbLayout.Grammar

/-- Of two operators of one rank in a row, the one that takes the operand between them. -/
inductive Side where
  | left
  | right
  deriving DecidableEq, Repr

/-- How tightly a symbol holds on to what stands before it. -/
structure Strength where
  rank : Int := 0
  side : Option Side := none
  deriving DecidableEq, Repr

inductive Form (τ ν : Type) where
  | nothing
  | token (t : τ)
  | phrase (n : ν)
  | both (first second : Form τ ν)
  | either (first second : Form τ ν)
  | several (part : Form τ ν)
  | bound (strength : Strength) (part : Form τ ν)
  deriving DecidableEq, Repr

/-- A symbol of a sequence: a token, a phrase with a name, or a repetition without one. -/
inductive Atom (τ ν : Type) where
  | token (t : τ)
  | phrase (n : ν)
  | series (part : Form τ ν)
  deriving DecidableEq, Repr

/-- Symbols in order, each with its strength. -/
abbrev Sequence (τ ν : Type) := List (Atom τ ν × Strength)

variable {τ ν : Type}

namespace Form

def all : List (Form τ ν) → Form τ ν
  | [] => nothing
  | [f] => f
  | f :: fs => both f (all fs)

def any : List (Form τ ν) → Form τ ν
  | [] => nothing
  | [f] => f
  | f :: fs => either f (any fs)

def opt (f : Form τ ν) : Form τ ν := either f nothing

def many (f : Form τ ν) : Form τ ν := opt (several f)

def strong (rank : Int) (f : Form τ ν) : Form τ ν := bound ⟨rank, none⟩ f

def left (rank : Int) (f : Form τ ν) : Form τ ν := bound ⟨rank, some .left⟩ f

def right (rank : Int) (f : Form τ ν) : Form τ ν := bound ⟨rank, some .right⟩ f

/-- A sequence whose last symbol has another strength. -/
def endingWith (s : Strength) : Sequence τ ν → Sequence τ ν
  | [] => []
  | [(a, _)] => [(a, s)]
  | x :: y :: l => x :: endingWith s (y :: l)

/-- The sequences a form abbreviates. A part that has a strength of its own gives it to all of its
symbols, but to the last one only where nothing stands after the part. -/
def sequences (s : Strength) (last : Bool) : Form τ ν → List (Sequence τ ν)
  | nothing => [[]]
  | token t => [[(.token t, s)]]
  | phrase n => [[(.phrase n, s)]]
  | several f => [[(.series f, s)]]
  | both f g =>
    (f.sequences s false).flatMap fun l => (g.sequences s last).map (l ++ ·)
  | either f g => f.sequences s last ++ g.sequences s last
  | bound inner f =>
    let ls := f.sequences inner last
    if last then ls else ls.map (endingWith s)

/-- The parts of a form that are repeated, the outer ones first. -/
def repeated : Form τ ν → List (Form τ ν)
  | nothing => []
  | token _ => []
  | phrase _ => []
  | several f => f :: f.repeated
  | both f g => f.repeated ++ g.repeated
  | either f g => f.repeated ++ g.repeated
  | bound _ f => f.repeated

end Form

/-- The sequences that stand for a repetition: one of the part, or two repetitions in a row. -/
def seriesOf (part : Form τ ν) : List (Sequence τ ν) :=
  [(.series part, {}), (.series part, {})] ::
    (part.sequences {} true).filter fun l => !l.isEmpty

theorem Form.sequences_ne_nil (f : Form τ ν) (s : Strength) (last : Bool) :
    f.sequences s last ≠ [] := by
  induction f generalizing s last with
  | nothing | token | phrase | several => simp [sequences]
  | both f g hf hg =>
    obtain ⟨l, hl⟩ := List.exists_mem_of_ne_nil _ (hf s false)
    obtain ⟨m, hm⟩ := List.exists_mem_of_ne_nil _ (hg s last)
    exact List.ne_nil_of_mem (List.mem_flatMap.2 ⟨l, hl, List.mem_map.2 ⟨m, hm, rfl⟩⟩)
  | either f g hf _ => simp [sequences, hf]
  | bound inner f hf => cases last <;> simp [sequences, hf]

end ErbLayout.Grammar
