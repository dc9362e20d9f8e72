import ErbLayout.CommandLine.Flag
import ErbLayout.Settings.Options
/-!
The arguments of a run, read as options. The operands name files; they stand together, before,
behind or between the flags.
-/

namespace ErbLayout.CommandLine

open Toml (Value)

/-- Why a run ends with its arguments: help was asked for, or they cannot be understood. -/
inductive Refusal where
  | help
  | misuse
  deriving DecidableEq, Repr

def Refusal.status : Refusal → Nat
  | .help => 0
  | .misuse => 2

/-- Whether operands may still come, are coming, or have come. -/
inductive Operands where
  | awaited
  | coming
  | complete
  deriving DecidableEq, Repr

/-- What has been read: the options, where the operands stand, and whether anything is left over. -/
structure Reading where
  options : Options := {}
  operands : Operands := .awaited
  leftover : Bool := false

/-- A flag with its value, if it takes one. -/
structure Use where
  flag : Flag
  value : Argument := []
  deriving DecidableEq, Repr

/-- Adds to the values of a setting that may be given more than once. -/
def addTo (o : Options) (s : Setting) (v : Value) : Options :=
  let old := match o.given.get? s with
    | some (.array vs) => vs
    | _ => []
  { o with given := o.given.set s (.array (old ++ [v])) }

/-- Gives a setting the number that an argument writes. -/
def number (o : Options) (s : Setting) (a : Argument) : Except Refusal Options :=
  match Text.integer? a with
  | some n => .ok { o with given := o.given.set s (.integer n) }
  | none => .error .misuse

def Use.apply (o : Options) (u : Use) : Except Refusal Options :=
  match u.flag with
  | .help => .error .help
  | .output => .ok { o with output := u.value }
  | .width => number o .width u.value
  | .inplace => .ok { o with inplace := true }
  | .nobackup => .ok { o with nobackup := true }
  | .check => .ok { o with check := true }
  | .reformatter => .ok { o with given := o.given.set .reformatter (.string u.value) }
  | .extendInclude => .ok (addTo o .extendInclude (.string u.value))
  | .exclude => .ok (addTo o .exclude (.string u.value))
  | .extendExclude => .ok (addTo o .extendExclude (.string u.value))
  | .noRespectGitignore =>
    .ok { o with given := o.given.set .respectGitignore (.boolean false) }
  | .forceExclude => .ok { o with given := o.given.set .forceExclude (.boolean true) }
  | .listFiles => .ok { o with listFiles := true }
  | .filesMaxSize => number o .filesMaxSize u.value
  | .verbose => .ok { o with verbose := true }
  | .version => .ok { o with version := true }

/-- The uses of flags in one argument. The last may want its value from the next argument; letters
that are no flags are left over. -/
structure Uses where
  uses : List Use := []
  wanting : Option Flag := none
  leftover : Bool := false
  deriving DecidableEq, Repr

/-- A flag without anything attached. -/
def Uses.bare (f : Flag) : Uses :=
  if f.takesValue then { wanting := some f } else { uses := [⟨f, []⟩] }

/-- A letter with letters or a value right behind it. -/
def Uses.ofLetters (f : Flag) : List Char → Except Refusal Uses
  | [] => .ok (bare f)
  | c :: r =>
    if f.takesValue then .ok { uses := [⟨f, if c == '=' then r else c :: r⟩] }
    else if c == '=' || c == '-' then .error .misuse
    else
      match Flag.ofLetter? c with
      | none => .ok { uses := [⟨f, []⟩], leftover := true }
      | some g => (ofLetters g r).map fun us => { us with uses := ⟨f, []⟩ :: us.uses }

def Uses.ofToken : Token → Except Refusal Uses
  | .operand _ | .terminator => .ok {}
  | .unknown => .ok { leftover := true }
  | .long f none => .ok (bare f)
  | .long f (some a) =>
    if f.takesValue then .ok { uses := [⟨f, a.text⟩] } else .error .misuse
  | .letter f none => .ok (bare f)
  | .letter f (some a) =>
    if a.afterEquals then
      if f.takesValue then .ok { uses := [⟨f, a.text⟩] } else .error .misuse
    else ofLetters f a.text

namespace Reading

/-- An operand, or the terminator, which names nothing. -/
def operand (r : Reading) (name : Option Argument) : Reading :=
  match r.operands with
  | .complete => { r with leftover := true }
  | _ =>
    { r with
      options := { r.options with files := r.options.files ++ name.toList }
      operands := .coming }

/-- A flag behind operands ends them. -/
def atFlag (r : Reading) : Reading :=
  match r.operands with
  | .coming => { r with operands := .complete }
  | _ => r

def use (r : Reading) (us : List Use) (leftover : Bool) : Except Refusal Reading := do
  let options ← us.foldlM Use.apply r.options
  return { r with options, leftover := r.leftover || leftover }

/-- Reads the tokens from left to right. -/
def run : Reading → List Token → Except Refusal Reading
  | r, [] => .ok r
  | r, .operand s :: ts => run (r.operand (some s)) ts
  | r, .terminator :: ts => run (r.operand none) ts
  | r, t :: ts =>
    match Uses.ofToken t with
    | .error e => .error e
    | .ok us =>
      match us.wanting with
      | none =>
        match r.atFlag.use us.uses us.leftover with
        | .error e => .error e
        | .ok r => run r ts
      | some f =>
        match ts with
        | .operand s :: ts =>
          match r.atFlag.use (us.uses ++ [⟨f, s⟩]) us.leftover with
          | .error e => .error e
          | .ok r => run r ts
        | _ => .error .misuse

end Reading

/-- The options that the arguments give. -/
def parse (args : List Argument) : Except Refusal Options :=
  match Token.readAll args with
  | none => .error .misuse
  | some ts =>
    match Reading.run {} ts with
    | .error e => .error e
    | .ok r => if r.leftover then .error .misuse else .ok r.options

end ErbLayout.CommandLine
