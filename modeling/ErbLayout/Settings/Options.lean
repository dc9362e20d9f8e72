import ErbLayout.Batch
import ErbLayout.Command.Process
import ErbLayout.Settings.Config
/-!
The options of a run. A setting has the value that the arguments give it, else that of the config
file, else its default.
-/

namespace ErbLayout

open Toml (Value)

structure Options where
  files : List (List Char) := []
  output : List Char := Batch.marker
  inplace : Bool := false
  nobackup : Bool := false
  check : Bool := false
  verbose : Bool := false
  version : Bool := false
  listFiles : Bool := false
  given : Config := []
  config : Config := []

namespace Options

/-- The value of a setting, if it has one. -/
def value? (o : Options) (s : Setting) : Option Value :=
  ((o.given.get? s).orElse fun _ => o.config.get? s).orElse fun _ => s.default?

/-- The options of a run for which a config file was found. -/
def withConfig (o : Options) (c : Config) : Options := { o with config := c }

theorem value?_of_given {o : Options} {s : Setting} {v : Value} (h : o.given.get? s = some v) :
    o.value? s = some v := by simp [value?, h]

theorem value?_of_config {o : Options} {s : Setting} {v : Value} (h : o.given.get? s = none)
    (hc : o.config.get? s = some v) : o.value? s = some v := by simp [value?, h, hc]

/-- A number. A truth value counts as one or zero. -/
def integer? : Option Value → Option Int
  | some (.integer n) => some n
  | some (.boolean b) => some (if b then 1 else 0)
  | _ => none

def kindOf : Option Value → String
  | some v => v.kind
  | none => "NoneType"

def width (o : Options) : Except Mismatch Int :=
  match integer? (o.value? .width) with
  | some n => .ok n
  | none => .error (.operands "-" (kindOf (o.value? .width)) "int")

/-- A limit; what counts as not given is none. -/
def maxSize (o : Options) : Except Mismatch Int :=
  match integer? (o.value? .filesMaxSize) with
  | some n => .ok n
  | none =>
    if (o.value? .filesMaxSize).any Value.isGiven then
      .error (.notOrdered "int" (kindOf (o.value? .filesMaxSize)))
    else .ok 0

def isSet (o : Options) (s : Setting) : Bool := (o.value? s).any Value.isGiven

/-- The patterns in the items of a list; items that count as not given are none. -/
def patterns : List Value → Except Mismatch (List (List Char))
  | [] => .ok []
  | .string t :: vs => (patterns vs).map (t :: ·)
  | v :: vs => if v.isGiven then .error (.notText v.shown) else patterns vs

/-- The characters of a text, each as a value. -/
def characters (t : List Char) : List Value := t.map fun c => .string [c]

/-- The items of two values one after the other. -/
def concatenated (a b : Option Value) : Except Mismatch (List Value) :=
  match a, b with
  | some (.array vs), some (.array us) => .ok (vs ++ us)
  | some (.string s), some (.string t) => .ok (characters (s ++ t))
  | some (.array _), b => .error (.joined "list" (kindOf b))
  | some (.string _), b => .error (.joined "str" (kindOf b))
  | a, b => .error (.operands "+" (kindOf a) (kindOf b))

/-- The items that a value is made of. -/
def items : Value → Except Mismatch (List Value)
  | .array vs => .ok vs
  | .string t => .ok (characters t)
  | .table es => .ok (es.map fun (k, _) => .string k)
  | v => .error (.notIterable v.kind)

def filters (o : Options) : Except Mismatch Discovery.Filters := do
  let include_ ← patterns (← concatenated (o.value? .include_) (o.value? .extendInclude))
  let exclude ← match o.value? .exclude with
    | none => pure (Discovery.defaultExcludes.map Value.string)
    | some v => items v
  let exclude ← patterns (← concatenated (some (.array exclude)) (o.value? .extendExclude))
  return {
    include_, exclude := some exclude
    respectGitignore := o.isSet .respectGitignore
    forceExclude := o.isSet .forceExclude
    maxSize := ← o.maxSize }

/-- Why there is no reformatter. -/
inductive ReformatterError where
  | command (error : Command.CommandError)
  | mismatch (error : Mismatch)
  deriving DecidableEq, Repr

def ReformatterError.message : ReformatterError → List Char
  | .command e => e.message
  | .mismatch e => e.message

/-- The words of a command that is given as a list. -/
def commandWords : List Value → Except Mismatch (List Command.Word)
  | [] => .ok []
  | .string t :: vs => (commandWords vs).map (t :: ·)
  | v :: _ => .error (.noAttribute v.kind "replace")

/-- The reformatter of a run: the command that is set, or none. -/
def reformatter (o : Options) (host : Command.Host) :
    Except ReformatterError Ruby.Reformatter :=
  match o.value? .reformatter with
  | none => .ok Ruby.passThrough
  | some (.string line) => (Command.reformatterOfLine host line).mapError .command
  | some v =>
    if !v.isGiven then .ok Ruby.passThrough
    else
      match items v with
      | .error e => .error (.mismatch e)
      | .ok vs => ((commandWords vs).map (Command.reformatter host)).mapError .mismatch

end Options

end ErbLayout
