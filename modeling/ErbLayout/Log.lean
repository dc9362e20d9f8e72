/-!
Log entries, in the order in which a run makes them.
-/

namespace ErbLayout

inductive Level where
  | debug
  | info
  | warning
  deriving DecidableEq, Repr

def Level.name : Level → String
  | .debug => "DEBUG"
  | .info => "INFO"
  | .warning => "WARNING"

structure Entry where
  level : Level
  text : List Char
  deriving DecidableEq, Repr

abbrev Log := List Entry

namespace Log

def debug (text : List Char) : Log := [⟨.debug, text⟩]

def info (text : List Char) : Log := [⟨.info, text⟩]

def warning (text : List Char) : Log := [⟨.warning, text⟩]

/-- The entries that a run shows: the warnings, or all of them when it is verbose. -/
def shown (log : Log) (verbose : Bool) : Log := log.filter fun e => verbose || e.level == .warning

theorem shown_append (a b : Log) (v : Bool) : shown (a ++ b) v = shown a v ++ shown b v := by
  simp [shown]

end Log

end ErbLayout
