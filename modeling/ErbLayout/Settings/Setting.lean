import ErbLayout.Discovery.Filters
import ErbLayout.Toml.Value
/-!
The settings that a config file or the arguments of a run may give. A config file may give them
values of any kind; what a run needs of them is read when it is needed.
-/

namespace ErbLayout

inductive Setting where
  | width
  | reformatter
  | include_
  | extendInclude
  | exclude
  | extendExclude
  | filesMaxSize
  | respectGitignore
  | forceExclude
  deriving DecidableEq, Repr

namespace Setting

open Toml (Value)

def all : List Setting :=
  [.width, .reformatter, .include_, .extendInclude, .exclude, .extendExclude, .filesMaxSize,
    .respectGitignore, .forceExclude]

theorem mem_all (s : Setting) : s ∈ all := by cases s <;> decide

def name : Setting → String
  | .width => "width"
  | .reformatter => "reformatter"
  | .include_ => "include"
  | .extendInclude => "extend_include"
  | .exclude => "exclude"
  | .extendExclude => "extend_exclude"
  | .filesMaxSize => "files_max_size"
  | .respectGitignore => "respect_gitignore"
  | .forceExclude => "force_exclude"

/-- The setting of a key, in which hyphens stand for underscores. -/
def ofKey? (k : Toml.Key) : Option Setting :=
  let k := k.map fun c => if c == '-' then '_' else c
  all.find? fun s => s.name.toList == k

def texts (ts : List (List Char)) : Value := .array (ts.map .string)

def defaultWidth : Int := 80

/-- The value of a setting that nothing gives. -/
def default? : Setting → Option Value
  | .width => some (.integer defaultWidth)
  | .reformatter => none
  | .include_ => some (texts Discovery.defaultIncludes)
  | .extendInclude => some (.array [])
  | .exclude => none
  | .extendExclude => some (.array [])
  | .filesMaxSize => some (.integer 1048576)
  | .respectGitignore => some (.boolean true)
  | .forceExclude => some (.boolean false)

theorem ofKey?_name (s : Setting) : ofKey? s.name.toList = some s := by cases s <;> decide

end Setting

/-- A value of a kind that cannot be used as it has to be. -/
inductive Mismatch where
  | noAttribute (kind field : String)
  | notIterable (kind : String)
  | operands (sign left right : String)
  | joined (left right : String)
  | notOrdered (left right : String)
  | notText (shown : List Char)
  deriving DecidableEq, Repr

namespace Mismatch

def message : Mismatch → List Char
  | .noAttribute k a =>
    '\'' :: k.toList ++ "' object has no attribute '".toList ++ a.toList ++ ['\'']
  | .notIterable k => '\'' :: k.toList ++ "' object is not iterable".toList
  | .operands o l r =>
    "unsupported operand type(s) for ".toList ++ o.toList ++ ": '".toList ++ l.toList ++
      "' and '".toList ++ r.toList ++ ['\'']
  | .joined l r =>
    "can only concatenate ".toList ++ l.toList ++ " (not \"".toList ++ r.toList ++
      "\") to ".toList ++ l.toList
  | .notOrdered l r =>
    "'>' not supported between instances of '".toList ++ l.toList ++ "' and '".toList ++
      r.toList ++ ['\'']
  | .notText s => "pattern:".toList ++ s ++ " is not a unicode or byte string.".toList

end Mismatch

end ErbLayout
