import ErbLayout.Ignore.Rules
/-!
What a search keeps: names to include, directories to exclude, and a limit on the size of files.
-/

namespace ErbLayout.Discovery

open Ignore (Rules PatternError)

def defaultIncludes : List (List Char) := ["*.erb".toList]

/-- Directories that hold no templates worth a layout. -/
def defaultExcludes : List (List Char) :=
  [".git/", ".hg/", ".svn/", ".bundle/", ".venv/", "__pycache__/", "node_modules/", "vendor/",
    "tmp/", "log/", "coverage/", "public/assets/", "public/packs/", "build/", "dist/", ".idea/",
    ".vscode/"].map String.toList

/-- The patterns and limits of a search as they are set. Patterns to exclude take the place of the
default ones; a limit of zero is none. -/
structure Filters where
  include_ : List (List Char) := defaultIncludes
  extendInclude : List (List Char) := []
  exclude : Option (List (List Char)) := none
  extendExclude : List (List Char) := []
  respectGitignore : Bool := true
  forceExclude : Bool := false
  maxSize : Int := 1048576
  deriving DecidableEq, Repr

namespace Filters

def includePatterns (f : Filters) : List (List Char) := f.include_ ++ f.extendInclude

def excludePatterns (f : Filters) : List (List Char) :=
  f.exclude.getD defaultExcludes ++ f.extendExclude

end Filters

/-- A search that is ready to run. -/
structure Finder where
  include_ : Rules
  exclude : Rules
  respectGitignore : Bool
  forceExclude : Bool
  maxSize : Int
  deriving DecidableEq, Repr

def Finder.ofFilters (f : Filters) : Except PatternError Finder := do
  let include_ ← Rules.ofLines f.includePatterns
  let exclude ← Rules.ofLines f.excludePatterns
  return ⟨include_, exclude, f.respectGitignore, f.forceExclude, f.maxSize⟩

end ErbLayout.Discovery
