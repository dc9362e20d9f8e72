import ErbLayout.Discovery.Filters
import ErbLayout.Discovery.Glob
import ErbLayout.Log
import ErbLayout.Text.Utf8
/-!
The search for templates. A file is taken as it is named, a directory is walked, and a path with
wildcards is expanded; a walk does not enter directories that are excluded or ignored.
-/

namespace ErbLayout.Discovery

open Files Ignore Text

/-- Why a search came to no end. -/
inductive FindError where
  | pathNotFound (path : List Char)
  | undecodable (error : DecodeError)
  | pattern (error : PatternError)
  | glob (error : GlobError)
  | linkLoop (loop : LinkLoop)
  deriving DecidableEq, Repr

def FindError.message : FindError → List Char
  | .pathNotFound p => "Path not found: ".toList ++ p
  | .undecodable e => e.message
  | .pattern e => e.message
  | .glob e => e.message
  | .linkLoop e => e.message

/-- What a search comes upon, one after another: a template, a file above the limit, or a failure,
which ends it. -/
inductive Step where
  | found (location : Location)
  | tooLarge (path : Pathname) (size : Nat)
  | failed (error : FindError)
  deriving DecidableEq, Repr

/-- The rules of an ignore file, and the directory in which it stands. -/
structure IgnoreFile where
  rules : Rules
  directory : Location
  deriving DecidableEq, Repr

def ignoreName : Name := ".erbmarkignore".toList

def gitignoreName : Name := ".gitignore".toList

/-- The ignore file at a path; nothing if there is no file, or no pattern in it. -/
def readIgnoreFile (w : Workspace) (p : Pathname) : Except FindError (Option Rules) :=
  match w.node? p with
  | some (.file content) =>
    match decode content with
    | .error e => .error (.undecodable e)
    | .ok text =>
      match Rules.ofText (unifyNewlines text) with
      | .error e => .error (.pattern e)
      | .ok rules => .ok rules
  | _ => .ok none

/-- The nearest file of the tool with patterns to ignore, in a directory or above it. -/
def findIgnoreFile? (w : Workspace) (directory : Location) : Option Location :=
  (directory.ancestors.find? fun l => w.isFile (l.path.child ignoreName)).map (· ++ [ignoreName])

/-- Whether an ignore file has a pattern for a location at or below its directory. -/
def IgnoreFile.ignores (f : IgnoreFile) (l : Location) (isDirectory : Bool) : Bool :=
  match f.directory.below? l with
  | none => false
  | some names =>
    let text := (Pathname.mk [] names).text
    f.rules.ignores (if isDirectory then text ++ ['/'] else text)

namespace Finder

/-- Whether a file is above the limit, if there is one. -/
def isTooLarge (f : Finder) (size : Nat) : Bool := f.maxSize != 0 && (size : Int) > f.maxSize

/-- A file that passes all filters but the limit. -/
def sized (f : Finder) (w : Workspace) (p : Pathname) : Step :=
  let size := match w.node? p with
    | some (.file content) => content.length
    | _ => 0
  if f.isTooLarge size && (w.node? p).isSome then .tooLarge p size
  else
    match w.resolve p with
    | .ok l => .found l
    | .error e => .failed (.linkLoop e)

/-- Whether a named file is excluded by its name or by that of a directory on its path. -/
def excludesNamed (f : Finder) (p : Pathname) : Bool :=
  f.exclude.ignores p.name || p.parts.dropLast.any fun n => f.exclude.ignores (n ++ ['/'])

def named (f : Finder) (w : Workspace) (p : Pathname) : List Step :=
  if f.forceExclude && f.excludesNamed p then [] else [f.sized w p]

/-- A directory that is walked: the path by which it was named, and where it is. -/
structure Walk where
  finder : Finder
  workspace : Workspace
  root : Pathname
  base : Location

namespace Walk

/-- The path of what lies below the root. -/
def path (k : Walk) (names : List Name) : Pathname := { k.root with names := k.root.names ++ names }

/-- Whether a directory below the root is not entered. -/
def skips (k : Walk) (files : List IgnoreFile) (names : List Name) : Bool :=
  k.finder.exclude.ignores (names.getLastD [] ++ ['/']) ||
    k.finder.exclude.ignores ((Pathname.mk [] names).text ++ ['/']) ||
    files.any fun f => f.ignores (k.base ++ names) true

/-- What the ignore file of a directory adds to those above it. -/
def ignoreFiles (k : Walk) (files : List IgnoreFile) (names : List Name) :
    Except FindError (List IgnoreFile) :=
  if !k.finder.respectGitignore then .ok files
  else
    match readIgnoreFile k.workspace ((Location.path (k.base ++ names)).child gitignoreName) with
    | .error e => .error e
    | .ok none => .ok files
    | .ok (some rules) => .ok (files ++ [⟨rules, k.base ++ names⟩])

/-- A file below the root that is not in a directory of the tree there. -/
def file (k : Walk) (files : List IgnoreFile) (names : List Name) : List Step :=
  if !k.finder.include_.ignores (names.getLastD []) then []
  else
    match k.workspace.resolve (k.path names) with
    | .error e => [.failed (.linkLoop e)]
    | .ok l =>
      if files.any fun f => f.ignores l false then []
      else [k.finder.sized k.workspace (k.path names)]

/-- The files that stand in a directory; a link to a directory is none. -/
def filesIn (k : Walk) (files : List IgnoreFile) (names : List Name) (es : Entries) : List Step :=
  es.flatMap fun (n, _) =>
    if k.workspace.isDirectory (k.path (names ++ [n])) then [] else k.file files (names ++ [n])

mutual

/-- The steps of a walk from a directory on, where `files` are the ignore files above it. -/
def steps (k : Walk) (files : List IgnoreFile) (names : List Name) : Node → List Step
  | .directory es =>
    match k.ignoreFiles files names with
    | .error e => [.failed e]
    | .ok files => k.filesIn files names es ++ stepsIn k files names es
  | _ => []

def stepsIn (k : Walk) (files : List IgnoreFile) (names : List Name) :
    List (Name × Node) → List Step
  | [] => []
  | (n, c) :: es =>
    (if k.skips files (names ++ [n]) then [] else steps k files (names ++ [n]) c) ++
      stepsIn k files names es

end

end Walk

/-- The nearest file of the tool at or above a directory, if it has a pattern. -/
def ownFiles (w : Workspace) (base : Location) : Except FindError (List IgnoreFile) :=
  match findIgnoreFile? w base with
  | none => .ok []
  | some l => (readIgnoreFile w l.path).map fun rules => rules.toList.map fun r => ⟨r, l.dropLast⟩

def walk (f : Finder) (w : Workspace) (p : Pathname) : List Step :=
  match w.resolve p with
  | .error e => [.failed (.linkLoop e)]
  | .ok base =>
    match ownFiles w base with
    | .error e => [.failed e]
    | .ok files =>
      match w.tree.get? base with
      | some n => Walk.steps ⟨f, w, p, base⟩ files [] n
      | none => []

def expand (f : Finder) (w : Workspace) (p : Pathname) : List Step :=
  match glob w p with
  | .error e => [.failed (.glob e)]
  | .ok ps =>
    (ps.filter fun q => w.isFile q && f.include_.ignores q.name).map (f.sized w)

/-- The steps for one path of those that are given. -/
def stepsOf (f : Finder) (w : Workspace) (raw : List Char) : List Step :=
  let p := Pathname.ofText raw
  if w.isFile p then f.named w p
  else if w.isDirectory p then f.walk w p
  else if hasGlobChars raw then f.expand w p
  else [.failed (.pathNotFound raw)]

end Finder

namespace Step

/-- What was found before the first failure, or that failure. -/
def settle : List Step → Except FindError (List Location)
  | [] => .ok []
  | .found l :: s => (settle s).map (l :: ·)
  | .tooLarge .. :: s => settle s
  | .failed e :: _ => .error e

/-- The entries for what was left out before the first failure. -/
def log (limit : Int) : List Step → Log
  | [] => []
  | .found _ :: s => log limit s
  | .tooLarge p size :: s =>
    Log.info ("Skipping ".toList ++ p.text ++ ": ".toList ++ (toString size).toList ++
      " bytes exceeds limit of ".toList ++ (toString limit).toList) ++ log limit s
  | .failed _ :: _ => []

end Step

structure Findings where
  result : Except FindError (List Location)
  log : Log

/-- What comes of a search for the given number of paths that took the given steps: the templates in
order, each once. -/
def Finder.findings (f : Finder) (paths : Nat) (steps : List Step) : Findings :=
  let log := Step.log f.maxSize steps
  match Step.settle steps with
  | .error e => ⟨.error e, log⟩
  | .ok ls =>
    let found := Location.sorted ls
    let note := "found ".toList ++ (toString found.length).toList ++ " templates in ".toList ++
      (toString paths).toList ++ " paths".toList
    ⟨.ok found, log ++ Log.debug note⟩

/-- The templates that the given paths lead to. -/
def Finder.find (f : Finder) (w : Workspace) (raws : List (List Char)) : Findings :=
  f.findings raws.length (raws.flatMap (f.stepsOf w))

end ErbLayout.Discovery
