import ErbLayout.Discovery.Find
/-!
A finder at work. It reads the `.gitignore` file of a directory once, and keeps what it has read
over all of its searches, also where one of them fails.
-/

namespace ErbLayout.Discovery

open Files Ignore

/-- The rules of the `.gitignore` files that have been read, by the directory in which each stands;
nothing, where there is no such file, or no pattern in it. -/
abbrev Memory := List (Location × Option Rules)

structure Progress where
  memory : Memory
  steps : List Step

abbrev Search := EStateM FindError Progress

namespace Search

def report : Step → Search Unit
  | .failed e => throw e
  | s => modify fun p => { p with steps := p.steps ++ [s] }

def resolve (w : Workspace) (p : Pathname) : Search Location :=
  match w.resolve p with
  | .ok l => pure l
  | .error e => throw (.linkLoop e)

/-- The `.gitignore` file of a directory, which is read unless it has been read before. -/
def gitignore (w : Workspace) (directory : Pathname) : Search (List IgnoreFile) := do
  let key ← resolve w directory
  match (← get).memory.lookup key with
  | some rules => pure (rules.toList.map fun r => ⟨r, key⟩)
  | none =>
    let rules ← ofExcept (readIgnoreFile w (directory.child gitignoreName))
    modify fun p => { p with memory := (key, rules) :: p.memory }
    pure (rules.toList.map fun r => ⟨r, key⟩)

def gitignoresFrom (w : Workspace) (directory : Pathname) : List Name → Search (List IgnoreFile)
  | [] => gitignore w directory
  | n :: names => do
    let outer ← gitignore w directory
    let inner ← gitignoresFrom w (directory.child n) names
    pure (outer ++ inner)

end Search

namespace Finder

namespace Walk

def gitignores (k : Walk) (names : List Name) : Search (List IgnoreFile) :=
  if k.finder.respectGitignore then Search.gitignoresFrom k.workspace k.root names else pure []

mutual

/-- A walk from a directory on, where `own` is the ignore file of the tool. -/
def search (k : Walk) (own : List IgnoreFile) (names : List Name) : Node → Search Unit
  | .directory es => do
    let outer ← k.gitignores names
    (k.filesIn (outer ++ own) names es).forM Search.report
    searchIn k own (outer ++ own) names es
  | _ => pure ()

def searchIn (k : Walk) (own files : List IgnoreFile) (names : List Name) :
    List (Name × Node) → Search Unit
  | [] => pure ()
  | (n, c) :: es => do
    if k.skips files (names ++ [n]) then pure () else search k own (names ++ [n]) c
    searchIn k own files names es

end

end Walk

def searchDirectory (f : Finder) (w : Workspace) (p : Pathname) : Search Unit := do
  let base ← Search.resolve w p
  let own ← ofExcept (ownFiles w base)
  match w.tree.get? base with
  | some n => Walk.search ⟨f, w, p, base⟩ own [] n
  | none => pure ()

/-- The search for one path of those that are given. -/
def search (f : Finder) (w : Workspace) (raw : List Char) : Search Unit :=
  let p := Pathname.ofText raw
  if w.isFile p then (f.named w p).forM Search.report
  else if w.isDirectory p then f.searchDirectory w p
  else if hasGlobChars raw then (f.expand w p).forM Search.report
  else throw (.pathNotFound raw)

/-- What comes of a search that has ended, and what has been read by then. -/
def ended (f : Finder) (paths : Nat) : EStateM.Result FindError Progress Unit → Findings × Memory
  | .ok _ p => (f.findings paths p.steps, p.memory)
  | .error e p => (f.findings paths (p.steps ++ [.failed e]), p.memory)

/-- One search of a finder that has read some files before. -/
def call (f : Finder) (w : Workspace) (memory : Memory) (raws : List (List Char)) :
    Findings × Memory :=
  f.ended raws.length ((raws.forM (f.search w)).run ⟨memory, []⟩)

def calls (f : Finder) (w : Workspace) : Memory → List (List (List Char)) → List Findings
  | _, [] => []
  | memory, raws :: rest =>
    let (findings, memory) := f.call w memory raws
    findings :: calls f w memory rest

end Finder

end ErbLayout.Discovery
