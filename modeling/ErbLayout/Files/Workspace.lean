import ErbLayout.Files.Node
import ErbLayout.Text.Quoted
/-!
A tree of files with the directory in which a run stands: paths are looked up in it, links on their
way followed, and files are read and replaced. A replacement is one step: the file is there with
its old content or with its new one.
-/

namespace ErbLayout.Files

open Text (Bytes)

structure Workspace where
  tree : Node
  location : Location := []

inductive FileError.Cause where
  | notFound
  | exists_
  | notDirectory
  | isDirectory
  | linkLoop
  | nulByte
  deriving DecidableEq, Repr

/-- What kept a path from being used. -/
structure FileError where
  cause : FileError.Cause
  path : List Char
  deriving DecidableEq, Repr

def FileError.message (e : FileError) : List Char :=
  let numbered (number : String) : List Char := number.toList ++ ':' :: ' ' :: Text.quoted e.path
  match e.cause with
  | .notFound => numbered "[Errno 2] No such file or directory"
  | .exists_ => numbered "[Errno 17] File exists"
  | .notDirectory => numbered "[Errno 20] Not a directory"
  | .isDirectory => numbered "[Errno 21] Is a directory"
  | .linkLoop => numbered "[Errno 40] Too many levels of symbolic links"
  | .nulByte => "embedded null byte".toList

/-- Links that lead to themselves, and the path at which that shows. -/
structure LinkLoop where
  location : Location
  deriving DecidableEq, Repr

def LinkLoop.message (e : LinkLoop) : List Char :=
  "Symlink loop from ".toList ++ Text.quoted e.location.text

namespace Node

/-- Follows names from a location on, through directories only. -/
def walk (root : Node) (follow : Location → List Char → Except FileError.Cause Location)
    (followLast : Bool) : Location → List Name → Except FileError.Cause Location
  | l, [] => .ok l
  | l, name :: names =>
    if !((root.get? l).any isDirectory) then .error .notDirectory
    else if name = up then walk root follow followLast l.dropLast names
    else
      match root.get? (l ++ [name]) with
      | none => .error .notFound
      | some (.link target) =>
        if names.isEmpty && !followLast then .ok (l ++ [name])
        else
          match follow l target with
          | .ok l => walk root follow followLast l names
          | .error e => .error e
      | some _ => walk root follow followLast (l ++ [name]) names

def origin (l : Location) (p : Pathname) : Location := if p.isAbsolute then [] else l

/-- Where a link in the directory `l` leads; the first argument bounds the links in links. -/
def follow (root : Node) : Nat → Location → List Char → Except FileError.Cause Location
  | 0, _, _ => .error .linkLoop
  | n + 1, l, target =>
    let p := Pathname.ofText target
    walk root (follow root n) true (origin l p) p.names

/-- Follows names, whether anything stands there or not. -/
def realNames (root : Node) (follow : Location → List Char → Except Location Location) :
    Location → List Name → Except Location Location
  | l, [] => .ok l
  | l, name :: names =>
    if name = up then realNames root follow l.dropLast names
    else
      match root.get? (l ++ [name]) with
      | some (.link target) =>
        match follow (l ++ [name]) target with
        | .ok l => realNames root follow l names
        | .error m => .error (m ++ names)
      | _ => realNames root follow (l ++ [name]) names

/-- Where the link at `l` leads when those in `visiting` are being followed. -/
def realLink (root : Node) :
    Nat → List Location → Location → List Char → Except Location Location
  | 0, _, l, _ => .error l
  | n + 1, visiting, l, target =>
    if visiting.contains l then .error l
    else
      let p := Pathname.ofText target
      realNames root (realLink root n (l :: visiting)) (origin l.dropLast p) p.names

end Node

namespace Workspace

/-- How many links may lead to one another on one way. -/
def maxLinks : Nat := 40

def locate (w : Workspace) (p : Pathname) (followLast : Bool) :
    Except FileError.Cause Location :=
  if p.names.any (·.contains '\x00') then .error .nulByte
  else
    w.tree.walk (w.tree.follow maxLinks) followLast (Node.origin w.location p) p.names

def node? (w : Workspace) (p : Pathname) : Option Node :=
  match w.locate p true with
  | .ok l => w.tree.get? l
  | .error _ => none

def isFile (w : Workspace) (p : Pathname) : Bool := (w.node? p).any Node.isFile

def isDirectory (w : Workspace) (p : Pathname) : Bool := (w.node? p).any Node.isDirectory

/-- The location that a path names, all links followed. -/
def resolve (w : Workspace) (p : Pathname) : Except LinkLoop Location :=
  let follow := w.tree.realLink (w.tree.linkCount + 1) []
  match w.tree.realNames follow (Node.origin w.location p) p.names with
  | .ok l => .ok l
  | .error l => .error ⟨l⟩

def read (w : Workspace) (p : Pathname) : Except FileError Bytes :=
  match w.locate p true with
  | .error c => .error ⟨c, p.text⟩
  | .ok l =>
    match w.tree.get? l with
    | some (.file content) => .ok content
    | some _ => .error ⟨.isDirectory, p.text⟩
    | none => .error ⟨.notFound, p.text⟩

/-- Makes one directory in a directory that is there. -/
def makeDirectory (w : Workspace) (p : Pathname) : Except FileError Workspace :=
  match w.locate p false with
  | .ok _ => .error ⟨.exists_, p.text⟩
  | .error .notFound =>
    match w.locate p.parent true with
    | .ok l =>
      if p.name = up then .error ⟨.notFound, p.text⟩
      else .ok { w with tree := w.tree.put (l ++ [p.name]) (.directory []) }
    | .error c => .error ⟨c, p.text⟩
  | .error c => .error ⟨c, p.text⟩

/-- Makes the directory whose names are given from the last one on, and those above it. -/
def makeDirectoriesFrom (root : List Char) : List Name → Workspace → Except FileError Workspace
  | [], w => .ok w
  | name :: names, w =>
    let p : Pathname := ⟨root, (name :: names).reverse⟩
    match w.makeDirectory p with
    | .ok w => .ok w
    | .error e =>
      if e.cause = .notFound && !names.isEmpty then do
        (← makeDirectoriesFrom root names w).makeDirectory p
      else if w.isDirectory p then .ok w
      else .error e

def makeDirectories (w : Workspace) (p : Pathname) : Except FileError Workspace :=
  makeDirectoriesFrom p.root p.names.reverse w

/-- What is written before it takes its place has this at the end of its name. -/
def partialSuffix : List Char := ".partial".toList

/-- Puts a file with the given content in the place of what a path names. What stood there gets the
backup suffix at the end of its name, if there is one. -/
def replace (w : Workspace) (p : Pathname) (content : Bytes) (backup : Option (List Char))
    (makeParents : Bool) : Except FileError Workspace := do
  let w ← if makeParents then w.makeDirectories p.parent else .ok w
  match w.locate p.parent true with
  | .error c => .error ⟨c, p.text ++ partialSuffix⟩
  | .ok l =>
    if !((w.tree.get? l).any Node.isDirectory) then
      .error ⟨.notDirectory, p.text ++ partialSuffix⟩
    else if p.names.isEmpty || p.name = up then .error ⟨.isDirectory, p.text⟩
    else
      let place := l ++ [p.name]
      let tree :=
        match backup, w.tree.get? place with
        | some suffix, some old => w.tree.put (l ++ [p.name ++ suffix]) old
        | _, _ => w.tree
      .ok { w with tree := tree.put place (.file content) }

end Workspace

end ErbLayout.Files
