import ErbLayout.Files.Workspace
import ErbLayout.Log
import ErbLayout.Settings.Setting
import ErbLayout.Toml.Document
/-!
Config files: where they are looked for, and which settings they give. The nearest directory with a
config file wins, and in a directory the first of its names. A project file that other tools use too
counts only if it has a table for this one.
-/

namespace ErbLayout

open Files Text
open Toml (Table Value)

def toolName : List Char := "erbmark".toList

/-- The settings of a config file, in the order in which they were first given. -/
abbrev Config := List (Setting × Value)

namespace Config

/-- Why a config file gives no settings. -/
inductive Fault where
  | notFound (error : FileError)
  | undecodable (error : DecodeError)
  | notToml
  | mismatch (error : Mismatch)
  deriving DecidableEq, Repr

def Fault.message : Fault → List Char
  | .notFound e => e.message
  | .undecodable e => e.message
  | .notToml => "not a TOML document".toList
  | .mismatch e => e.message

def projectName : Name := "pyproject.toml".toList

/-- The names of config files, the first of which wins. -/
def names : List Name :=
  ['.' :: toolName ++ ".toml".toList, toolName ++ ".toml".toList, projectName]

def get? (c : Config) (s : Setting) : Option Value := List.lookup s c

def set (c : Config) (s : Setting) (v : Value) : Config :=
  match c with
  | [] => [(s, v)]
  | e :: es => if e.1 = s then (s, v) :: es else e :: set es s v

/-- What the project file of a document's table gives to this tool. -/
def toolEntry (t : Table) : Except Fault (Option Value) :=
  match t.get? "tool".toList with
  | none => .ok none
  | some (.table u) => .ok (Table.get? u toolName)
  | some v => .error (.mismatch (.noAttribute v.kind "get"))

/-- The entries of a table, with those of the tables in it in their place. -/
def flatten (t : Table) : Table :=
  t.foldl (fun flat (k, v) =>
    match v with
    | .table u => flat.update u
    | v => flat.set k v) []

/-- The settings that a table gives beside those in `c`, and a warning for each other key. -/
def ofTableFrom (file : List Char) (c : Config) : Table → Config × Log
  | [] => (c, [])
  | (k, v) :: es =>
    match Setting.ofKey? k with
    | some s => ofTableFrom file (c.set s v) es
    | none =>
      let (c, log) := ofTableFrom file c es
      (c, Log.warning ("Unknown key in ".toList ++ file ++ ':' :: ' ' :: k) ++ log)

def ofTable (file : List Char) (t : Table) : Config × Log := ofTableFrom file [] t

def shown (c : Config) : List Char :=
  Value.shown (.table (c.map fun (s, v) => (s.name.toList, v)))

def document (w : Workspace) (p : Pathname) : Except Fault Table :=
  match w.read p with
  | .error e => .error (.notFound e)
  | .ok content =>
    match decode content with
    | .error e => .error (.undecodable e)
    | .ok text =>
      match Toml.read (unifyNewlines text) with
      | none => .error .notToml
      | some t => .ok t

/-- The table of this tool in the config file at a path. -/
def table (w : Workspace) (p : Pathname) : Except Fault Table :=
  match document w p with
  | .error e => .error e
  | .ok t =>
    if p.name != projectName then .ok t
    else
      match toolEntry t with
      | .error e => .error e
      | .ok none => .ok []
      | .ok (some (.table u)) => .ok u
      | .ok (some v) =>
        if v.isGiven then .error (.mismatch (.noAttribute v.kind "items")) else .ok []

structure Loaded where
  result : Except Fault Config
  log : Log

def load (w : Workspace) (p : Pathname) : Loaded :=
  match table w p with
  | .error e => ⟨.error e, []⟩
  | .ok t =>
    let (c, log) := ofTable p.text (flatten t)
    ⟨.ok c, log ++ Log.debug ("loaded config from ".toList ++ p.text ++ ':' :: ' ' :: c.shown)⟩

/-- Whether a config file counts. A project file that cannot be read as a document is passed over;
other failures end the search. -/
inductive Candidate where
  | counts
  | passedOver (warning : Log)
  | failed (error : Fault)

def candidate (w : Workspace) (p : Pathname) : Candidate :=
  if !w.isFile p then .passedOver []
  else if p.name != projectName then .counts
  else
    let unreadable (e : Fault) : Candidate :=
      .passedOver (Log.warning ("Ignoring unreadable ".toList ++ p.text ++ ':' :: ' ' :: e.message))
    match document w p with
    | .error (.undecodable e) => .failed (.undecodable e)
    | .error e => unreadable e
    | .ok t =>
      match toolEntry t with
      | .error e => .failed e
      | .ok (some _) => .counts
      | .ok none => .passedOver []

/-- The places where a directory's config file is looked for, from the nearest on. -/
def places (l : Location) : List Pathname :=
  l.ancestors.flatMap fun d => names.map d.path.child

structure Search where
  result : Except Fault (Option Pathname)
  log : Log

def searchFrom (w : Workspace) : List Pathname → Search
  | [] => ⟨.ok none, []⟩
  | p :: ps =>
    match candidate w p with
    | .counts => ⟨.ok (some p), []⟩
    | .failed e => ⟨.error e, []⟩
    | .passedOver log =>
      let rest := searchFrom w ps
      { rest with log := log ++ rest.log }

/-- The config file for a directory. -/
def search (w : Workspace) (l : Location) : Search := searchFrom w (places l)

theorem get?_set (c : Config) (s r : Setting) (v : Value) :
    (c.set s v).get? r = if r = s then some v else c.get? r := by
  have miss {a b : Setting} (h : ¬ a = b) : (a == b) = false := beq_eq_false_iff_ne.2 h
  induction c with
  | nil => by_cases h : r = s <;> simp [set, get?, List.lookup_cons, h, miss]
  | cons e es ih =>
    obtain ⟨t, u⟩ := e
    rw [set]
    split
    · rename_i h
      have h : t = s := h
      subst h
      by_cases hr : r = t <;> simp [get?, List.lookup_cons, hr, miss]
    · rename_i h
      have h : ¬ t = s := h
      simp only [get?, List.lookup_cons] at ih ⊢
      by_cases hr : r = t
      · subst hr
        simp [h]
      · simp [miss hr, ih]

end Config

end ErbLayout
