import ErbLayout.Files.Workspace
import ErbLayout.Ruby.Syntax
import ErbLayout.Template.Format
/-!
The layout of files: each template is read, laid out, and written where the mode of the batch says.
Nothing is written for a template that has no layout, nor in place for one that has its layout
already.
-/

namespace ErbLayout.Batch

open Files Text

/-- The name that stands for the input and for the output of a run. -/
def marker : List Char := ['-']

def inputName : List Char := "(stdin)".toList

def backupSuffix : List Char := ".orig".toList

/-- What becomes of the layouts of a batch. -/
structure Mode where
  width : Int := 80
  output : List Char := marker
  inplace : Bool := false
  nobackup : Bool := false
  check : Bool := false
  makeParents : Bool := true
  checker : Ruby.Checker := Ruby.isComplete
  reformatter : Ruby.Reformatter := Ruby.passThrough

/-- Where a batch stands: the files, what is left of the input, and what has been written to the
output and the log. -/
structure Session where
  workspace : Workspace
  input : Bytes := []
  names : Placeholder.Names
  output : List Char := []
  log : Log := []

inductive Problem where
  | inputInplace
  | severalToOne
  | file (error : FileError)
  | undecodable (error : DecodeError)
  | template (failure : Template.Failure)
  deriving DecidableEq, Repr

def Problem.message : Problem → List Char
  | .inputInplace => "Cannot use --inplace with stdin".toList
  | .severalToOne => "Cannot write several files to a single --output file".toList
  | .file e => e.message
  | .undecodable e => e.message
  | .template f => f.message

/-- A template with the name by which its faults are reported. -/
structure Source where
  filename : List Char
  text : List Char
  deriving DecidableEq, Repr

namespace Session

def note (s : Session) (log : Log) : Session := { s with log := s.log ++ log }

/-- The text of bytes, line ends unified. -/
def textOf (content : Bytes) : Except Problem (List Char) :=
  match decode content with
  | .ok text => .ok (unifyNewlines text)
  | .error e => .error (.undecodable e)

/-- Reads what a path names. The input is empty after it has been read. -/
def read (s : Session) (path : List Char) : Except Problem Source × Session :=
  if path == marker then
    ((textOf s.input).map fun text => ⟨inputName, text⟩, { s with input := [] })
  else
    match s.workspace.read (Pathname.ofText path) with
    | .error e => (.error (.file e), s)
    | .ok content => ((textOf content).map fun text => ⟨path, text⟩, s)

/-- Puts a text in the place of a file. -/
def write (s : Session) (m : Mode) (path text : List Char) (backup : Option (List Char)) :
    Except Problem Session :=
  match s.workspace.replace (Pathname.ofText path) (encode text) backup m.makeParents with
  | .ok w => .ok { s with workspace := w }
  | .error e => .error (.file e)

end Session

namespace Mode

def style (m : Mode) (filename : List Char) : Template.Style :=
  { width := m.width, filename, checker := m.checker, reformatter := m.reformatter }

/-- Writes the layout of a source. -/
def deliver (m : Mode) (s : Session) (path : List Char) (source : Source) (layout : List Char) :
    Except Problem Session :=
  let changed := layout != source.text
  let say (level : Level) (what : String) (s : Session) : Session :=
    s.note [⟨level, what.toList ++ ' ' :: source.filename⟩]
  if m.check then
    let finding := if changed then "would reformat" else "already formatted"
    .ok (s.note (Log.debug (source.filename ++ ':' :: ' ' :: finding.toList)))
  else if m.inplace then
    if changed then
      (s.write m path layout (if m.nobackup then none else some backupSuffix)).map
        (say .info "Reformatted")
    else .ok (say .debug "Unchanged" s)
  else if m.output == marker then .ok { s with output := s.output ++ layout }
  else s.write m m.output layout none

/-- Lays out a source, and tells whether that changes it. -/
def layOut (m : Mode) (s : Session) (path : List Char) (source : Source) :
    Except Problem Bool × Session :=
  let r := Template.report (m.style source.filename) s.names source.text
  let s := { s.note r.log with names := r.names }
  match r.result with
  | .error f => (.error (.template f), s)
  | .ok layout =>
    match m.deliver s path source layout with
    | .error e => (.error e, s)
    | .ok s => (.ok (layout != source.text), s)

/-- Lays out one file, or the input. -/
def runFile (m : Mode) (s : Session) (path : List Char) : Except Problem Bool × Session :=
  if path == marker && m.inplace then (.error .inputInplace, s)
  else
    match s.read path with
    | (.error e, s) => (.error e, s)
    | (.ok source, s) => m.layOut s path source

/-- Whether the layouts of several files would go to one file. -/
def collides (m : Mode) (paths : List (List Char)) : Bool :=
  paths.length > 1 && !(m.inplace || m.check) && m.output != marker

def runEach (m : Mode) (s : Session) :
    List (List Char) → Except Problem (List (List Char)) × Session
  | [] => (.ok [], s)
  | path :: paths =>
    match m.runFile s path with
    | (.error e, s) => (.error e, s)
    | (.ok changed, s) =>
      let (rest, s) := runEach m s paths
      (rest.map fun ps => if changed then path :: ps else ps, s)

/-- Lays out files up to the first problem, and gives those that it changes. -/
def run (m : Mode) (s : Session) (paths : List (List Char)) :
    Except Problem (List (List Char)) × Session :=
  if m.collides paths then (.error .severalToOne, s) else m.runEach s paths

end Mode

end ErbLayout.Batch
