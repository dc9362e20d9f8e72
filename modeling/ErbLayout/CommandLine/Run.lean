import ErbLayout.CommandLine.Parse
import ErbLayout.Discovery.Find
/-!
A run of the command line: its arguments and a config file give its options, the operands give the
templates, and each template is laid out. The status says whether all went well, some template
failed or would change, or the run could not be done.
-/

namespace ErbLayout.CommandLine

open Files Text

def versionText : List Char := "v0.1.0".toList

def noInput : List Char :=
  ("Error: No input specified. Provide files, directories (use '.' for current directory), or " ++
    "'-' for stdin. Use --help for more options.").toList

def statusOk : Nat := 0

def statusFailed : Nat := 1

def statusError : Nat := 2

/-- A failure that a run does not answer with a status. -/
inductive RunError where
  | config (fault : Config.Fault)
  | mismatch (error : Mismatch)
  | find (error : Discovery.FindError)
  | reformatter (error : Options.ReformatterError)
  deriving DecidableEq, Repr

def RunError.message : RunError → List Char
  | .config e => e.message
  | .mismatch e => e.message
  | .find e => e.message
  | .reformatter e => e.message

inductive Ending where
  | status (code : Nat)
  | refused (refusal : Refusal)
  | failed (error : RunError)
  deriving DecidableEq, Repr

/-- What surrounds a run: its files and input, the names for placeholders and the commands. -/
structure World where
  workspace : Workspace
  input : Bytes := []
  names : Placeholder.Names
  host : Command.Host

/-- What a run leaves behind. -/
structure Outcome where
  ending : Ending
  workspace : Workspace
  output : List Char := []
  errors : List Char := []

def lineOf (text : List Char) : List Char := text ++ ['\n']

def errorLine (message : List Char) : List Char := lineOf ("Error: ".toList ++ message)

def Entry.line (e : Entry) : List Char :=
  lineOf ('[' :: e.level.name.toList ++ ']' :: ' ' :: e.text)

/-- The lines of a log that a run shows. -/
def logLines (verbose : Bool) (log : Log) : List Char := (log.shown verbose).flatMap Entry.line

/-- The options with the settings of the config file for the directory of the run. -/
structure Configured where
  result : Except Config.Fault Options
  log : Log

def configure (w : Workspace) (o : Options) : Configured :=
  let search := Config.search w w.location
  match search.result with
  | .error e => ⟨.error e, search.log⟩
  | .ok none => ⟨.ok o, search.log⟩
  | .ok (some p) =>
    let loaded := Config.load w p
    ⟨loaded.result.map o.withConfig,
      search.log ++ Log.debug ("using config file ".toList ++ p.text) ++ loaded.log⟩

/-- Whether an operand names more than itself. -/
def isSearch (w : Workspace) (file : List Char) : Bool :=
  file != Batch.marker &&
    (w.isDirectory (Pathname.ofText file) || Discovery.hasGlobChars file)

/-- The templates of a run. -/
structure Resolved where
  result : Except RunError (List (List Char))
  log : Log := []

/-- The templates that the operands lead to: they are searched for as soon as one of them names more
than itself, or only a list is wanted. -/
def resolveFiles (w : Workspace) (o : Options) : Resolved :=
  if !o.listFiles && !o.files.any (isSearch w) then { result := .ok o.files }
  else
    match o.filters with
    | .error e => { result := .error (.mismatch e) }
    | .ok filters =>
      match Discovery.Finder.ofFilters filters with
      | .error e => { result := .error (.find (.pattern e)) }
      | .ok finder =>
        let paths := o.files.filter (· != Batch.marker)
        let findings := finder.find w paths
        match findings.result with
        | .error e => { result := .error (.find e), log := findings.log }
        | .ok ls =>
          let found := ls.map Location.text
          let found := if paths.length < o.files.length then Batch.marker :: found else found
          { result := .ok found, log := findings.log }

/-- Where a run stands among its templates. -/
structure Progress where
  session : Batch.Session
  errors : List Char := []
  failed : Bool := false
  changed : List (List Char) := []

namespace Progress

def say (p : Progress) (text : List Char) : Progress := { p with errors := p.errors ++ text }

/-- Shows what the session has logged. -/
def flush (p : Progress) (verbose : Bool) : Progress :=
  { p.say (logLines verbose p.session.log) with session := { p.session with log := [] } }

/-- Lays out the templates one after another. A fault of a template is reported and does not keep
the others from their layout; any other problem ends the run. -/
def layOut (m : Batch.Mode) (verbose : Bool) : Progress → List (List Char) → Progress × Bool
  | p, [] => (p, true)
  | p, path :: paths =>
    let (result, session) := m.runFile p.session path
    let p := flush { p with session } verbose
    match result with
    | .ok true => layOut m verbose { p with changed := p.changed ++ [path] } paths
    | .ok false => layOut m verbose p paths
    | .error (.template (.fault f)) =>
      let report := if verbose then f.diagnostics else f.text
      layOut m verbose { p.say (lineOf report) with failed := true } paths
    | .error e => (p.say (errorLine e.message), false)

/-- What a run leaves behind after its last template, or after a problem. -/
def outcome (p : Progress) (check completed : Bool) : Outcome :=
  let hint := "Would reformat ".toList
  let p := if completed && check then p.say (p.changed.flatMap fun f => lineOf (hint ++ f)) else p
  let code :=
    if !completed then statusError
    else if p.failed || (check && !p.changed.isEmpty) then statusFailed
    else statusOk
  ⟨.status code, p.session.workspace, p.session.output, p.errors⟩

end Progress

namespace World

/-- The run leaves nothing but what it says. -/
def stop (world : World) (ending : Ending) (output errors : List Char) : Outcome :=
  ⟨ending, world.workspace, output, errors⟩

/-- Lays out the templates of a run, after `shown` has been said. -/
def layOut (world : World) (o : Options) (files : List (List Char)) (shown : List Char) : Outcome :=
  match o.reformatter world.host with
  | .error e => world.stop (.failed (.reformatter e)) [] shown
  | .ok reformatter =>
    match o.width with
    | .error e =>
      if files.isEmpty then world.stop (.status statusOk) [] shown
      else world.stop (.failed (.mismatch e)) [] shown
    | .ok width =>
      let mode : Batch.Mode :=
        { width, output := o.output, inplace := o.inplace, nobackup := o.nobackup, check := o.check,
          reformatter }
      let session : Batch.Session :=
        { workspace := world.workspace, input := world.input, names := world.names }
      let (p, completed) :=
        Progress.layOut mode o.verbose { session, errors := shown } files
      p.outcome o.check completed

/-- Finds the templates of a run and lists them or lays them out. -/
def process (world : World) (o : Options) (shown : List Char) : Outcome :=
  let files := resolveFiles world.workspace o
  let shown := shown ++ logLines o.verbose files.log
  match files.result with
  | .error (.find (.pathNotFound p)) =>
    world.stop (.status statusError) []
      (shown ++ errorLine (Discovery.FindError.pathNotFound p).message)
  | .error e => world.stop (.failed e) [] shown
  | .ok files =>
    if o.listFiles then world.stop (.status statusOk) (files.flatMap lineOf) shown
    else if files.length > 1 && !(o.inplace || o.check) && o.output != Batch.marker then
      world.stop (.status statusError) [] (shown ++ errorLine Batch.Problem.severalToOne.message)
    else world.layOut o files shown

def runOptions (world : World) (o : Options) : Outcome :=
  if o.version then world.stop (.status statusOk) (lineOf versionText) []
  else if o.files.isEmpty then world.stop (.status statusError) [] (lineOf noInput)
  else
    let configured := configure world.workspace o
    let shown := logLines o.verbose configured.log
    match configured.result with
    | .error e => world.stop (.failed (.config e)) [] shown
    | .ok o => world.process o shown

/-- A run with the given arguments. -/
def run (world : World) (args : List Argument) : Outcome :=
  match parse args with
  | .error r => world.stop (.refused r) [] []
  | .ok o => world.runOptions o

end World

end ErbLayout.CommandLine
