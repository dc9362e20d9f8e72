import ErbLayout.Command.Words
import ErbLayout.Ruby.Fragment
/-!
Reformatting by a command: the code goes to its input and comes back from its output. Whatever
keeps the command from doing its work leaves the code as it is, with a warning.
-/

namespace ErbLayout.Command

open Text (Bytes)

/-- Why a command could not be started, or was stopped because it took too long. Of reasons other
than the first two there is the system's text. -/
inductive StartError where
  | notFound
  | notPermitted
  | other (text : List Char)
  deriving DecidableEq, Repr

def StartError.message (program : Word) : StartError → List Char
  | .notFound => "[Errno 2] No such file or directory: ".toList ++ Text.quoted program
  | .notPermitted => "[Errno 13] Permission denied: ".toList ++ Text.quoted program
  | .other text => text

/-- How a command ended. A negative status is the signal that ended it. -/
structure Exit where
  status : Int := 0
  output : Bytes := []
  errors : Bytes := []
  deriving DecidableEq, Repr

/-- What runs commands: it gets the words of one and its input. -/
abbrev Host := List Word → Bytes → Except StartError Exit

def widthField : List Char := ['{', 'w', 'i', 'd', 't', 'h', '}']

/-- A word with every width field replaced. -/
def fillWidthFrom (width : List Char) : Nat → Word → Word
  | _, [] => []
  | skip + 1, _ :: s => fillWidthFrom width skip s
  | 0, c :: s =>
    if widthField.isPrefixOf (c :: s) then width ++ fillWidthFrom width (widthField.length - 1) s
    else c :: fillWidthFrom width 0 s

def arguments (command : List Word) (width : Int) : List Word :=
  command.map (fillWidthFrom (toString width).toList 0)

/-- The code from what a command wrote, when it ended well and wrote anything. -/
def ofExit (program : Word) (code : List Char) (status : Int) (output errors : List Char) :
    List Char × Log :=
  if status != 0 then
    (code, Log.warning ("Reformatter ".toList ++ program ++ " exited with status ".toList ++
      (toString status).toList ++ [':', ' '] ++ Text.trim errors))
  else if Text.allBlank output then
    (code, Log.warning ("Reformatter ".toList ++ program ++ " produced no output".toList))
  else (output, [])

def reformatter (host : Host) (command : List Word) : Ruby.Reformatter := fun code width =>
  let args := arguments command width
  let program := args.headD []
  if args.any (·.contains '\x00') then { result := .error .nulArgument }
  else
    match host args (Text.encode code) with
    | .error e =>
      let warning := "Reformatter ".toList ++ program ++ " failed: ".toList ++ e.message program
      { result := .ok code, log := Log.warning warning }
    | .ok exit =>
      match Text.decode exit.output, Text.decode exit.errors with
      | .error e, _ => { result := .error (.undecodable e) }
      | .ok _, .error e => { result := .error (.undecodable e) }
      | .ok output, .ok errors =>
        let (code', log) := ofExit program code exit.status (Text.unifyNewlines output)
          (Text.unifyNewlines errors)
        { result := .ok code', log }

inductive CommandError where
  | empty
  | words (error : WordsError)
  deriving DecidableEq, Repr

def CommandError.message : CommandError → List Char
  | .empty => "Reformatter command must not be empty".toList
  | .words e => e.message

/-- The words of a command that is given as such. -/
def ofWords (ws : List Word) : Except CommandError (List Word) :=
  if ws.isEmpty then .error .empty else .ok ws

/-- The words of a command that is given as a line. -/
def ofLine (line : List Char) : Except CommandError (List Word) :=
  match split line with
  | .error e => .error (.words e)
  | .ok ws => ofWords ws

/-- The reformatter for a command line; an empty line asks for none. -/
def reformatterOfLine (host : Host) (line : List Char) : Except CommandError Ruby.Reformatter :=
  if line.isEmpty then .ok Ruby.passThrough else (ofLine line).map (reformatter host)

theorem arguments_length (command : List Word) (width : Int) :
    (arguments command width).length = command.length := by simp [arguments]

end ErbLayout.Command
