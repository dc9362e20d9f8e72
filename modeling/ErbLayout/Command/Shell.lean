import ErbLayout.Command.Tool
/-!
Scripts: commands in sequence, joined by conditions and pipes, with their streams redirected. A
script and the tools make a host that runs commands without other programs.
-/

namespace ErbLayout.Command

open Text (Bytes)

inductive Token where
  | word (w : Word)
  | operator (s : List Char)
  deriving DecidableEq, Repr

/-- The operators of scripts, the longest first where one begins another. -/
def scriptOperators : List (List Char) :=
  ["2>&1", "1>&2", ">&2", ">&1", "2>>", "2>", "1>", "&&", "||", ">>", ">", "<", ";", "|", "\n",
    "&"].map String.toList

def finishWord (word : Option Word) (rest : List Token) : List Token :=
  match word with
  | some w => .word w.reverse :: rest
  | none => rest

/-- The tokens of a script, where `word`, read backwards, has been seen of the current one. A word
may be empty when it has quotes. -/
def tokensFrom : Nat → Option Word → List Char → Option (List Token)
  | 0, _, _ => none
  | _, word, [] => some (finishWord word [])
  | fuel + 1, word, c :: s =>
    let add (cs : List Char) : Option Word := some (cs.reverse ++ word.getD [])
    let operator? := scriptOperators.find? fun op =>
      op.isPrefixOf (c :: s) && (word.isNone || !(op.head?.any fun d => '0' ≤ d && d ≤ '9'))
    match operator? with
    | some op =>
      (tokensFrom fuel none ((c :: s).drop op.length)).map fun ts =>
        finishWord word (.operator op :: ts)
    | none =>
      if c == ' ' || c == '\t' then (tokensFrom fuel none s).map (finishWord word)
      else if c == '#' && word.isNone then tokensFrom fuel none (s.dropWhile (· != '\n'))
      else if c == '\\' then
        match s with
        | [] => tokensFrom fuel (add ['\\']) []
        | '\n' :: t => tokensFrom fuel word t
        | d :: t => tokensFrom fuel (add [d]) t
      else if c == '\'' then
        match s.span (· != '\'') with
        | (q, _ :: t) => tokensFrom fuel (add q) t
        | _ => none
      else if c == '"' then (doubleQuoted s).bind fun (q, t) => tokensFrom fuel (add q) t
      else tokensFrom fuel (add [c]) s
where
  /-- The text up to a double quote, in which a backslash guards few characters. -/
  doubleQuoted : List Char → Option (List Char × List Char)
    | [] => none
    | '"' :: s => some ([], s)
    | '\\' :: c :: s =>
      (doubleQuoted s).map fun (q, t) =>
        if c == '"' || c == '\\' || c == '$' || c == '`' then (c :: q, t)
        else if c == '\n' then (q, t)
        else ('\\' :: c :: q, t)
    | c :: s => (doubleQuoted s).map fun (q, t) => (c :: q, t)

/-- Where a stream of a command goes. -/
inductive Sink where
  | output
  | errors
  | nowhere
  deriving DecidableEq, Repr

/-- A command with its streams. Without `inherits` it reads nothing. -/
structure Simple where
  words : List Word := []
  out : Sink := .output
  err : Sink := .errors
  inherits : Bool := true
  deriving DecidableEq, Repr

/-- The first command of the tokens, and the tokens from the operator after it on. -/
def readSimple (cmd : Simple) : List Token → Simple × List Token
  | .word w :: ts => readSimple { cmd with words := cmd.words ++ [w] } ts
  | .operator op :: ts =>
    let reads (s : String) : Bool := op == s.toList
    if reads ">&2" || reads "1>&2" then readSimple { cmd with out := cmd.err } ts
    else if reads "2>&1" then readSimple { cmd with err := cmd.out } ts
    else if reads ">&1" then readSimple cmd ts
    else
      match ts with
      | .word _ :: us =>
        if reads ">" || reads "1>" || reads ">>" then readSimple { cmd with out := .nowhere } us
        else if reads "2>" || reads "2>>" then readSimple { cmd with err := .nowhere } us
        else if reads "<" then readSimple { cmd with inherits := false } us
        else (cmd, .operator op :: ts)
      | _ => (cmd, .operator op :: ts)
  | [] => (cmd, [])

/-- The state of a script: the input that is left, what was written, the last status, and whether
the script has come to its end. -/
structure Session where
  input : Bytes
  exit : Exit := {}
  ended : Bool := false
  deriving DecidableEq, Repr

/-- A number in decimal digits. -/
def number? (w : Word) : Option Nat :=
  if w.isEmpty || !w.all (fun c => '0' ≤ c && c ≤ '9') then none
  else some (w.foldl (fun n c => 10 * n + (c.toNat - 48)) 0)

def signalNumber (w : Word) : Option Nat :=
  let names : List (String × Nat) :=
    [("KILL", 9), ("TERM", 15), ("INT", 2), ("HUP", 1), ("ABRT", 6), ("SEGV", 11)]
  match w with
  | '-' :: n =>
    match number? n with
    | some k => some k
    | none => (names.find? fun (k, _) => k.toList == n).map Prod.snd
  | _ => none

/-- Runs one command of a session, with `nested` for scripts inside it. -/
def runSimple (nested : List Word → Bytes → Exit) (cmd : Simple) (st : Session) : Session :=
  let input := if cmd.inherits then st.input else []
  let write (e : Exit) (left : Bytes) : Session :=
    let out (s : Sink) : Bytes :=
      (if cmd.out == s then e.output else []) ++ (if cmd.err == s then e.errors else [])
    { st with
      input := left
      exit := ⟨e.status, st.exit.output ++ out .output, st.exit.errors ++ out .errors⟩ }
  match cmd.words with
  | [] => { st with exit := { st.exit with status := 0 } }
  | name :: args =>
    if name == "exit".toList then
      let status := match args with
        | w :: _ => (((number? w).getD 2 % 256 : Nat) : Int)
        | [] => st.exit.status
      { st with exit := { st.exit with status }, ended := true }
    else if name == "kill".toList then
      match args with
      | w :: _ =>
        let signal := (signalNumber w).getD 15
        { st with exit := { st.exit with status := -(signal : Int) }, ended := true }
      | [] => write (complaint "kill".toList "usage".toList 2) st.input
    else if name == "sh".toList then write (nested args input) []
    else
      match tool? name with
      | some tool =>
        let reads := ["cat", "tr", "sed"].map String.toList
        write (tool args input) (if reads.contains name && cmd.inherits then [] else st.input)
      | none => write (complaint "sh: 1".toList (name ++ ": not found".toList) 127) st.input

/-- Runs a pipe of commands, each with the output of the one before it as its input. -/
def runPipe (nested : List Word → Bytes → Exit) : List Simple → Session → Session
  | [], st => st
  | [c], st => runSimple nested c st
  | c :: cs, st =>
    let first := runSimple nested c { st with exit := { st.exit with output := [] } }
    let piped : Session :=
      { input := first.exit.output
        exit := { st.exit with errors := first.exit.errors }
        ended := false }
    let last := runPipe nested cs piped
    { last with input := first.input, ended := false }

/-- The commands of a pipe, and the tokens after it. -/
def readPipe : Nat → List Token → List Simple × List Token
  | 0, ts => ([], ts)
  | fuel + 1, ts =>
    match readSimple {} ts with
    | (c, .operator ['|'] :: rest) =>
      let (cs, rest) := readPipe fuel rest
      (c :: cs, rest)
    | (c, rest) => ([c], rest)

/-- Runs the tokens of a script. A pipe after `&&` or `||` runs only for the matching status. -/
def runTokens (nested : List Word → Bytes → Exit) :
    Nat → Bool → List Token → Session → Session
  | 0, _, _, st => st
  | _, _, [], st => st
  | fuel + 1, live, ts, st =>
    let (pipe, rest) := readPipe (ts.length + 1) ts
    let st := if live then runPipe nested pipe st else st
    if st.ended then st
    else
      match rest with
      | .operator op :: rest =>
        let live :=
          if op == "&&".toList then st.exit.status == 0
          else if op == "||".toList then st.exit.status != 0
          else true
        runTokens nested fuel live rest st
      | _ => st

/-- Runs a shell with its arguments; scripts may start shells, at most so many in one another. -/
def shell : Nat → List Word → Bytes → Exit
  | 0, _, _ => complaint "sh".toList "too deeply nested".toList 2
  | depth + 1, args, input =>
    match args with
    | flag :: script :: _ =>
      if flag == "-c".toList then
        match tokensFrom (script.length + 2) none script with
        | some ts => (runTokens (shell depth) (ts.length + 1) true ts { input }).exit
        | none => complaint "sh: 1".toList "Syntax error: Unterminated quoted string".toList 2
      else complaint "sh: 0".toList ("cannot open ".toList ++ flag) 2
    | _ => complaint "sh: 0".toList "-c requires an argument".toList 2

def nestingLimit : Nat := 16

def binFolders : List (List Char) := ["/bin/".toList, "/usr/bin/".toList]

/-- The name of a program without the folder that programs stand in. -/
def programName (w : Word) : Word :=
  match binFolders.find? (·.isPrefixOf w) with
  | some f => w.drop f.length
  | none => w

/-- Runs the tools and shells. A folder cannot be run, and other programs are not there. -/
def builtin : Host := fun command input =>
  match command with
  | [] => .error .notFound
  | program :: args =>
    let name := programName program
    if name == "sh".toList then .ok (shell nestingLimit args input)
    else if name == ":".toList then .error .notFound
    else
      match tool? name with
      | some tool => .ok (tool args input)
      | none =>
        if ["/", ".", "..", "./", "../", "/tmp", "/bin"].any (·.toList == program) then
          .error .notPermitted
        else .error .notFound

theorem builtin_nil (input : Bytes) : builtin [] input = .error .notFound := rfl

end ErbLayout.Command
