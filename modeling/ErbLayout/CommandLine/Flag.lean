import ErbLayout.Text.Number
import ErbLayout.Text.Lines
/-!
The flags of the command line: how they are spelled, and how one argument reads. A long name may be
cut short as long as it stays the only one that begins so.
-/

namespace ErbLayout.CommandLine

abbrev Argument := List Char

inductive Flag where
  | help
  | output
  | width
  | inplace
  | nobackup
  | check
  | reformatter
  | extendInclude
  | exclude
  | extendExclude
  | noRespectGitignore
  | forceExclude
  | listFiles
  | filesMaxSize
  | verbose
  | version
  deriving DecidableEq, Repr

namespace Flag

def longNames : List (List Char × Flag) :=
  [("--help", help), ("--output", output), ("--width", width), ("--inplace", inplace),
    ("--nobackup", nobackup), ("--check", check), ("--reformatter", reformatter),
    ("--extend-include", extendInclude), ("--exclude", exclude),
    ("--extend-exclude", extendExclude), ("--no-respect-gitignore", noRespectGitignore),
    ("--force-exclude", forceExclude), ("--list-files", listFiles),
    ("--files-max-size", filesMaxSize), ("--verbose", verbose),
    ("--version", version)].map fun (n, f) => (n.toList, f)

def ofLetter? : Char → Option Flag
  | 'h' => some help
  | 'o' => some output
  | 'w' => some width
  | 'i' => some inplace
  | 'v' => some verbose
  | _ => none

def takesValue : Flag → Bool
  | output | width | reformatter | extendInclude | exclude | extendExclude | filesMaxSize => true
  | _ => false

end Flag

/-- What is attached to a flag in one argument, after an equals sign or right behind a letter. -/
structure Attached where
  afterEquals : Bool
  text : List Char
  deriving DecidableEq, Repr

/-- How one argument reads by itself. -/
inductive Token where
  | operand (text : Argument)
  | terminator
  | long (flag : Flag) (attached : Option Attached)
  | letter (flag : Flag) (attached : Option Attached)
  | unknown
  deriving DecidableEq, Repr

/-- A minus sign with digits, or with a point among or before them. -/
def isNegativeNumber (s : Argument) : Bool :=
  match s with
  | '-' :: s =>
    let s := if s.getLast? == some '\n' then s.dropLast else s
    let (whole, rest) := s.span isDigit
    match rest with
    | [] => !whole.isEmpty
    | '.' :: frac => !frac.isEmpty && frac.all isDigit
    | _ => false
  | _ => false

/-- The text before the first equals sign, and what is attached by it. -/
def splitEquals (s : Argument) : List Char × Option Attached :=
  match s.span (· != '=') with
  | (name, _ :: value) => (name, some ⟨true, value⟩)
  | (name, []) => (name, none)

/-- What an argument is that is no flag though it begins with a hyphen. -/
def Token.ofOther (s : Argument) : Token :=
  if isNegativeNumber s || s.contains ' ' then .operand s else .unknown

/-- How an argument reads; nothing if it may be more than one flag. -/
def Token.read (s : Argument) : Option Token :=
  match s with
  | '-' :: '-' :: [] => some .terminator
  | '-' :: '-' :: _ =>
    let (name, attached) := splitEquals s
    match Flag.longNames.lookup name with
    | some f => some (.long f attached)
    | none =>
      match Flag.longNames.filter fun (n, _) => name.isPrefixOf n with
      | [] => some (ofOther s)
      | [(_, f)] => some (.long f attached)
      | _ => none
  | '-' :: c :: r =>
    match Flag.ofLetter? c, r with
    | some f, [] => some (.letter f none)
    | some f, '=' :: value => some (.letter f (some ⟨true, value⟩))
    | some f, r => some (.letter f (some ⟨false, r⟩))
    | none, _ => some (ofOther s)
  | s => some (.operand s)

/-- How all arguments read. Behind the first terminator there are only operands. -/
def Token.readAll : List Argument → Option (List Token)
  | [] => some []
  | s :: ss =>
    match Token.read s with
    | none => none
    | some .terminator => some (.terminator :: ss.map .operand)
    | some t => (readAll ss).map (t :: ·)

end ErbLayout.CommandLine
