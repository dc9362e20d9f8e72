import ErbLayout.Text.Blank
import ErbLayout.Text.Scan
/-!
Attributes of open tags: a name alone, or a name with a quoted or a bare value.
-/

namespace ErbLayout.Markup

/-- A character of names and bare values: not one of the ASCII white space characters, a quote, an
equals sign or an angle bracket. -/
def isNameChar (c : Char) : Bool :=
  !(c == '\r' || c == '\n' || c == '\t' || c == '\x0c' || c == '\x0b' || c == ' ' || c == '='
    || c == '\'' || c == '"' || c == '<' || c == '>')

inductive Quote where
  | single
  | double
  deriving DecidableEq, Repr

def Quote.mark : Quote → Char
  | .single => '\''
  | .double => '"'

inductive Attribute where
  | name (name : List Char)
  | bare (name value : List Char)
  | quoted (name : List Char) (quote : Quote) (value : List Char)
  deriving DecidableEq, Repr

namespace Attribute

def text : Attribute → List Char
  | .name n => n
  | .bare n v => n ++ '=' :: v
  | .quoted n q v => n ++ '=' :: q.mark :: v ++ [q.mark]

/-- The name characters that `s` begins with, and the rest. -/
def nameRun (s : List Char) : List Char × List Char := s.span isNameChar

/-- A name or bare value may hold slashes but does not end with one. -/
def dropSlashes (run : List Char) : List Char := (run.reverse.dropWhile (· == '/')).reverse

def endsWithSlash (run : List Char) : Bool := run.getLast? == some '/'

/-- The value up to the next `q`, when there is one. -/
def closeQuote (q : Char) : List Char → Option (List Char × List Char)
  | [] => none
  | c :: s => if c = q then some ([], s) else (closeQuote q s).map fun (v, r) => (c :: v, r)

/-- A name with a value between quotes of the given kind, and the text after it. -/
def readQuoted (q : Quote) (s : List Char) : Option (Attribute × List Char) :=
  match nameRun s with
  | (n, '=' :: m :: r) =>
    if m = q.mark && !n.isEmpty && !endsWithSlash n then
      (closeQuote q.mark r).map fun (v, rest) => (.quoted n q v, rest)
    else none
  | _ => none

/-- A name with a bare value. -/
def readBare (s : List Char) : Option Attribute :=
  match nameRun s with
  | (n, '=' :: r) =>
    let v := dropSlashes (nameRun r).1
    if n.isEmpty || endsWithSlash n || v.isEmpty then none else some (.bare n v)
  | _ => none

def readName (s : List Char) : Option Attribute :=
  match dropSlashes (nameRun s).1 with
  | [] => none
  | n => some (.name n)

/-- The attribute that a text begins with: with a quoted value if that can be, else with a bare one,
else the name alone. -/
def readAny (s : List Char) : Option Attribute :=
  match readQuoted .single s with
  | some (a, _) => some a
  | none =>
    match readQuoted .double s with
    | some (a, _) => some a
    | none =>
      match readBare s with
      | some a => some a
      | none => readName s

def read : Text.Reader Attribute := fun s => (readAny s).map fun a => (a, a.text.length)

/-- The attributes of a text in order. What belongs to none of them is passed over. -/
def all (s : List Char) : List Attribute :=
  (Text.scan read s).filterMap fun
    | .char _ => none
    | .value a => some a

def isQuoted : Attribute → Bool
  | .quoted .. => true
  | _ => false

def label : Attribute → List Char
  | .name n => n
  | .bare n _ => n
  | .quoted n _ _ => n

theorem closeQuote_eq {q : Char} {s v r : List Char} (h : closeQuote q s = some (v, r)) :
    s = v ++ q :: r := by
  fun_induction closeQuote q s generalizing v r with
  | case1 => simp at h
  | case2 => simp_all
  | case3 c s hc ih =>
    obtain ⟨⟨u, t⟩, hu, he⟩ := Option.map_eq_some_iff.1 h
    simp only [Prod.mk.injEq] at he
    obtain ⟨rfl, rfl⟩ := he
    simp [ih hu]

end Attribute

end ErbLayout.Markup
