import ErbLayout.Command.Process
/-!
The commands that are at hand without another program: copying, exchange of characters,
substitution in lines, and printing.
-/

namespace ErbLayout.Command

open Text (Bytes)

/-- A command as a function of its arguments and its input. -/
abbrev Tool := List Word → Bytes → Exit

def complaint (program : Word) (text : List Char) (status : Int := 1) : Exit :=
  { status, errors := Text.encode (program ++ [':', ' '] ++ text ++ ['\n']) }

def devNull : Word := "/dev/null".toList

/-- Copies its input; of files it knows the empty one. -/
def cat : Tool := fun args input =>
  let files := args.filter (· != "-u".toList)
  if files.isEmpty then { output := input }
  else
    files.foldl (fun e f =>
      if f == "-".toList || f == "/dev/stdin".toList then { e with output := e.output ++ input }
      else if f == devNull then e
      else
        { e with
          status := 1
          errors := e.errors ++
            (complaint "cat".toList (f ++ ": No such file or directory".toList)).errors }) {}

/-- The characters of an escape after its backslash, and what follows it. -/
def readEscape : List Char → List Char × List Char
  | 'n' :: s => (['\n'], s)
  | 't' :: s => (['\t'], s)
  | 'r' :: s => (['\r'], s)
  | 'f' :: s => (['\x0c'], s)
  | 'v' :: s => (['\x0b'], s)
  | 'b' :: s => (['\x08'], s)
  | 'a' :: s => (['\x07'], s)
  | '\\' :: s => (['\\'], s)
  | c :: s => (['\\', c], s)
  | [] => (['\\'], [])

/-- A number of at most so many octal digits. -/
def readOctal : Nat → Nat → List Char → Nat × List Char
  | 0, n, s => (n, s)
  | _ + 1, n, [] => (n, [])
  | k + 1, n, c :: s =>
    if '0' ≤ c && c ≤ '7' then readOctal k (8 * n + (c.toNat - 48)) s else (n, c :: s)

def isOctalStart : List Char → Bool
  | c :: _ => '0' ≤ c && c ≤ '7'
  | [] => false

/-- The bytes of a text in which escapes stand for characters and, in octal, for bytes. -/
def unescape : Nat → List Char → Bytes
  | 0, _ => []
  | _, [] => []
  | fuel + 1, '\\' :: s =>
    if isOctalStart s then
      let (n, r) := readOctal 3 0 s
      UInt8.ofNat n :: unescape fuel r
    else
      let (cs, r) := readEscape s
      Text.encode cs ++ unescape fuel r
  | fuel + 1, c :: s => Text.encode [c] ++ unescape fuel s

def bytesBetween (a b : UInt8) : Bytes :=
  (List.range (b.toNat + 1 - a.toNat)).map fun i => UInt8.ofNat (a.toNat + i)

/-- The bytes of a set of characters, with its ranges filled. -/
def expandRanges : Bytes → Bytes
  | a :: 0x2D :: b :: s => if a ≤ b then bytesBetween a b ++ expandRanges s else expandRanges s
  | a :: s => a :: expandRanges s
  | [] => []

def namedSets : List (Word × Bytes) :=
  [("[:lower:]".toList, bytesBetween 97 122), ("[:upper:]".toList, bytesBetween 65 90),
    ("[:digit:]".toList, bytesBetween 48 57), ("[:space:]".toList, bytesBetween 9 13 ++ [32]),
    ("[:blank:]".toList, [9, 32]),
    ("[:alpha:]".toList, bytesBetween 65 90 ++ bytesBetween 97 122),
    ("[:alnum:]".toList, bytesBetween 48 57 ++ bytesBetween 65 90 ++ bytesBetween 97 122)]

def characterSet (s : Word) : Bytes :=
  match namedSets.find? (·.1 == s) with
  | some (_, bs) => bs
  | none => expandRanges (unescape s.length s)

/-- Repeated bytes of the set are written once. -/
def squeeze (set : Bytes) (last : Option UInt8) : Bytes → Bytes
  | [] => []
  | b :: bs =>
    if some b == last && set.contains b then squeeze set last bs else b :: squeeze set (some b) bs

def exchangeByte (fill : UInt8) : Bytes → Bytes → UInt8 → UInt8
  | [], _, b => b
  | a :: _, [], b => if a == b then fill else b
  | a :: as, c :: cs, b =>
    if a == b && !as.contains b then c else exchangeByte fill as cs b

/-- Exchanges, deletes or squeezes bytes. The last byte of a short second set stands for all that
are missing. -/
def tr : Tool := fun args input =>
  let flags := ((args.filter fun a => a.length > 1 && a.head? == some '-').flatMap (·.drop 1))
  let sets := (args.filter fun a => !(a.length > 1 && a.head? == some '-')).map characterSet
  let inFirst (set : Bytes) (b : UInt8) : Bool :=
    if flags.contains 'c' || flags.contains 'C' then !set.contains b else set.contains b
  match sets with
  | [] => complaint "tr".toList "missing operand".toList
  | [a] =>
    if flags.contains 'd' then { output := input.filter fun b => !inFirst a b }
    else if flags.contains 's' then { output := squeeze (input.filter (inFirst a)) none input }
    else complaint "tr".toList "missing operand".toList
  | a :: b :: _ =>
    let fill := b.getLastD 0
    let exchanged := input.map fun x =>
      if flags.contains 'c' || flags.contains 'C' then (if a.contains x then x else fill)
      else exchangeByte fill a b x
    { output := if flags.contains 's' then squeeze b none exchanged else exchanged }

/-- One character of a pattern for lines. -/
inductive Atom where
  | char (c : Char)
  | any
  | set (negated : Bool) (ranges : List (Char × Char))
  deriving DecidableEq, Repr

def Atom.admits : Atom → Char → Bool
  | .char a, c => a == c
  | .any, _ => true
  | .set negated ranges, c => (ranges.any fun (a, b) => a ≤ c && c ≤ b) != negated

inductive Times where
  | once
  | optional
  | many
  | some
  deriving DecidableEq, Repr

/-- A pattern, tied to the start or the end of a line or to neither. -/
structure LinePattern where
  atStart : Bool
  items : List (Atom × Times)
  atEnd : Bool
  deriving DecidableEq, Repr

/-- The members of a set up to its closing bracket. -/
def readSet (acc : List (Char × Char)) : List Char → Option (List (Char × Char) × List Char)
  | [] => none
  | ']' :: s => if acc.isEmpty then readSet [(']', ']')] s else .some (acc, s)
  | a :: '-' :: b :: s =>
    if b == ']' then readSet (acc ++ [(a, a)]) ('-' :: b :: s) else readSet (acc ++ [(a, b)]) s
  | a :: s => readSet (acc ++ [(a, a)]) s

def readTimes (extended : Bool) : List Char → Times × List Char
  | '*' :: s => (.many, s)
  | '\\' :: '+' :: s => if extended then (.once, '\\' :: '+' :: s) else (.some, s)
  | '\\' :: '?' :: s => if extended then (.once, '\\' :: '?' :: s) else (.optional, s)
  | '+' :: s => if extended then (.some, s) else (.once, '+' :: s)
  | '?' :: s => if extended then (.optional, s) else (.once, '?' :: s)
  | s => (.once, s)

def readAtom : List Char → Option (Atom × List Char)
  | '.' :: s => .some (.any, s)
  | '[' :: '^' :: s => (readSet [] s).map fun (r, t) => (.set true r, t)
  | '[' :: s => (readSet [] s).map fun (r, t) => (.set false r, t)
  | '\\' :: 's' :: s => .some (.set false [(' ', ' '), ('\t', '\r')], s)
  | '\\' :: 'n' :: s => .some (.char '\n', s)
  | '\\' :: 't' :: s => .some (.char '\t', s)
  | '\\' :: c :: s => .some (.char c, s)
  | c :: s => .some (.char c, s)
  | [] => none

def readItems (extended : Bool) : Nat → List Char → Option (List (Atom × Times) × Bool)
  | 0, _ => none
  | _, [] => .some ([], false)
  | _, ['$'] => .some ([], true)
  | fuel + 1, s => do
    let (a, r) ← readAtom s
    let (t, r) := readTimes extended r
    let (items, atEnd) ← readItems extended fuel r
    return ((a, t) :: items, atEnd)

def LinePattern.read (extended : Bool) (s : List Char) : Option LinePattern :=
  match s with
  | '^' :: r => (readItems extended (r.length + 1) r).map fun (items, e) => ⟨true, items, e⟩
  | _ => (readItems extended (s.length + 1) s).map fun (items, e) => ⟨false, items, e⟩

/-- How far the items reach at the start of a text; as much as possible is taken first. -/
def matchItems (atEnd : Bool) : List (Atom × Times) → List Char → Option Nat
  | [], s => if atEnd && !s.isEmpty then none else .some 0
  | (a, t) :: items, s =>
    let admitted := (s.takeWhile a.admits).length
    let (low, high) :=
      match t with
      | .once => (1, min admitted 1)
      | .optional => (0, min admitted 1)
      | .many => (0, admitted)
      | .some => (1, admitted)
    ((List.range (high + 1 - low)).map fun i => high - i).findSome? fun k =>
      (matchItems atEnd items (s.drop k)).map (· + k)

/-- The replacement for a match: an ampersand stands for the match. -/
def replacement (matched : List Char) : List Char → List Char
  | '\\' :: 'n' :: s => '\n' :: replacement matched s
  | '\\' :: c :: s => c :: replacement matched s
  | '&' :: s => matched ++ replacement matched s
  | c :: s => c :: replacement matched s
  | [] => []

/-- A line with the first match or all matches replaced. -/
def substituteFrom (p : LinePattern) (by_ : List Char) (all : Bool) :
    Nat → Bool → List Char → List Char
  | 0, _, s => s
  | fuel + 1, atStart, s =>
    let found := if p.atStart && !atStart then none else matchItems p.atEnd p.items s
    match found, s with
    | .some k, _ =>
      let new := replacement (s.take k) by_
      let rest := s.drop k
      if !all then new ++ rest
      else if k = 0 then
        match rest with
        | [] => new
        | c :: r => new ++ c :: substituteFrom p by_ all fuel false r
      else
        match rest with
        | [] => new
        | _ => new ++ substituteFrom p by_ all fuel false rest
    | none, c :: r => c :: substituteFrom p by_ all fuel false r
    | none, [] => []

/-- The text up to a delimiter that no backslash precedes, and the rest after it. -/
def upToDelimiter (d : Char) : List Char → Option (List Char × List Char)
  | [] => none
  | '\\' :: c :: s =>
    (upToDelimiter d s).map fun (a, r) => (if c == d then (c :: a, r) else ('\\' :: c :: a, r))
  | c :: s => if c == d then .some ([], s) else (upToDelimiter d s).map fun (a, r) => (c :: a, r)

/-- A substitution as a function of lines. -/
def substitution (extended : Bool) (script : List Char) : Option (List Char → List Char) :=
  match Text.trim script with
  | 's' :: d :: s => do
    let (pattern, r) ← upToDelimiter d s
    let (by_, flags) ← upToDelimiter d r
    let p ← LinePattern.read extended pattern
    if flags.all (· == 'g') then
      return fun l => substituteFrom p by_ (flags.contains 'g') (l.length + 1) true l
    else none
  | _ => none

/-- Bytes as characters of the same number, so that any bytes can be edited. -/
def bytesToChars (bs : Bytes) : List Char := bs.map fun b => Char.ofNat b.toNat

def charsToBytes (s : List Char) : Bytes := s.map fun c => UInt8.ofNat c.toNat

def wordToChars (w : Word) : List Char := bytesToChars (Text.encode w)

/-- Edits lines by substitutions. -/
def sed : Tool := fun args input =>
  let extended := args.contains "-E".toList || args.contains "-r".toList
  let scripts := args.filter fun a => !(["-E".toList, "-r".toList, "-e".toList].contains a)
  match scripts.mapM fun s => substitution extended (wordToChars s) with
  | none => complaint "sed".toList "-e expression #1, char 1: unknown command".toList
  | .some edits =>
    let edit (l : List Char) : List Char := edits.foldl (fun l f => f l) l
    let s := bytesToChars input
    match (Text.splitOn '\n' s).reverse with
    | [] :: ls => { output := charsToBytes ((ls.reverse.map fun l => edit l ++ ['\n']).flatten) }
    | ls => { output := charsToBytes (Text.joinLines (ls.reverse.map edit)) }

/-- The bytes of a format with its fields filled by arguments, and whether it took any. -/
def fillFormat : Nat → List Char → List Word → Bytes × List Word
  | 0, _, args => ([], args)
  | _, [], args => ([], args)
  | fuel + 1, '%' :: '%' :: s, args =>
    let (bs, rest) := fillFormat fuel s args
    (Text.encode ['%'] ++ bs, rest)
  | fuel + 1, '%' :: c :: s, args =>
    let value : Word :=
      if c == 'd' || c == 'i' then (if (args.headD []).isEmpty then ['0'] else args.headD [])
      else args.headD []
    let (bs, rest) := fillFormat fuel s (args.drop 1)
    ((if c == 'b' then unescape value.length value else Text.encode value) ++ bs, rest)
  | fuel + 1, '\\' :: s, args =>
    if isOctalStart s then
      let (n, r) := readOctal 3 0 s
      let (bs, rest) := fillFormat fuel r args
      (UInt8.ofNat n :: bs, rest)
    else
      let (cs, r) := readEscape s
      let (bs, rest) := fillFormat fuel r args
      (Text.encode cs ++ bs, rest)
  | fuel + 1, c :: s, args =>
    let (bs, rest) := fillFormat fuel s args
    (Text.encode [c] ++ bs, rest)

/-- The format is used again as long as it takes arguments and some are left. -/
def printFrom (format : List Char) : Nat → List Word → Bytes
  | 0, _ => []
  | fuel + 1, args =>
    let (bs, rest) := fillFormat (format.length + 1) format args
    if rest.isEmpty || rest.length == args.length then bs else bs ++ printFrom format fuel rest

def printf : Tool := fun args _ =>
  match args with
  | [] => complaint "printf".toList "missing operand".toList 2
  | format :: rest => { output := printFrom format (rest.length + 1) rest }

def echo : Tool := fun args _ =>
  match args with
  | a :: rest =>
    if a == "-n".toList then { output := Text.encode (Text.joinWith [' '] rest) }
    else { output := Text.encode (Text.joinWith [' '] args ++ ['\n']) }
  | [] => { output := Text.encode ['\n'] }

/-- The tool of a name. -/
def tool? (name : Word) : Option Tool :=
  let known : List (String × Tool) :=
    [("cat", cat), ("tr", tr), ("sed", sed), ("printf", printf), ("echo", echo),
      ("true", fun _ _ => {}), ("false", fun _ _ => { status := 1 }), (":", fun _ _ => {})]
  (known.find? fun (k, _) => k.toList == name).map Prod.snd

end ErbLayout.Command
