import ErbLayout.Toml.Scalar
/-!
Whole documents: statements that give a key its value or open a table. A document may not say the
same thing twice, nor add to a table or an array that was written out in one value.
-/

namespace ErbLayout.Toml

abbrev KeyPath := List Key

/-- The text after a comment, if one begins here. -/
def skipComment? (s : List Char) : Option (List Char) :=
  match s with
  | '#' :: r =>
    let (comment, rest) := r.span (· != '\n')
    if comment.any (isIllegal false) then none else some rest
  | _ => some s

/-- The text after the white space, the line ends and the comments that begin here. -/
def skipLayoutFrom : Nat → List Char → Option (List Char)
  | 0, s => some s
  | n + 1, s => do
    let s' ← skipComment? (s.dropWhile fun c => isSpace c || c == '\n')
    if s'.length = s.length then return s' else skipLayoutFrom n s'

def skipLayout? (s : List Char) : Option (List Char) := skipLayoutFrom (s.length + 1) s

def isBareKeyChar (c : Char) : Bool :=
  ('a' ≤ c && c ≤ 'z') || ('A' ≤ c && c ≤ 'Z') || isDecimal c || c == '-' || c == '_'

/-- One part of a key. -/
def keyPart? (s : List Char) : Option (Key × List Char) :=
  match s with
  | [] => none
  | '\'' :: r => literalFrom false [] r
  | '"' :: r => stringFrom false [] .plain r
  | c :: _ => if isBareKeyChar c then some (s.span isBareKeyChar) else none

def keyFrom : Nat → Parse KeyPath
  | 0, _ => none
  | n + 1, s => do
    let (k, s) ← keyPart? s
    match skipSpace s with
    | '.' :: s =>
      let (ks, s) ← keyFrom n (skipSpace s)
      return (k :: ks, s)
    | s => return ([k], s)

/-- The parts of a key, with points between them, and the text after the white space after it. -/
def keyPath? (s : List Char) : Option (KeyPath × List Char) := keyFrom (s.length + 1) s

def dotted? (s : List Char) : Option (KeyPath × List Char) := do
  let (ks, s) ← keyPath? s
  return (ks, skipSpace (← after? '=' s))

namespace Table

/-- The table with `f` done to the table at a key, those on the way made where they are missing.
The way goes into the last table of an array if `intoArrays` is set. -/
def modifyAt (intoArrays : Bool) (f : Table → Option Table) : KeyPath → Table → Option Table
  | [], t => f t
  | k :: ks, t =>
    match t.get? k with
    | none => (modifyAt intoArrays f ks []).map fun u => t.set k (.table u)
    | some (.table u) => (modifyAt intoArrays f ks u).map fun u => t.set k (.table u)
    | some (.array vs) =>
      match intoArrays, vs.getLast? with
      | true, some (.table u) =>
        (modifyAt intoArrays f ks u).map fun u => t.set k (.array (vs.dropLast ++ [.table u]))
      | _, _ => none
    | some _ => none

/-- Gives a key that has none a value. -/
def addNew (k : Key) (v : Value) (t : Table) : Option Table :=
  if (t.get? k).isSome then none else some (t.set k v)

/-- One more empty table at the end of an array of tables. -/
def addItem (k : Key) (t : Table) : Option Table :=
  match t.get? k with
  | none => some (t.set k (.array [.table []]))
  | some (.array vs) => some (t.set k (.array (vs ++ [.table []])))
  | some _ => none

/-- Gives a key of several parts its value. -/
def define (intoArrays : Bool) (ks : KeyPath) (v : Value) (t : Table) : Option Table :=
  match ks.getLast? with
  | some k => t.modifyAt intoArrays (addNew k v) ks.dropLast
  | none => none

end Table

/-- Whether what a key names lies in something that was written out in one value. -/
def isSealed (sealed_ : List KeyPath) (ks : KeyPath) : Bool := sealed_.any (·.isPrefixOf ks)

def isContainer : Value → Bool
  | .array _ | .table _ => true
  | _ => false

mutual

/-- A value; the first argument bounds the depth of the reading. -/
def valueFrom : Nat → Parse Value
  | 0, _ => none
  | n + 1, s =>
    match s with
    | '[' :: r => do
      let (vs, r) ← itemsFrom n [] (← skipLayout? r)
      return (.array vs, r)
    | '\x7b' :: r =>
      match skipSpace r with
      | '\x7d' :: r => some (.table [], r)
      | r => do
        let (t, r) ← entriesFrom n [] [] r
        return (.table t, r)
    | s => scalar? s

/-- The items of an array up to its end, after those in `acc`. -/
def itemsFrom : Nat → List Value → Parse (List Value)
  | 0, _, _ => none
  | _ + 1, acc, ']' :: r => some (acc.reverse, r)
  | n + 1, acc, s => do
    let (v, s) ← valueFrom n s
    match ← skipLayout? s with
    | ']' :: r => return ((v :: acc).reverse, r)
    | ',' :: r => itemsFrom n (v :: acc) (← skipLayout? r)
    | _ => none

/-- The entries of a table on one line up to its end, after those in `t`. -/
def entriesFrom : Nat → Table → List KeyPath → Parse Table
  | 0, _, _, _ => none
  | n + 1, t, sealed_, s => do
    let (ks, s) ← dotted? s
    let (v, s) ← valueFrom n s
    if isSealed sealed_ ks then none
    else
      let t ← t.define false ks v
      match skipSpace s with
      | '\x7d' :: r => return (t, r)
      | ',' :: r => entriesFrom n t (if isContainer v then ks :: sealed_ else sealed_) (skipSpace r)
      | _ => none

end

def value? (s : List Char) : Option (Value × List Char) := valueFrom (2 * s.length + 2) s

/-- What has been read of a document: its table, the tables that may not be opened again, those
that may not from the next header on, what was written out in one value, and the table that is
open. -/
structure Document where
  table : Table := []
  closed : List KeyPath := []
  closing : List KeyPath := []
  sealed_ : List KeyPath := []
  header : KeyPath := []

namespace Document

/-- Every proper beginning of a list but the empty one. -/
def beginnings (ks : KeyPath) : List KeyPath :=
  ((List.range ks.length).map fun n => ks.take n).drop 1

def define (d : Document) (ks : KeyPath) (v : Value) : Option Document :=
  let ways := (beginnings ks).map (d.header ++ ·)
  if ways.any d.closed.contains || isSealed d.sealed_ (d.header ++ ks.dropLast) then none
  else do
    let table ← d.table.define true (d.header ++ ks) v
    let sealed_ := if isContainer v then (d.header ++ ks) :: d.sealed_ else d.sealed_
    return { d with table, closing := ways ++ d.closing, sealed_ }

/-- The document at its next header. -/
def atHeader (d : Document) : Document := { d with closed := d.closing ++ d.closed, closing := [] }

def openTable (d : Document) (ks : KeyPath) : Option Document :=
  if d.closed.contains ks || isSealed d.sealed_ ks then none
  else do
    let table ← d.table.modifyAt true some ks
    return { d with table, closed := ks :: d.closed, header := ks }

/-- Opens one more table of an array; what was said of the one before does not bind it. -/
def openItem (d : Document) (ks : KeyPath) : Option Document :=
  if isSealed d.sealed_ ks then none
  else
    match ks.getLast? with
    | none => none
    | some k => do
      let table ← d.table.modifyAt true (Table.addItem k) ks.dropLast
      let forget (kss : List KeyPath) : List KeyPath := kss.filter fun js => !ks.isPrefixOf js
      return { d with
        table, closed := ks :: forget d.closed, sealed_ := forget d.sealed_, header := ks }

/-- The statement that begins with `s`, which is neither empty nor white space. -/
def statement? (d : Document) (s : List Char) : Option (Document × List Char) :=
  match s with
  | '#' :: _ => some (d, s)
  | '[' :: '[' :: r => do
    let (ks, r) ← keyPath? (skipSpace r)
    let d ← d.atHeader.openItem ks
    return (d, skipSpace (← after? ']' (← after? ']' r)))
  | '[' :: r => do
    let (ks, r) ← keyPath? (skipSpace r)
    let d ← d.atHeader.openTable ks
    return (d, skipSpace (← after? ']' r))
  | s => do
    let (ks, r) ← dotted? s
    let (v, r) ← value? r
    let d ← d.define ks v
    return (d, skipSpace r)

def readFrom : Nat → Document → List Char → Option Document
  | 0, _, _ => none
  | n + 1, d, s =>
    match skipSpace s with
    | [] => some d
    | '\n' :: r => readFrom n d r
    | s => do
      let (d, s) ← d.statement? s
      match ← skipComment? s with
      | [] => return d
      | '\n' :: r => readFrom n d r
      | _ => none

end Document

/-- The table that a document describes, if it is one. -/
def read (s : List Char) : Option Table := (Document.readFrom (s.length + 1) {} s).map (·.table)

end ErbLayout.Toml
