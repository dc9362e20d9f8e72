import ErbLayout.Text.Lines
import ErbLayout.Text.Quoted
/-!
The values that a TOML document holds. The entries of a table stand in the order in which their
keys were first written.
-/

namespace ErbLayout.Toml

abbrev Key := List Char

/-- A real number, a date and a time are kept as they are written. -/
inductive Value where
  | string (text : List Char)
  | integer (n : Int)
  | boolean (b : Bool)
  | real (text : List Char)
  | date (text : List Char)
  | time (text : List Char)
  | array (items : List Value)
  | table (entries : List (Key × Value))
  deriving Repr, Inhabited

abbrev Table := List (Key × Value)

namespace Table

def get? (t : Table) (k : Key) : Option Value := List.lookup k t

/-- The table with a value for `k`, in the place of the one that it had, or at the end. -/
def set (t : Table) (k : Key) (v : Value) : Table :=
  match t with
  | [] => [(k, v)]
  | (k', v') :: es => if k = k' then (k, v) :: es else (k', v') :: set es k v

/-- The entries of `u`, one after another, set in `t`. -/
def update (t u : Table) : Table := u.foldl (fun t (k, v) => t.set k v) t

theorem get?_set (t : Table) (k j : Key) (v : Value) :
    (t.set k v).get? j = if j = k then some v else t.get? j := by
  have miss {a b : Key} (h : ¬ a = b) : (a == b) = false := beq_eq_false_iff_ne.2 h
  induction t with
  | nil => by_cases h : j = k <;> simp [set, get?, List.lookup_cons, h, miss]
  | cons e es ih =>
    obtain ⟨k', v'⟩ := e
    rw [set]
    split
    · rename_i h
      subst h
      by_cases hj : j = k <;> simp [get?, List.lookup_cons, hj, miss]
    · rename_i h
      simp only [get?, List.lookup_cons] at ih ⊢
      by_cases hj : j = k'
      · subst hj
        simp [show ¬ j = k from fun e => h e.symm]
      · simp [miss hj, ih]

end Table

namespace Value

/-- The word for the kind of a value. -/
def kind : Value → String
  | .string _ => "str"
  | .integer _ => "int"
  | .boolean _ => "bool"
  | .real _ => "float"
  | .date t => if t.contains ':' then "datetime.datetime" else "datetime.date"
  | .time _ => "datetime.time"
  | .array _ => "list"
  | .table _ => "dict"

/-- Whether a value counts as given: all but the empty ones, zero and false. -/
def isGiven : Value → Bool
  | .string t => !t.isEmpty
  | .integer n => n != 0
  | .boolean b => b
  | .real t => t.any fun c => '1' ≤ c && c ≤ '9' || c == 'n'
  | .date _ | .time _ => true
  | .array vs => !vs.isEmpty
  | .table es => !es.isEmpty

mutual

/-- The value as the log shows it. -/
def shown : Value → List Char
  | .string t => Text.quoted t
  | .integer n => (toString n).toList
  | .boolean b => if b then "True".toList else "False".toList
  | .real t | .date t | .time t => t
  | .array vs => '[' :: Text.joinWith [',', ' '] (shownItems vs) ++ [']']
  | .table es => '\x7b' :: Text.joinWith [',', ' '] (shownEntries es) ++ ['\x7d']

def shownItems : List Value → List (List Char)
  | [] => []
  | v :: vs => v.shown :: shownItems vs

def shownEntries : List (Key × Value) → List (List Char)
  | [] => []
  | (k, v) :: es => (Text.quoted k ++ ':' :: ' ' :: v.shown) :: shownEntries es

end

end Value

end ErbLayout.Toml
