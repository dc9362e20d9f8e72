import ErbLayout.Text.Margin
import ErbLayout.Text.Scan
/-!
ERB tags: an opener, Ruby code and a closer. A tag ends at the first `%>` after its opener, whatever
the code says.
-/

namespace ErbLayout.Erb

/-- What the tag does with its code: run it, run it and drop the indentation before the tag, write
its value escaped, or write it as it is. -/
inductive Opener where
  | run
  | trimmed
  | output
  | rawOutput
  deriving DecidableEq, Repr

/-- A dash before the end of the tag drops the line end after it. -/
inductive Closer where
  | plain
  | trimmed
  deriving DecidableEq, Repr

structure Tag where
  opener : Opener
  code : List Char
  closer : Closer
  deriving DecidableEq, Repr

def Opener.text : Opener → List Char
  | .run => ['<', '%']
  | .trimmed => ['<', '%', '-']
  | .output => ['<', '%', '=']
  | .rawOutput => ['<', '%', '=', '=']

def Closer.text : Closer → List Char
  | .plain => ['%', '>']
  | .trimmed => ['-', '%', '>']

/-- The longest opener that `s` begins with, and the text after it. -/
def Opener.read : List Char → Option (Opener × List Char)
  | '<' :: '%' :: '=' :: '=' :: s => some (.rawOutput, s)
  | '<' :: '%' :: '=' :: s => some (.output, s)
  | '<' :: '%' :: '-' :: s => some (.trimmed, s)
  | '<' :: '%' :: s => some (.run, s)
  | _ => none

/-- The text before the first `%>`. -/
def body : List Char → Option (List Char)
  | [] => none
  | '%' :: '>' :: _ => some []
  | c :: s => (body s).map (c :: ·)

/-- The tag between whose opener and `%>` the text `inside` stands. A dash at its end belongs to the
closer, and white space around the code to neither. -/
def Tag.ofInside (opener : Opener) (inside : List Char) : Tag :=
  match inside.reverse with
  | '-' :: r => ⟨opener, Text.trim r.reverse, .trimmed⟩
  | _ => ⟨opener, Text.trim inside, .plain⟩

/-- A tag at the start of a text, with its full text. -/
def Tag.read : Text.Reader (Tag × List Char) := fun s => do
  let (opener, rest) ← Opener.read s
  let inside ← body rest
  let whole := opener.text ++ inside ++ ['%', '>']
  return ((Tag.ofInside opener inside, whole), whole.length)

/-- The tag that a text is as a whole. Unlike `read`, this takes the last `%>` for its end. -/
def Tag.split? (s : List Char) : Option Tag := do
  let (opener, rest) ← Opener.read s
  match rest.reverse with
  | '>' :: '%' :: inside => return Tag.ofInside opener inside.reverse
  | _ => none

/-- The text of a tag whose first line stands at a column and whose further lines get `indent` and
two spaces more, with the margin that they share taken off. -/
def Tag.build (opener code closer indent : List Char) : List Char :=
  if Text.allBlank code then opener ++ ' ' :: closer
  else
    match Text.splitOn '\n' (Text.trim code) with
    | [] => opener ++ ' ' :: closer
    | first :: rest =>
      let reindent (l : List Char) : List Char :=
        if Text.allBlank l then [] else Text.trimRight (indent ++ ' ' :: ' ' :: l)
      let lines := Text.trimRight first :: (Text.dedent rest).map reindent
      let separator : List Char := if first.head? = some '#' then [] else [' ']
      opener ++ separator ++ Text.joinLines lines ++ ' ' :: closer

def Tag.text (tag : Tag) (indent : List Char) : List Char :=
  Tag.build tag.opener.text tag.code tag.closer.text indent

theorem Opener.read_text (o : Opener) (s : List Char) (h : s.head? ≠ some '=' )
    (h' : s.head? ≠ some '-') : Opener.read (o.text ++ s) = some (o, s) := by
  cases o <;> rcases s with _ | ⟨c, s⟩ <;> simp_all [Opener.text, Opener.read]

theorem Opener.text_read {s t : List Char} {o : Opener} (h : Opener.read s = some (o, t)) :
    s = o.text ++ t := by
  unfold Opener.read at h
  split at h <;> simp_all [Opener.text]
  all_goals obtain ⟨rfl, rfl⟩ := h; simp

theorem body_append {s t : List Char} (h : body s = some t) : t ++ ['%', '>'] <+: s := by
  fun_induction body s generalizing t with
  | case1 => simp at h
  | case2 => simp_all
  | case3 c s _ ih =>
    obtain ⟨u, hu, rfl⟩ := Option.map_eq_some_iff.1 h
    simpa using ih hu

end ErbLayout.Erb
