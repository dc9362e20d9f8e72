import ErbLayout.Text.Blank
/-!
Lines: the plain split at line feeds and its join, the split at every line boundary that Unicode
text may hold, and the reading of foreign line ends as line feeds.
-/

namespace ErbLayout.Text

/-- The stretches between the occurrences of `sep`; one more than there are of those. -/
def splitOn (sep : Char) : List Char → List (List Char)
  | [] => [[]]
  | c :: s =>
    if c = sep then [] :: splitOn sep s
    else
      match splitOn sep s with
      | [] => [[c]]
      | l :: ls => (c :: l) :: ls

/-- The stretches with `sep` between each two. -/
def joinWith (sep : List Char) : List (List Char) → List Char
  | [] => []
  | [l] => l
  | l :: ls => l ++ sep ++ joinWith sep ls

def joinLines (ls : List (List Char)) : List Char := joinWith ['\n'] ls

/-- The text before the first line feed. -/
def firstLine (s : List Char) : List Char := s.takeWhile (· != '\n')

/-- The text after the last line feed. -/
def lastLine (s : List Char) : List Char := (s.reverse.takeWhile (· != '\n')).reverse

/-- A character that ends a line by itself. -/
def isLineBreak (c : Char) : Bool :=
  let n := c.toNat
  (10 ≤ n && n ≤ 13) || (28 ≤ n && n ≤ 30) || n == 0x85 || n == 0x2028 || n == 0x2029

/-- The lines of `s`, where `cur`, read backwards, has been seen of the first one. -/
def splitLinesFrom (cur : List Char) : List Char → List (List Char)
  | [] => if cur.isEmpty then [] else [cur.reverse]
  | '\r' :: '\n' :: s => cur.reverse :: splitLinesFrom [] s
  | c :: s =>
    if isLineBreak c then cur.reverse :: splitLinesFrom [] s else splitLinesFrom (c :: cur) s

/-- The lines of `s` without their ends. A carriage return before a line feed ends one line with
it, and a text that ends with a line end has no empty line after it. -/
def splitLines (s : List Char) : List (List Char) := splitLinesFrom [] s

/-- Carriage returns, with a line feed after them or not, are read as line feeds. -/
def unifyNewlines : List Char → List Char
  | [] => []
  | '\r' :: '\n' :: s => '\n' :: unifyNewlines s
  | c :: s => (if c = '\r' then '\n' else c) :: unifyNewlines s

theorem splitOn_ne_nil (sep : Char) (s : List Char) : splitOn sep s ≠ [] := by
  induction s with
  | nil => simp [splitOn]
  | cons c s ih =>
    rw [splitOn]
    split
    · simp
    · cases h : splitOn sep s <;> simp

theorem joinWith_splitOn (sep : Char) (s : List Char) : joinWith [sep] (splitOn sep s) = s := by
  induction s with
  | nil => rfl
  | cons c s ih =>
    rw [splitOn]
    split
    · rename_i hc
      cases h : splitOn sep s with
      | nil => exact absurd h (splitOn_ne_nil sep s)
      | cons l ls => rw [h] at ih; simp [joinWith, ih, hc]
    · cases h : splitOn sep s with
      | nil => exact absurd h (splitOn_ne_nil sep s)
      | cons l ls =>
        rw [h] at ih
        cases ls <;> simp_all [joinWith]

theorem joinLines_splitOn (s : List Char) : joinLines (splitOn '\n' s) = s :=
  joinWith_splitOn '\n' s

end ErbLayout.Text
