/-!
White space in text, and the operations that only look at it: trimming, splitting into words,
and the single-spaced form of a text.
-/

namespace ErbLayout

/-- The white space characters of Unicode, the four information separators among them. -/
def isBlank (c : Char) : Bool :=
  let n := c.toNat
  (9 ≤ n && n ≤ 13) || (28 ≤ n && n ≤ 32) || n == 0x85 || n == 0xA0 || n == 0x1680 ||
    (0x2000 ≤ n && n ≤ 0x200A) || n == 0x2028 || n == 0x2029 || n == 0x202F || n == 0x205F ||
    n == 0x3000

namespace Text

def trimLeft (s : List Char) : List Char := s.dropWhile isBlank

def trimRight (s : List Char) : List Char := (s.reverse.dropWhile isBlank).reverse

def trim (s : List Char) : List Char := trimRight (trimLeft s)

/-- Nothing but white space, or nothing at all. -/
def allBlank (s : List Char) : Bool := s.all isBlank

def startsBlank : List Char → Bool
  | [] => false
  | c :: _ => isBlank c

def endsBlank (s : List Char) : Bool := startsBlank s.reverse

/-- The words of `s` when `cur`, read backwards, has been seen of the current one. -/
def wordsFrom (cur : List Char) : List Char → List (List Char)
  | [] => if cur.isEmpty then [] else [cur.reverse]
  | c :: s =>
    if isBlank c then
      if cur.isEmpty then wordsFrom [] s else cur.reverse :: wordsFrom [] s
    else wordsFrom (c :: cur) s

/-- The maximal runs of other characters than white space, in order. -/
def words (s : List Char) : List (List Char) := wordsFrom [] s

/-- The words of a line with one space between each two. -/
def joinWords : List (List Char) → List Char
  | [] => []
  | [w] => w
  | w :: ws => w ++ ' ' :: joinWords ws

/-- Every run of white space becomes one space, and the ends lose theirs. -/
def normalize (s : List Char) : List Char := joinWords (words s)

/-- How many line feeds stand in the white space that ends `s`. -/
def trailingNewlines (s : List Char) : Nat := (s.reverse.takeWhile isBlank).count '\n'

theorem isBlank_space : isBlank ' ' = true := by decide

theorem isBlank_of_isWhitespace {c : Char} (h : c.isWhitespace = true) : isBlank c = true := by
  simp only [Char.isWhitespace, Bool.or_eq_true, decide_eq_true_eq] at h
  rcases h with ((h | h) | h) | h <;> subst h <;> decide

theorem not_isBlank_head_trimLeft {c : Char} {s t : List Char} (h : trimLeft s = c :: t) :
    isBlank c = false := by
  induction s with
  | nil => simp [trimLeft] at h
  | cons a s ih =>
    rw [trimLeft, List.dropWhile_cons] at h
    split at h
    · exact ih h
    · rename_i ha
      simp only [List.cons.injEq] at h
      rw [← h.1]
      simpa using ha

theorem words_nil : words [] = [] := rfl

end Text

end ErbLayout
