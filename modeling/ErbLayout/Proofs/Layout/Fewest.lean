import Mathlib.Algebra.GroupWithZero.Nat
import ErbLayout.Proofs.Layout.Wrap
/-!
Wrapping is greedy, and greed is right: of all the ways to divide the words of a text into lines
that keep the width, the wrapped text has the fewest lines.
-/

namespace ErbLayout.Layout

open Text (joinWords normalize words)

section Division

variable (len : Measure) (width : Int)

/-- A line that starts at a column keeps the width, or it is a single word. -/
def KeepsWidth (column : Int) (line : List (List Char)) : Prop :=
  2 ≤ line.length → column + ((line.map len).sum + (line.length - 1) : Nat) ≤ width

instance (column : Int) (line : List (List Char)) : Decidable (KeepsWidth len width column line) :=
  inferInstanceAs (Decidable (_ → _))

/-- Words divided into lines, the first of which starts at another column than the rest. -/
structure Division (initial offset : Int) (ws : List (List Char))
    (lines : List (List (List Char))) : Prop where
  flatten : lines.flatten = ws
  nonempty : ∀ l ∈ lines, l ≠ []
  first : ∀ l ∈ lines.head?, KeepsWidth len width initial l
  later : ∀ l ∈ lines.tail, KeepsWidth len width offset l

end Division

variable {len : Measure} {width : Int}

theorem endOf_eq (column : Int) (ws : List (List Char)) :
    endOf len column ws = column + ((ws.map len).sum + ws.length : Nat) := by
  induction ws generalizing column with
  | nil => simp [endOf]
  | cons w ws ih =>
    change endOf len (column + 1 + len w) ws = _
    rw [ih, List.map_cons, List.sum_cons, List.length_cons]
    omega

/-- If the last word ends inside the width then so do those before it. -/
theorem inside_of_endOf_le {column : Int} {ws : List (List Char)}
    (h : endOf len column ws ≤ width) : Inside len width column ws := by
  induction ws generalizing column with
  | nil => trivial
  | cons w ws ih =>
    change endOf len (column + 1 + len w) ws ≤ width at h
    refine ⟨?_, ih h⟩
    rw [endOf_eq] at h
    omega

theorem filled_iff_keepsWidth {column : Int} {line : List (List Char)} :
    Filled len width column line ↔ KeepsWidth len width column line := by
  cases line with
  | nil => simp [Filled, KeepsWidth]
  | cons w ws =>
    have hend : endOf len (column + len w) ws =
        column + (((w :: ws).map len).sum + ((w :: ws).length - 1) : Nat) := by
      rw [endOf_eq, List.map_cons, List.sum_cons, List.length_cons]
      omega
    rw [KeepsWidth, ← hend]
    constructor
    · intro h hlong
      exact endOf_le h (by rintro rfl; simp at hlong)
    · intro h
      cases ws with
      | nil => trivial
      | cons v vs => exact inside_of_endOf_le (h (by simp))

section Greed

variable {offset : Int}

theorem fillFrom_cons {line : List (List Char)} (hline : line ≠ []) (column : Int) (w : List Char)
    (ws : List (List Char)) :
    fillFrom len width offset line column (w :: ws) =
      if column + 1 + len w ≤ width then
        fillFrom len width offset (w :: line) (column + 1 + len w) ws
      else joinWords line.reverse :: fillFrom len width offset [w] (offset + len w) ws := by
  rw [fillFrom, if_neg (by simpa using hline)]

/-- Greed stays ahead of a rival that puts some words behind the column `rival` and has `count` lines
after that: behind no greater column it needs no more lines, and behind any column at most one
more. -/
theorem length_fillFrom_append_le {rest : List (List Char)} {count : Nat}
    (hrest : ∀ line column, line ≠ [] →
      (fillFrom len width offset line column rest).length ≤ 1 + count)
    {ws : List (List Char)} {rival : Int} (line : List (List Char)) (column : Int)
    (hws : Inside len width rival ws) (hline : line ≠ []) :
    (column ≤ rival →
        (fillFrom len width offset line column (ws ++ rest)).length ≤ 1 + count) ∧
      (offset ≤ rival + 1 →
        (fillFrom len width offset line column (ws ++ rest)).length ≤ 2 + count) := by
  induction ws generalizing line rival column with
  | nil =>
    have hle := hrest line column hline
    exact ⟨fun _ => hle, fun _ => by rw [List.nil_append]; omega⟩
  | cons w ws ih =>
    obtain ⟨hw, hws⟩ := hws
    rw [List.cons_append, fillFrom_cons hline]
    have hnext := ih (w :: line) (column + 1 + len w) hws (by simp)
    have hbroken := ih [w] (offset + len w) hws (by simp)
    constructor
    · intro hcolumn
      rw [if_pos (by omega)]
      exact hnext.1 (by omega)
    · intro hoffset
      split
      · exact hnext.2 (by omega)
      · have hle := hbroken.1 (by omega)
        rw [List.length_cons]
        omega

/-- Behind a line that is begun, words need no more lines than in any division of theirs. -/
theorem length_fillFrom_le {lines : List (List (List Char))}
    (hlines : ∀ l ∈ lines, l ≠ [] ∧ Filled len width offset l) {line : List (List Char)}
    (column : Int) (hline : line ≠ []) :
    (fillFrom len width offset line column lines.flatten).length ≤ 1 + lines.length := by
  induction lines generalizing line column with
  | nil =>
    have hfull : line.isEmpty = false := by simpa using hline
    simp [fillFrom, hfull]
  | cons l lines ih =>
    obtain ⟨⟨hne, hfilled⟩, hlater⟩ := List.forall_mem_cons.1 hlines
    obtain ⟨w, ws, rfl⟩ := List.exists_cons_of_ne_nil hne
    have hrest : ∀ line column, line ≠ [] →
        (fillFrom len width offset line column lines.flatten).length ≤ 1 + lines.length :=
      fun line column hl => ih hlater column hl
    rw [List.flatten_cons, List.cons_append, fillFrom_cons hline, List.length_cons]
    split
    · -- The rival has broken its line, and greed has not yet.
      have hle := (length_fillFrom_append_le hrest (w :: line) (column + 1 + len w) hfilled
        (by simp)).2 (by omega)
      omega
    · have hle := (length_fillFrom_append_le hrest [w] (offset + len w) hfilled
        (by simp)).1 (Int.le_refl _)
      rw [List.length_cons]
      omega

end Greed

theorem length_wrap_le {initial offset : Int} {s : List Char} {lines : List (List (List Char))}
    (h : Division len width initial offset (words s) lines) :
    (wrap len s width initial offset).length ≤ lines.length := by
  cases lines with
  | nil =>
    rw [wrap_of_words_nil len width initial offset h.flatten.symm]
    exact Nat.le_refl _
  | cons l lines =>
    have hlater : ∀ l' ∈ lines, l' ≠ [] ∧ Filled len width offset l' := fun l' hl' =>
      ⟨h.nonempty l' (List.mem_cons_of_mem l hl'), filled_iff_keepsWidth.2 (h.later l' hl')⟩
    obtain ⟨w, ws, rfl⟩ := List.exists_cons_of_ne_nil (h.nonempty l List.mem_cons_self)
    have hfilled : Filled len width initial (w :: ws) := filled_iff_keepsWidth.2 (h.first _ rfl)
    rw [wrap, ← h.flatten, List.flatten_cons, List.cons_append, fillFrom, if_pos List.isEmpty_nil,
      List.length_cons]
    have hle := (length_fillFrom_append_le (fun line column hl => length_fillFrom_le hlater column hl)
      [w] (initial + len w) hfilled (by simp)).1 (Int.le_refl _)
    omega

/-- The lines of a wrapped text are its words in order. None is empty, each keeps the width unless it
is a single word, and no other division of the words into such lines has fewer. -/
theorem wrap_fewest (len : Measure) (s : List Char) (width initial offset : Int) :
    joinWords (wrap len s width initial offset) = normalize s ∧
      (∀ l ∈ wrap len s width initial offset, l ≠ []) ∧
      ∃ lines, wrap len s width initial offset = lines.map joinWords ∧
        Division len width initial offset (words s) lines ∧
        ∀ lines', Division len width initial offset (words s) lines' →
          lines.length ≤ lines'.length := by
  obtain ⟨lines, hwrap, hflatten, hne, hfirst, hlater⟩ := wrap_groups len s width initial offset
  have hdivision : Division len width initial offset (words s) lines :=
    ⟨hflatten, hne, fun l hl => filled_iff_keepsWidth.1 (hfirst l hl),
      fun l hl => filled_iff_keepsWidth.1 (hlater l hl)⟩
  refine ⟨?_, ?_, lines, hwrap, hdivision, fun lines' h => ?_⟩
  · rw [hwrap, ← Text.joinWords_flatten hne, hflatten]
    rfl
  · rw [hwrap]
    intro l hl
    obtain ⟨g, hg, rfl⟩ := List.mem_map.1 hl
    obtain ⟨w, ws, rfl⟩ := List.exists_cons_of_ne_nil (hne g hg)
    have hw : Text.Word w := Text.word_of_mem_words (s := s) (by
      rw [← hflatten]
      exact List.mem_flatten_of_mem hg List.mem_cons_self)
    cases ws with
    | nil => exact hw.ne_nil
    | cons v vs =>
      rw [Text.joinWords_cons_cons]
      simp
  · have hle := length_wrap_le h
    rwa [hwrap, List.length_map] at hle

-- The first line starts further right than the others, and a rival breaks the second one earlier.
theorem wrap_fewest_margins :
    let s := "a bb  ccc\ndddd ee".toList
    let rival := ["a bb", "ccc", "dddd ee"].map fun l => words l.toList
    wrap List.length s 8 1 0 = ["a bb", "ccc dddd", "ee"].map String.toList ∧
      Division List.length 8 1 0 (words s) rival ∧
      (wrap List.length s 8 1 0).length ≤ rival.length := by
  intro s rival
  have hrival : Division List.length 8 1 0 (words s) rival :=
    ⟨by decide, by decide, by decide, by decide⟩
  obtain ⟨-, -, lines, hwrap, -, hfewest⟩ := wrap_fewest List.length s 8 1 0
  refine ⟨by decide, hrival, ?_⟩
  rw [hwrap, List.length_map]
  exact hfewest rival hrival

end ErbLayout.Layout
