import ErbLayout.Layout.Wrap
import ErbLayout.Proofs.Text.Words
/-!
Wrapped text: its lines are its words in order, and every word but the first of a line ends inside
the width.
-/

namespace ErbLayout.Layout

section Lines

variable (len : Measure) (width : Int)

/-- Where words end that are put behind a column one after another. -/
def endOf (column : Int) (ws : List (List Char)) : Int :=
  ws.foldl (fun c w => c + 1 + len w) column

/-- Each of the words that are put behind a column ends inside the width. -/
def Inside (column : Int) : List (List Char) → Prop
  | [] => True
  | w :: ws => column + 1 + len w ≤ width ∧ Inside (column + 1 + len w) ws

/-- Each word of a line that starts at a column ends inside the width, but for the first. -/
def Filled (column : Int) : List (List Char) → Prop
  | [] => True
  | w :: ws => Inside len width (column + len w) ws

end Lines

variable {len : Measure} {width : Int}

theorem endOf_concat (column : Int) (ws : List (List Char)) (w : List Char) :
    endOf len column (ws ++ [w]) = endOf len column ws + 1 + len w := by
  rw [endOf, List.foldl_append]
  rfl

theorem inside_concat {column : Int} {ws : List (List Char)} {w : List Char}
    (h : Inside len width column ws) (hw : endOf len column ws + 1 + len w ≤ width) :
    Inside len width column (ws ++ [w]) := by
  induction ws generalizing column with
  | nil => exact ⟨hw, trivial⟩
  | cons v ws ih => exact ⟨h.1, ih h.2 hw⟩

theorem endOf_le {column : Int} {ws : List (List Char)} (h : Inside len width column ws)
    (hne : ws ≠ []) : endOf len column ws ≤ width := by
  induction ws generalizing column with
  | nil => exact absurd rfl hne
  | cons v ws ih =>
    cases ws with
    | nil => exact h.1
    | cons u us => exact ih h.2 (by simp)

/-- The current line of a text that is wrapped, with its last word first, from where it starts to
where it has got. -/
structure Filling (len : Measure) (width start column : Int) (line : List (List Char)) : Prop where
  empty : line = [] → column = start
  words : ∀ v vs, line.reverse = v :: vs →
    Inside len width (start + len v) vs ∧ column = endOf len (start + len v) vs

theorem filling_empty (start : Int) : Filling len width start start [] :=
  ⟨fun _ => rfl, by simp⟩

theorem filling_first (start : Int) (w : List Char) :
    Filling len width start (start + len w) [w] := by
  refine ⟨by simp, fun v vs he => ?_⟩
  obtain ⟨rfl, rfl⟩ := List.cons.inj he
  exact ⟨trivial, rfl⟩

theorem Filling.next {start column : Int} {line : List (List Char)}
    (h : Filling len width start column line) (hne : line ≠ []) {w : List Char}
    (hfit : column + 1 + len w ≤ width) :
    Filling len width start (column + 1 + len w) (w :: line) := by
  refine ⟨by simp, fun v vs he => ?_⟩
  rw [List.reverse_cons] at he
  cases hr : line.reverse with
  | nil => exact absurd (List.reverse_eq_nil_iff.1 hr) hne
  | cons u us =>
    rw [hr] at he
    obtain ⟨rfl, rfl⟩ := List.cons.inj he
    obtain ⟨hinside, hcolumn⟩ := h.words u us hr
    exact ⟨inside_concat hinside (hcolumn ▸ hfit), hcolumn ▸ (endOf_concat _ us w).symm⟩

theorem Filling.filled {start column : Int} {line : List (List Char)}
    (h : Filling len width start column line) : Filled len width start line.reverse := by
  cases hr : line.reverse with
  | nil => trivial
  | cons v vs => exact (h.words v vs hr).1

theorem Filling.groups {start column : Int} {line : List (List Char)}
    (h : Filling len width start column line) (offset : Int) (ws : List (List Char)) :
    ∃ groups : List (List (List Char)),
      fillFrom len width offset line column ws = groups.map Text.joinWords ∧
      groups.flatten = line.reverse ++ ws ∧ (∀ g ∈ groups, g ≠ []) ∧
      (∀ g ∈ groups.head?, Filled len width start g) ∧
      ∀ g ∈ groups.tail, Filled len width offset g := by
  fun_induction fillFrom len width offset line column ws generalizing start with
  | case1 line column hempty => exact ⟨[], rfl, by simp_all, by simp, by simp, by simp⟩
  | case2 line column hempty =>
    exact ⟨[line.reverse], rfl, by simp, by simpa using hempty, by simpa using h.filled, by simp⟩
  | case3 line column w ws hempty ih =>
    rw [List.isEmpty_iff] at hempty
    subst hempty
    rw [h.empty rfl] at ih ⊢
    exact ih (filling_first start w)
  | case4 line column w ws hempty hfit ih =>
    obtain ⟨groups, hg, hf, hrest⟩ := ih (h.next (by simpa using hempty) hfit)
    exact ⟨groups, hg, by simpa using hf, hrest⟩
  | case5 line column w ws hempty hfit ih =>
    obtain ⟨groups, hg, hf, hne, hhead, htail⟩ := ih (filling_first offset w)
    refine ⟨line.reverse :: groups, by rw [hg]; rfl, by simpa using hf, ?_,
      by simpa using h.filled, fun g hmem => ?_⟩
    · exact List.forall_mem_cons.2 ⟨by simpa using hempty, hne⟩
    · cases groups with
      | nil => simp at hmem
      | cons g' gs =>
        rcases List.mem_cons.1 hmem with rfl | hmem
        · exact hhead g rfl
        · exact htail g hmem

theorem wrap_groups (len : Measure) (s : List Char) (width initial offset : Int) :
    ∃ groups : List (List (List Char)),
      wrap len s width initial offset = groups.map Text.joinWords ∧
      groups.flatten = Text.words s ∧ (∀ g ∈ groups, g ≠ []) ∧
      (∀ g ∈ groups.head?, Filled len width initial g) ∧
      ∀ g ∈ groups.tail, Filled len width offset g := by
  have hfill : Filling len width initial initial [] := filling_empty initial
  obtain ⟨groups, hg, hf, hrest⟩ := hfill.groups offset (Text.words s)
  exact ⟨groups, hg, by simpa using hf, hrest⟩

theorem wrap_ne_nil (len : Measure) {s : List Char} (width initial offset : Int)
    (h : Text.allBlank s = false) : wrap len s width initial offset ≠ [] := by
  obtain ⟨groups, hg, hf, -⟩ := wrap_groups len s width initial offset
  rw [hg]
  intro hnil
  rw [List.map_eq_nil_iff] at hnil
  rw [hnil, List.flatten_nil] at hf
  rw [Text.words_eq_nil_iff.1 hf.symm] at h
  exact absurd h (by simp)

end ErbLayout.Layout
