import ErbLayout.Layout.Wrap
import ErbLayout.Proofs.Text.Lines
/-!
How far the lines of an output reach, from stretch to stretch. A space between words may stand only
on a line that ends inside the margin, unless copied text begins on the line.
-/

namespace ErbLayout.Layout

open Text (firstLine lastLine)

/-- A stretch of the output with the white space before it. Text that is only copied is not kept
inside the margin. -/
structure Leaf where
  copied : Bool
  gap : List Char
  text : List Char

namespace Leaf

def stretch (l : Leaf) : List Char × List Char := (l.gap, l.text)

/-- Behind a space at which the line could have been broken. -/
def Spaced (l : Leaf) : Prop := l.gap ≠ [] ∧ '\n' ∉ l.gap

/-- On one line with what stands before it. -/
def Flat (l : Leaf) : Prop := '\n' ∉ l.gap ∧ '\n' ∉ l.text

end Leaf

section Reach

variable (len : Measure)

/-- The column that a line has got to, from the column before a stretch. -/
def advance (column : Nat) (l : Leaf) : Nat :=
  if '\n' ∈ l.text then len (lastLine l.text)
  else if '\n' ∈ l.gap then len (lastLine l.gap) + len l.text
  else column + len l.gap + len l.text

def reach (column : Nat) (ls : List Leaf) : Nat := ls.foldl (advance len) column

/-- The column at which a line ends that has got to a column. -/
def lineEnd (column : Nat) : List Leaf → Nat
  | [] => column
  | l :: ls =>
    if '\n' ∈ l.gap then column + len (firstLine l.gap)
    else if '\n' ∈ l.text then column + len l.gap + len (firstLine l.text)
    else lineEnd (advance len column l) ls

/-- Copied text begins on a line, inside the margin. -/
def Held (width : Int) (column : Nat) (ls : List Leaf) : Prop :=
  ∃ mid l post, ls = mid ++ l :: post ∧ (∀ m ∈ mid, m.Flat) ∧ (reach len column mid : Int) ≤ width ∧
    l.copied = true ∧ '\n' ∉ l.gap ∧ firstLine l.text ≠ []

/-- Every line with a space between words ends inside the margin, up to copied text. -/
def Fitting (width : Int) (column : Nat) : List Leaf → Prop
  | [] => True
  | l :: ls =>
    (l.Spaced → (column : Int) ≤ width ∧
      ((lineEnd len column (l :: ls) : Int) ≤ width ∨ Held len width column (l :: ls))) ∧
    Fitting width (advance len column l) ls

/-- There is a space between words on the last line. -/
def Crowded (ls : List Leaf) : Prop :=
  ∃ pre l post, ls = pre ++ l :: post ∧ l.Spaced ∧ '\n' ∉ l.text ∧ ∀ m ∈ post, m.Flat

end Reach

variable {len : Measure} {width : Int} {column : Nat} {ls ms : List Leaf}

theorem reach_append (column : Nat) (ls ms : List Leaf) :
    reach len column (ls ++ ms) = reach len (reach len column ls) ms := List.foldl_append

theorem lineEnd_append_of_flat (h : ∀ l ∈ ls, l.Flat) (ms : List Leaf) :
    lineEnd len column (ls ++ ms) = lineEnd len (reach len column ls) ms := by
  induction ls generalizing column with
  | nil => rfl
  | cons l ls ih =>
    obtain ⟨hgap, htext⟩ := h l List.mem_cons_self
    rw [List.cons_append, lineEnd, if_neg hgap, if_neg htext,
      ih fun m hm => h m (List.mem_cons_of_mem l hm)]
    rfl

theorem lineEnd_of_flat (h : ∀ l ∈ ls, l.Flat) : lineEnd len column ls = reach len column ls := by
  have hnil : lineEnd len column (ls ++ []) = lineEnd len (reach len column ls) [] :=
    lineEnd_append_of_flat h []
  rwa [List.append_nil] at hnil

theorem lineEnd_append_of_broken (h : ¬ ∀ l ∈ ls, l.Flat) (ms : List Leaf) :
    lineEnd len column (ls ++ ms) = lineEnd len column ls := by
  induction ls generalizing column with
  | nil => simp at h
  | cons l ls ih =>
    rw [List.cons_append, lineEnd, lineEnd]
    by_cases hgap : '\n' ∈ l.gap
    · rw [if_pos hgap, if_pos hgap]
    · by_cases htext : '\n' ∈ l.text
      · rw [if_neg hgap, if_neg hgap, if_pos htext, if_pos htext]
      · rw [if_neg hgap, if_neg hgap, if_neg htext, if_neg htext]
        refine ih fun hls => h ?_
        exact List.forall_mem_cons.2 ⟨⟨hgap, htext⟩, hls⟩

theorem Held.append (h : Held len width column ls) (ms : List Leaf) :
    Held len width column (ls ++ ms) := by
  obtain ⟨mid, l, post, rfl, hrest⟩ := h
  exact ⟨mid, l, post ++ ms, by simp, hrest⟩

theorem Held.behind (hls : ∀ l ∈ ls, l.Flat) (h : Held len width (reach len column ls) ms) :
    Held len width column (ls ++ ms) := by
  obtain ⟨mid, l, post, rfl, hmid, hreach, hrest⟩ := h
  refine ⟨ls ++ mid, l, post, by simp, List.forall_mem_append.2 ⟨hls, hmid⟩, ?_, hrest⟩
  rwa [reach_append]

theorem Held.of_broken (h : Held len width column (ls ++ ms)) (hls : ¬ ∀ l ∈ ls, l.Flat) :
    Held len width column ls := by
  obtain ⟨mid, l, post, he, hmid, hrest⟩ := h
  rcases List.append_eq_append_iff.1 he with ⟨x, rfl, -⟩ | ⟨x, rfl, hx⟩
  · exact absurd (fun l hl => hmid l (List.mem_append_left x hl)) hls
  · cases x with
    | nil =>
      rw [List.append_nil] at hls
      exact absurd hmid hls
    | cons l' x =>
      obtain ⟨rfl, rfl⟩ := List.cons.inj hx
      exact ⟨mid, l, x, rfl, hmid, hrest⟩

theorem Crowded.cons {l : Leaf} (h : Crowded ls) : Crowded (l :: ls) := by
  obtain ⟨pre, m, post, rfl, hrest⟩ := h
  exact ⟨l :: pre, m, post, rfl, hrest⟩

theorem Fitting.at_spaced (pre : List Leaf) {post : List Leaf} {l : Leaf}
    (h : Fitting len width column (pre ++ l :: post)) (hl : l.Spaced) :
    (reach len column pre : Int) ≤ width ∧
      ((lineEnd len (reach len column pre) (l :: post) : Int) ≤ width ∨
        Held len width (reach len column pre) (l :: post)) := by
  induction pre generalizing column with
  | nil => exact h.1 hl
  | cons m pre ih => exact ih h.2

theorem eq_concat_cases {pre post : List Leaf} {l m : Leaf} (h : pre ++ m :: post = ls ++ [l]) :
    (m = l ∧ post = [] ∧ pre = ls) ∨ ∃ post', post = post' ++ [l] ∧ ls = pre ++ m :: post' := by
  rcases List.eq_nil_or_concat post with rfl | ⟨post, l', rfl⟩
  · obtain ⟨rfl, rfl⟩ := List.append_singleton_inj.1 h
    exact .inl ⟨rfl, rfl, rfl⟩
  · rw [List.concat_eq_append, ← List.cons_append, ← List.append_assoc] at h
    obtain ⟨rfl, rfl⟩ := List.append_singleton_inj.1 h
    exact .inr ⟨post, List.concat_eq_append, rfl⟩

theorem crowded_of_concat {l : Leaf} (hl : ¬ l.Spaced) (h : Crowded (ls ++ [l])) :
    Crowded ls ∧ l.Flat := by
  obtain ⟨pre, m, post, he, hspaced, htext, hpost⟩ := h
  rcases eq_concat_cases he.symm with ⟨rfl, -, -⟩ | ⟨post, rfl, rfl⟩
  · exact absurd hspaced hl
  · obtain ⟨hflat, hlast⟩ := List.forall_mem_append.1 hpost
    exact ⟨⟨pre, m, post, rfl, hspaced, htext, hflat⟩, hlast l (by simp)⟩

theorem not_crowded_of_broken {pre post : List Leaf} {l : Leaf} (hgap : '\n' ∈ l.gap)
    (hpost : ∀ m ∈ post, ¬ m.Spaced) : ¬ Crowded (pre ++ l :: post) := by
  rintro ⟨pre', m, post', he, hspaced, -, hflat⟩
  rcases List.append_eq_append_iff.1 he with ⟨x, -, hx⟩ | ⟨x, -, hx⟩
  · cases x with
    | nil =>
      obtain ⟨rfl, -⟩ := List.cons.inj hx
      exact hspaced.2 hgap
    | cons y x =>
      obtain ⟨-, rfl⟩ := List.cons.inj hx
      exact hpost m (by simp) hspaced
  · cases x with
    | nil =>
      obtain ⟨rfl, -⟩ := List.cons.inj hx
      exact hspaced.2 hgap
    | cons y x =>
      obtain ⟨-, rfl⟩ := List.cons.inj hx
      exact (hflat l (by simp)).1 hgap

theorem reach_add_of_flat (h : ∀ l ∈ ls, l.Flat) (a b : Nat) :
    reach len (a + b) ls = a + reach len b ls := by
  induction ls generalizing b with
  | nil => rfl
  | cons l ls ih =>
    obtain ⟨hgap, htext⟩ := h l List.mem_cons_self
    have hadvance (c : Nat) : advance len c l = c + (len l.gap + len l.text) := by
      rw [advance, if_neg htext, if_neg hgap, Nat.add_assoc]
    change reach len (advance len (a + b) l) ls = a + reach len (advance len b l) ls
    rw [hadvance, hadvance, Nat.add_assoc, ih fun m hm => h m (List.mem_cons_of_mem l hm)]

theorem lineEnd_flush (hnil : len [] = 0) (copied : Bool) (s : List Char) :
    lineEnd len column [⟨copied, [], s⟩] = column + len (firstLine s) := by
  by_cases h : '\n' ∈ s
  · simp [lineEnd, h, hnil]
  · simp [lineEnd, advance, h, hnil, Text.firstLine_of_not_mem h]

/-- More can be written when the last line stays inside the margin. -/
theorem Fitting.append (h : Fitting len width column ls)
    (hms : Fitting len width (reach len column ls) ms)
    (hend : Crowded ls → (reach len column ls : Int) ≤ width →
      (lineEnd len (reach len column ls) ms : Int) ≤ width ∨
        Held len width (reach len column ls) ms) :
    Fitting len width column (ls ++ ms) := by
  induction ls generalizing column with
  | nil => exact hms
  | cons l ls ih =>
    obtain ⟨hl, hls⟩ := h
    refine ⟨fun hspaced => ?_, ih hls hms fun hcrowded => hend hcrowded.cons⟩
    obtain ⟨hcolumn, hline⟩ := hl hspaced
    refine ⟨hcolumn, ?_⟩
    -- Only if nothing breaks the line of `l` does it go on in `ms`, and then it is the last one.
    change (lineEnd len column (l :: ls ++ ms) : Int) ≤ width ∨
      Held len width column (l :: ls ++ ms)
    by_cases hflat : ∀ m ∈ l :: ls, m.Flat
    · rcases hline with hline | hheld
      · rw [lineEnd_of_flat hflat] at hline
        have hcrowded : Crowded (l :: ls) := ⟨[], l, ls, rfl, hspaced,
          (hflat l List.mem_cons_self).2, fun m hm => hflat m (List.mem_cons_of_mem l hm)⟩
        rw [lineEnd_append_of_flat hflat]
        exact (hend hcrowded hline).imp_right (Held.behind hflat)
      · exact .inr (hheld.append ms)
    · rw [lineEnd_append_of_broken hflat]
      exact hline.imp_right fun hheld => hheld.append ms

theorem fitting_of_not_spaced (h : ∀ l ∈ ls, ¬ l.Spaced) : Fitting len width column ls := by
  induction ls generalizing column with
  | nil => trivial
  | cons l ls ih =>
    exact ⟨fun hl => absurd hl (h l List.mem_cons_self),
      ih fun m hm => h m (List.mem_cons_of_mem l hm)⟩

/-- The last space of a line may become a line break. -/
theorem Fitting.broken {pre post : List Leaf} {l l' : Leaf} (hnil : len [] = 0)
    (h : Fitting len width column (pre ++ l :: post)) (hl : l.Spaced)
    (hpost : ∀ m ∈ post, ¬ m.Spaced) (hgap : '\n' ∈ l'.gap) (hfirst : firstLine l'.gap = []) :
    Fitting len width column (pre ++ l' :: post) := by
  induction pre generalizing column with
  | nil => exact ⟨fun hspaced => absurd hgap hspaced.2, fitting_of_not_spaced hpost⟩
  | cons m pre ih =>
    refine ⟨fun hspaced => ?_, ih h.2⟩
    obtain ⟨hcolumn, hline⟩ := h.1 hspaced
    refine ⟨hcolumn, ?_⟩
    have hreach := (Fitting.at_spaced (m :: pre) h hl).1
    change (lineEnd len column (m :: pre ++ l :: post) : Int) ≤ width ∨
      Held len width column (m :: pre ++ l :: post) at hline
    change (lineEnd len column (m :: pre ++ l' :: post) : Int) ≤ width ∨
      Held len width column (m :: pre ++ l' :: post)
    by_cases hflat : ∀ k ∈ m :: pre, k.Flat
    · rw [lineEnd_append_of_flat hflat, lineEnd, if_pos hgap, hfirst, hnil]
      exact .inl hreach
    · rw [lineEnd_append_of_broken hflat] at hline ⊢
      exact hline.imp_right fun hheld => (hheld.of_broken hflat).append _

theorem advance_mono {column' : Nat} (h : column' ≤ column) (l : Leaf) :
    advance len column' l ≤ advance len column l := by
  unfold advance
  split
  · exact le_rfl
  · split
    · exact le_rfl
    · omega

theorem reach_mono {column' : Nat} (h : column' ≤ column) (ls : List Leaf) :
    reach len column' ls ≤ reach len column ls := by
  induction ls generalizing column column' with
  | nil => exact h
  | cons l ls ih => exact ih (advance_mono h l)

theorem lineEnd_mono {column' : Nat} (h : column' ≤ column) (ls : List Leaf) :
    lineEnd len column' ls ≤ lineEnd len column ls := by
  induction ls generalizing column column' with
  | nil => exact h
  | cons l ls ih =>
    rw [lineEnd, lineEnd]
    split
    · omega
    · split
      · omega
      · exact ih (advance_mono h l)

theorem Held.mono {column' : Nat} (hheld : Held len width column ls) (h : column' ≤ column) :
    Held len width column' ls := by
  obtain ⟨mid, l, post, he, hmid, hreach, hrest⟩ := hheld
  have hle : reach len column' mid ≤ reach len column mid := reach_mono h mid
  exact ⟨mid, l, post, he, hmid, by omega, hrest⟩

theorem Fitting.mono {column' : Nat} (hfits : Fitting len width column ls) (h : column' ≤ column) :
    Fitting len width column' ls := by
  induction ls generalizing column column' with
  | nil => trivial
  | cons l ls ih =>
    refine ⟨fun hspaced => ?_, ih hfits.2 (advance_mono h l)⟩
    obtain ⟨hcolumn, hline⟩ := hfits.1 hspaced
    have hle : lineEnd len column' (l :: ls) ≤ lineEnd len column (l :: ls) := lineEnd_mono h _
    exact ⟨by omega, hline.imp (fun hend => by omega) fun hheld => hheld.mono h⟩

theorem Fitting.of_flush (hnil : len [] = 0) {l : Leaf} (h : Fitting len width 0 (l :: ls)) :
    Fitting len width 0 (⟨l.copied, [], l.text⟩ :: ls) := by
  refine ⟨fun hspaced => absurd rfl hspaced.1, h.2.mono ?_⟩
  by_cases htext : '\n' ∈ l.text
  · simp [advance, htext]
  · by_cases hgap : '\n' ∈ l.gap <;> simp [advance, htext, hgap, hnil]

end ErbLayout.Layout
