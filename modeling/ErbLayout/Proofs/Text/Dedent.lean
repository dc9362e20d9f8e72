import ErbLayout.Proofs.Text.Split
/-!
A block of lines that is moved from the margin it shares to another one. Every line keeps the indent
that it has beyond the margin and loses what is white space at its end, so the other margin is found
again in what comes out, and to move the block once more is to move it there at once.
-/

namespace ErbLayout.Text

variable {l l' m m' s t u v : List Char} {ls ls' : List (List Char)}

theorem leadingIndent_append (h : isIndentOnly s = true) (t : List Char) :
    leadingIndent (s ++ t) = s ++ leadingIndent t :=
  List.takeWhile_append_of_pos (List.all_eq_true.1 h)

theorem leadingIndent_eq_nil (h : ∀ c ∈ s.head?, isIndent c = false) : leadingIndent s = [] := by
  cases s with
  | nil => rfl
  | cons c s => exact List.takeWhile_cons_of_neg (by simp [h c rfl])

theorem isIndentOnly_append (s t : List Char) :
    isIndentOnly (s ++ t) = (isIndentOnly s && isIndentOnly t) := List.all_append

theorem isIndentOnly_leadingIndent (s : List Char) : isIndentOnly (leadingIndent s) = true :=
  List.all_eq_true.2 fun _ hc => List.mem_takeWhile_imp hc

theorem allBlank_of_isIndentOnly (h : isIndentOnly s = true) : allBlank s = true :=
  List.all_eq_true.2 fun c hc => isBlank_of_isIndent (List.all_eq_true.1 h c hc)

theorem isIndentOnly_eq_false (h : allBlank s = false) : isIndentOnly s = false := by
  cases hs : isIndentOnly s with
  | false => rfl
  | true =>
    rw [allBlank_of_isIndentOnly hs] at h
    exact absurd h (by simp)

theorem commonPrefix_append (m s t : List Char) :
    commonPrefix (m ++ s) (m ++ t) = m ++ commonPrefix s t := by
  induction m with
  | nil => rfl
  | cons c m ih => rw [List.cons_append, List.cons_append, commonPrefix, if_pos rfl, ih]; rfl

theorem allBlank_trimRight (s : List Char) : allBlank (trimRight s) = allBlank s := by
  rw [Bool.eq_iff_iff, ← words_eq_nil_iff, ← words_eq_nil_iff, words_trimRight]

theorem head?_trimRight (h : allBlank s = false) : (trimRight s).head? = s.head? := by
  obtain ⟨g, hs, -, -⟩ := trimRight_append s
  conv_rhs => rw [hs]
  rw [← allBlank_trimRight] at h
  cases hr : trimRight s with
  | nil => simp [hr, allBlank] at h
  | cons c r => rfl

/-- A line behind the margin `m` and the same line behind `m'`, without white space at its end. The
code `u` of the line is what comes behind the spaces and tabs that it begins with; a line of nothing
else becomes empty. -/
inductive Moved (m m' : List Char) : List Char → List Char → Prop where
  | blank {l : List Char} (h : isIndentOnly l = true) : Moved m m' l []
  | code {v u : List Char} (hv : isIndentOnly v = true)
      (hu : ∀ c ∈ u.head?, isIndent c = false) (hne : allBlank u = false) :
      Moved m m' (m ++ (v ++ u)) (m' ++ (v ++ trimRight u))

theorem Moved.isIndentOnly_eq (h : Moved m m' l l') : isIndentOnly l' = isIndentOnly l := by
  cases h with
  | blank h => rw [h]; rfl
  | @code v u hv hu hne =>
    have hne' : allBlank (trimRight u) = false := by rwa [allBlank_trimRight]
    simp only [isIndentOnly_append, isIndentOnly_eq_false hne, isIndentOnly_eq_false hne',
      Bool.and_false]

theorem Moved.endsBlank (h : Moved m m' l l') : endsBlank l' = false := by
  cases h with
  | blank => rfl
  | @code v u hv hu hne =>
    have hcode : trimRight u ≠ [] := by
      rintro hnil
      rw [← allBlank_trimRight, hnil] at hne
      exact absurd hne (by simp [allBlank])
    rw [endsBlank_append (by simp [hcode]), endsBlank_append hcode, endsBlank_trimRight]

theorem Moved.eq_nil (h : Moved m m' l []) : isIndentOnly l = true := by
  rw [← h.isIndentOnly_eq]
  rfl

theorem Moved.newline_not_mem (h : Moved m m' l l') (hm' : isIndentOnly m' = true)
    (hl : '\n' ∉ l) : '\n' ∉ l' := by
  cases h with
  | blank => exact List.not_mem_nil
  | @code v u hv hu hne =>
    have hmargin : '\n' ∉ m' := fun hmem => absurd (List.all_eq_true.1 hm' _ hmem) (by decide)
    obtain ⟨g, hg, -⟩ := trimRight_append u
    rw [hg] at hl
    simp only [List.mem_append, not_or] at hl ⊢
    exact ⟨hmargin, hl.2.1, hl.2.2.1⟩

theorem isIndentOnly_of_moved (h : List.Forall₂ (Moved m m') ls ls') :
    ls'.all isIndentOnly = ls.all isIndentOnly := by
  induction h with
  | nil => rfl
  | cons hl _ ih => rw [List.all_cons, List.all_cons, hl.isIndentOnly_eq, ih]

/-- What lines share beyond one margin they share beyond the other. -/
theorem margin_of_moved (hm : isIndentOnly m = true) (hm' : isIndentOnly m' = true)
    (h : List.Forall₂ (Moved m m') ls ls') (hne : ls.all isIndentOnly = false) :
    ∃ r, margin ls = m ++ r ∧ margin ls' = m' ++ r := by
  induction h with
  | nil => simp at hne
  | @cons l l' ls ls' hl hls ih =>
    have hblank := hl.isIndentOnly_eq
    rw [margin, margin, hblank, isIndentOnly_of_moved hls]
    cases hl with
    | blank hl =>
      rw [List.all_cons, hl, Bool.true_and] at hne
      simpa [hl] using ih hne
    | @code v u hv hu hcode =>
      have hu' : ∀ c ∈ (trimRight u).head?, isIndent c = false := by rwa [head?_trimRight hcode]
      have hcontent : isIndentOnly (m ++ (v ++ u)) = false := by
        simp [isIndentOnly_append, isIndentOnly_eq_false hcode]
      rw [hcontent, leadingIndent_append hm, leadingIndent_append hv, leadingIndent_eq_nil hu,
        leadingIndent_append hm', leadingIndent_append hv, leadingIndent_eq_nil hu', List.append_nil]
      simp only [Bool.false_eq_true, if_false]
      cases hall : ls.all isIndentOnly with
      | true => exact ⟨v, by simp, by simp⟩
      | false =>
        obtain ⟨r, hr, hr'⟩ := ih hall
        refine ⟨commonPrefix v r, ?_, ?_⟩
        · simp [hr, commonPrefix_append]
        · simp [hr', commonPrefix_append]

/-- A line that is taken from the margin `m` to `m'`. -/
def moveLine (m m' l : List Char) : List Char :=
  let inner := if isIndentOnly l then [] else l.drop m.length
  if allBlank inner then [] else trimRight (m' ++ inner)

/-- Lines that are taken from the margin that they share to `m'`. -/
def moveTo (m' : List Char) (ls : List (List Char)) : List (List Char) :=
  ls.map (moveLine (margin ls) m')

theorem moveLine_of_isIndentOnly (h : isIndentOnly l = true) (m m' : List Char) :
    moveLine m m' l = [] := by
  rw [moveLine, if_pos h]
  rfl

theorem moveLine_code (hne : allBlank u = false) (m m' v : List Char) :
    moveLine m m' (m ++ (v ++ u)) = m' ++ (v ++ trimRight u) := by
  have hinner : allBlank (v ++ u) = false := by
    rw [allBlank, List.all_append, ← allBlank, ← allBlank, hne, Bool.and_false]
  have hcontent : isIndentOnly (m ++ (v ++ u)) = false := by
    rw [isIndentOnly_append, isIndentOnly_eq_false hinner, Bool.and_false]
  rw [moveLine, hcontent]
  simp only [Bool.false_eq_true, if_false, List.drop_left, hinner]
  rw [trimRight_append_of_not_blank hinner, trimRight_append_of_not_blank hne]

theorem Moved.moveLine_eq (h : Moved m m' l l') (m'' : List Char) :
    moveLine m' m'' l' = moveLine m m'' l := by
  cases h with
  | blank h => rw [moveLine_of_isIndentOnly h, moveLine_of_isIndentOnly (by rfl)]
  | @code v u hv hu hne =>
    have hend : trimRight (trimRight u) = trimRight u := trimRight_eq_self (endsBlank_trimRight u)
    rw [moveLine_code hne, moveLine_code (by rwa [allBlank_trimRight]), hend]

section Block

/-! Lines that are white space are spaces and tabs only. -/

variable (h : ∀ l ∈ ls, allBlank l = true → isIndentOnly l = true)
include h

theorem moved_moveLine (hl : l ∈ ls) (m' : List Char) :
    Moved (margin ls) m' l (moveLine (margin ls) m' l) := by
  cases hblank : isIndentOnly l with
  | true =>
    rw [moveLine_of_isIndentOnly hblank]
    exact .blank hblank
  | false =>
    obtain ⟨v, hv⟩ := margin_initial hl hblank
    have hline : l = margin ls ++ (v ++ l.dropWhile isIndent) := by
      rw [← List.append_assoc, hv, leadingIndent, List.takeWhile_append_dropWhile]
    have hindent : isIndentOnly v = true := by
      have hall := isIndentOnly_leadingIndent l
      rw [← hv, isIndentOnly_append, Bool.and_eq_true] at hall
      exact hall.2
    have hcode : allBlank (l.dropWhile isIndent) = false := by
      cases hall : allBlank (l.dropWhile isIndent) with
      | false => rfl
      | true =>
        have hl' : allBlank l = true := by
          rw [← List.takeWhile_append_dropWhile (p := isIndent) (l := l), allBlank, List.all_append,
            Bool.and_eq_true]
          exact ⟨allBlank_of_isIndentOnly (isIndentOnly_leadingIndent l), hall⟩
        rw [h l hl hl'] at hblank
        exact absurd hblank (by simp)
    have hhead : ∀ c ∈ (l.dropWhile isIndent).head?, isIndent c = false := by
      intro c hc
      have hstop := List.head?_dropWhile_not isIndent l
      rw [hc] at hstop
      simpa using hstop
    have hmoved : Moved (margin ls) m' (margin ls ++ (v ++ l.dropWhile isIndent))
        (m' ++ (v ++ trimRight (l.dropWhile isIndent))) := .code hindent hhead hcode
    rw [← moveLine_code hcode, ← hline] at hmoved
    exact hmoved

theorem moved_moveTo (m' : List Char) : List.Forall₂ (Moved (margin ls) m') ls (moveTo m' ls) := by
  rw [moveTo, List.forall₂_map_right_iff, List.forall₂_same]
  exact fun l hl => moved_moveLine h hl m'

/-- The margin of lines that were moved is the one that they were moved to. -/
theorem margin_moveTo (hm' : isIndentOnly m' = true) (hne : ls.all isIndentOnly = false) :
    margin (moveTo m' ls) = m' := by
  have hm : isIndentOnly (margin ls) = true := by
    obtain ⟨l, hl, hcontent⟩ := List.all_eq_false.1 hne
    obtain ⟨v, hv⟩ := margin_initial hl (by simpa using hcontent)
    have hall := isIndentOnly_leadingIndent l
    rw [← hv, isIndentOnly_append, Bool.and_eq_true] at hall
    exact hall.1
  obtain ⟨r, hr, hr'⟩ := margin_of_moved hm hm' (moved_moveTo h m') hne
  rw [hr', List.self_eq_append_right.1 hr, List.append_nil]

theorem moveTo_moveTo (hm' : isIndentOnly m' = true) (m'' : List Char) :
    moveTo m'' (moveTo m' ls) = moveTo m'' ls := by
  rw [moveTo, moveTo, List.map_map, moveTo]
  refine List.map_congr_left fun l hl => ?_
  rw [Function.comp_apply]
  cases hblank : isIndentOnly l with
  | true =>
    rw [moveLine_of_isIndentOnly hblank, moveLine_of_isIndentOnly hblank,
      moveLine_of_isIndentOnly (by rfl)]
  | false =>
    have hne : ls.all isIndentOnly = false := List.all_eq_false.2 ⟨l, hl, by simp [hblank]⟩
    rw [← moveTo, margin_moveTo h hm' hne]
    exact (moved_moveLine h hl m').moveLine_eq m''

end Block

end ErbLayout.Text
