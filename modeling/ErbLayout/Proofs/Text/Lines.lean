import ErbLayout.Proofs.Text.Spread
import ErbLayout.Text.Margin
/-!
What is done to the lines of a text leaves its words alone: lines end with white space, and only
white space is taken off them or put before them. The first and the last line of two texts, one
behind the other, are those of one of them or span both.
-/

namespace ErbLayout.Text

theorem allBlank_takeWhile (s : List Char) : allBlank (s.takeWhile isBlank) = true :=
  List.all_eq_true.2 fun _ hc => List.mem_takeWhile_imp hc

theorem words_trimLeft (s : List Char) : words (trimLeft s) = words s := by
  conv_rhs => rw [← List.takeWhile_append_dropWhile (p := isBlank) (l := s)]
  rw [words_allBlank_append (allBlank_takeWhile s)]
  rfl

theorem trimRight_append (s : List Char) : ∃ g, s = trimRight s ++ g ∧ allBlank g = true ∧
    (!g.isEmpty) = endsBlank s := by
  refine ⟨(s.reverse.takeWhile isBlank).reverse, ?_, ?_, ?_⟩
  · rw [trimRight, ← List.reverse_append, List.takeWhile_append_dropWhile, List.reverse_reverse]
  · rw [allBlank, List.all_reverse]
    exact allBlank_takeWhile s.reverse
  · rw [endsBlank]
    cases s.reverse with
    | nil => rfl
    | cons c r =>
      cases hc : isBlank c <;> simp [startsBlank, hc]

theorem endsBlank_trimRight (s : List Char) : endsBlank (trimRight s) = false := by
  rw [endsBlank, trimRight, List.reverse_reverse]
  rcases h : s.reverse.dropWhile isBlank with _ | ⟨c, r⟩
  · rfl
  · exact not_isBlank_head_trimLeft h

theorem trimRight_append_blank {s g : List Char} (hs : endsBlank s = false)
    (hg : allBlank g = true) : trimRight (s ++ g) = s := by
  rw [trimRight, List.reverse_append, List.dropWhile_append_of_pos
    (List.all_eq_true.1 (by rwa [allBlank, ← List.all_reverse] at hg))]
  exact trimRight_eq_self hs

theorem trimLeft_append_of_not_blank {s : List Char} (h : allBlank s = false) (t : List Char) :
    trimLeft (s ++ t) = trimLeft s ++ t := by
  have hne : (s.dropWhile isBlank).isEmpty = false := by
    rw [List.isEmpty_eq_false_iff, ne_eq, List.dropWhile_eq_nil_iff]
    intro hall
    rw [show allBlank s = true from List.all_eq_true.2 hall] at h
    exact absurd h (by simp)
  rw [trimLeft, trimLeft, List.dropWhile_append, hne, if_neg (by simp)]

theorem trimRight_append_of_not_blank {s : List Char} (h : allBlank s = false) (t : List Char) :
    trimRight (t ++ s) = t ++ trimRight s := by
  have hleft := trimLeft_append_of_not_blank (s := s.reverse)
    (by rwa [allBlank, List.all_reverse]) t.reverse
  unfold trimLeft at hleft
  rw [trimRight, trimRight, List.reverse_append, hleft, List.reverse_append, List.reverse_reverse]

theorem trim_between {g m g' : List Char} (hg : allBlank g = true) (hg' : allBlank g' = true)
    (hstart : startsBlank m = false) (hend : endsBlank m = false) :
    trim (g ++ (m ++ g')) = m := by
  have hleft : trimLeft (g ++ (m ++ g')) = trimLeft (m ++ g') := by
    rw [trimLeft, trimLeft, List.dropWhile_append_of_pos (List.all_eq_true.1 hg)]
  rw [trim, hleft]
  cases m with
  | nil =>
    rw [List.nil_append, trimLeft, List.dropWhile_eq_nil_iff.2 (List.all_eq_true.1 hg')]
    rfl
  | cons c m =>
    rw [trimLeft_eq_self (by exact hstart)]
    exact trimRight_append_blank hend hg'

/-- A text is its trimmed text with white space on both sides. -/
theorem trim_append (s : List Char) : ∃ g g', s = g ++ (trim s ++ g') ∧ allBlank g = true ∧
    allBlank g' = true ∧ startsBlank (trim s) = false ∧ endsBlank (trim s) = false := by
  obtain ⟨g', hs, hg', -⟩ := trimRight_append (trimLeft s)
  refine ⟨s.takeWhile isBlank, g', ?_, allBlank_takeWhile s, hg', ?_, endsBlank_trimRight _⟩
  · change s = s.takeWhile isBlank ++ (trimRight (trimLeft s) ++ g')
    rw [← hs, trimLeft, List.takeWhile_append_dropWhile]
  · change startsBlank (trimRight (trimLeft s)) = false
    rcases hr : trimRight (trimLeft s) with _ | ⟨c, r⟩
    · rfl
    · rw [hr] at hs
      exact not_isBlank_head_trimLeft hs

theorem startsBlank_trim (s : List Char) : startsBlank (trim s) = false := by
  obtain ⟨-, -, -, -, -, hstart, -⟩ := trim_append s
  exact hstart

theorem endsBlank_trim (s : List Char) : endsBlank (trim s) = false := by
  obtain ⟨-, -, -, -, -, -, hend⟩ := trim_append s
  exact hend

theorem trim_between_blanks {g g' : List Char} (hg : allBlank g = true) (hg' : allBlank g' = true)
    (s : List Char) : trim (g ++ (s ++ g')) = trim s := by
  obtain ⟨a, b, hs, ha, hb, hstart, hend⟩ := trim_append s
  have hparts : g ++ (s ++ g') = (g ++ a) ++ (trim s ++ (b ++ g')) := by
    conv_lhs => rw [hs]
    simp only [List.append_assoc]
  rw [hparts, trim_between (by rw [allBlank_append, hg, ha]; rfl)
    (by rw [allBlank_append, hb, hg']; rfl) hstart hend]

theorem trim_allBlank_append {g : List Char} (hg : allBlank g = true) (s : List Char) :
    trim (g ++ s) = trim s := by
  simpa using trim_between_blanks hg (show allBlank [] = true from rfl) s

theorem trim_append_allBlank (s : List Char) {g : List Char} (hg : allBlank g = true) :
    trim (s ++ g) = trim s :=
  trim_between_blanks (show allBlank [] = true from rfl) hg s

theorem trim_trimRight (s : List Char) : trim (trimRight s) = trim s := by
  obtain ⟨g, hs, hg, -⟩ := trimRight_append s
  conv_rhs => rw [hs]
  exact (trim_append_allBlank _ hg).symm

theorem trim_of_allBlank (h : allBlank s = true) : trim s = [] := by
  simpa [trim, trimLeft, trimRight] using trim_append_allBlank [] h

theorem words_trimRight (s : List Char) : words (trimRight s) = words s := by
  obtain ⟨g, hs, hg, -⟩ := trimRight_append s
  conv_rhs => rw [hs]
  exact (words_append_allBlank _ hg).symm

theorem words_trim (s : List Char) : words (trim s) = words s := by
  rw [trim, words_trimRight, words_trimLeft]

theorem words_joinLines (ls : List (List Char)) : words (joinLines ls) = ls.flatMap words := by
  induction ls with
  | nil => rfl
  | cons l ls ih =>
    cases ls with
    | nil => simp [joinLines, joinWith]
    | cons m ms =>
      have hjoin : joinLines (l :: m :: ms) = l ++ '\n' :: joinLines (m :: ms) := by
        simp [joinLines, joinWith]
      rw [hjoin, words_append_blank (by decide), ih]
      rfl

theorem words_splitOn (s : List Char) : (splitOn '\n' s).flatMap words = words s := by
  rw [← words_joinLines, joinLines_splitOn]

theorem isBlank_of_isLineBreak {c : Char} (h : isLineBreak c = true) : isBlank c = true := by
  simp only [isLineBreak, Bool.or_eq_true, Bool.and_eq_true, decide_eq_true_eq, beq_iff_eq] at h
  simp only [isBlank, Bool.or_eq_true, Bool.and_eq_true, decide_eq_true_eq, beq_iff_eq]
  omega

theorem words_splitLinesFrom (cur s : List Char) :
    (splitLinesFrom cur s).flatMap words = words (cur.reverse ++ s) := by
  fun_induction splitLinesFrom cur s with
  | case1 cur h =>
    rw [List.isEmpty_iff] at h
    simp [h, words_nil]
  | case2 cur h => simp
  | case3 cur s ih =>
    rw [List.flatMap_cons, ih, words_append_blank (by decide), words_cons_blank (by decide)]
    rfl
  | case4 cur c s hcr h ih =>
    rw [List.flatMap_cons, ih, words_append_blank (isBlank_of_isLineBreak h)]
    rfl
  | case5 cur c s hcr h ih => simpa using ih

theorem words_splitLines (s : List Char) : (splitLines s).flatMap words = words s :=
  words_splitLinesFrom [] s

theorem isBlank_of_isIndent {c : Char} (h : isIndent c = true) : isBlank c = true := by
  simp only [isIndent, Bool.or_eq_true, beq_iff_eq] at h
  rcases h with rfl | rfl <;> decide

theorem words_of_isIndentOnly {l : List Char} (h : isIndentOnly l = true) : words l = [] :=
  words_of_allBlank (List.all_eq_true.2 fun c hc => isBlank_of_isIndent (List.all_eq_true.1 h c hc))

theorem margin_initial {ls : List (List Char)} {l : List Char} (hl : l ∈ ls)
    (h : isIndentOnly l = false) : margin ls <+: leadingIndent l := by
  induction ls with
  | nil => simp at hl
  | cons m ms ih =>
    rw [margin]
    rcases List.mem_cons.1 hl with rfl | hl
    · rw [if_neg (by simp [h])]
      split
      · exact List.prefix_rfl
      · exact commonPrefix_prefix_left _ _
    · have hrest := ih hl
      split
      · exact hrest
      · split
        · rename_i hall
          rw [List.all_eq_true.1 hall l hl] at h
          exact absurd h (by simp)
        · exact (commonPrefix_prefix_right _ _).trans hrest

theorem words_drop_margin {ls : List (List Char)} {l : List Char} (hl : l ∈ ls)
    (h : isIndentOnly l = false) : words (l.drop (margin ls).length) = words l := by
  obtain ⟨u, hu⟩ := (margin_initial hl h).trans (List.takeWhile_prefix isIndent)
  have hblank : allBlank (margin ls) = true := by
    refine List.all_eq_true.2 fun c hc => isBlank_of_isIndent ?_
    have hindent : c ∈ l.takeWhile isIndent := (margin_initial hl h).subset hc
    exact List.mem_takeWhile_imp hindent
  conv_rhs => rw [← hu]
  rw [words_allBlank_append hblank, ← hu, List.drop_left]

theorem words_dedent (ls : List (List Char)) : (dedent ls).flatMap words = ls.flatMap words := by
  rw [dedent, List.flatMap_map]
  refine List.flatMap_congr fun l hl => ?_
  cases h : isIndentOnly l with
  | true => rw [if_pos rfl, words_of_isIndentOnly h, words_nil]
  | false => rw [if_neg (by simp), words_drop_margin hl h]

theorem words_joinWords {ws : List (List Char)} (h : ∀ w ∈ ws, Word w) :
    words (joinWords ws) = ws := by
  induction ws with
  | nil => rfl
  | cons w ws ih =>
    have hw := h w List.mem_cons_self
    cases ws with
    | nil => exact words_of_word hw
    | cons v vs =>
      rw [joinWords_cons_cons, words_append_blank isBlank_space, words_of_word hw,
        ih fun u hu => h u (List.mem_cons_of_mem w hu)]
      rfl

theorem words_normalize (s : List Char) : words (normalize s) = words s :=
  words_joinWords fun _ hw => word_of_mem_words hw

section Ends

variable {a b : List Char}

theorem firstLine_append_of_not_mem (h : '\n' ∉ a) (b : List Char) :
    firstLine (a ++ b) = a ++ firstLine b :=
  List.takeWhile_append_of_pos fun _ hc => bne_iff_ne.2 fun he => h (he ▸ hc)

theorem firstLine_of_not_mem (h : '\n' ∉ a) : firstLine a = a := by
  have hnil := firstLine_append_of_not_mem h []
  rwa [List.append_nil, show firstLine [] = [] from rfl, List.append_nil] at hnil

theorem firstLine_append_cons (h : '\n' ∉ a) (b : List Char) : firstLine (a ++ '\n' :: b) = a := by
  rw [firstLine_append_of_not_mem h, show firstLine ('\n' :: b) = [] from rfl, List.append_nil]

theorem firstLine_append_of_mem (h : '\n' ∈ a) (b : List Char) :
    firstLine (a ++ b) = firstLine a := by
  obtain ⟨u, v, rfl, hu⟩ := List.eq_append_cons_of_mem h
  rw [List.append_assoc, List.cons_append, firstLine_append_cons hu, firstLine_append_cons hu]

theorem lastLine_eq (s : List Char) : lastLine s = (firstLine s.reverse).reverse := rfl

theorem lastLine_append_of_not_mem (a : List Char) (h : '\n' ∉ b) :
    lastLine (a ++ b) = lastLine a ++ b := by
  rw [lastLine_eq, List.reverse_append, firstLine_append_of_not_mem (by simpa using h),
    List.reverse_append, List.reverse_reverse, lastLine_eq]

theorem lastLine_of_not_mem (h : '\n' ∉ a) : lastLine a = a := by
  rw [lastLine_eq, firstLine_of_not_mem (by simpa using h), List.reverse_reverse]

theorem lastLine_append_of_mem (a : List Char) (h : '\n' ∈ b) :
    lastLine (a ++ b) = lastLine b := by
  rw [lastLine_eq, List.reverse_append, firstLine_append_of_mem (by simpa using h), lastLine_eq]

theorem lastLine_append_cons (a : List Char) (h : '\n' ∉ b) : lastLine (a ++ '\n' :: b) = b := by
  rw [List.append_cons, lastLine_append_of_not_mem _ h, lastLine_append_of_mem a (by simp)]
  rfl

theorem length_firstLine_append_le (a b : List Char) :
    (firstLine (a ++ b)).length ≤ a.length + (firstLine b).length := by
  by_cases h : '\n' ∈ a
  · rw [firstLine_append_of_mem h]
    exact (List.takeWhile_prefix _).length_le.trans (Nat.le_add_right _ _)
  · rw [firstLine_append_of_not_mem h, List.length_append]

theorem length_lastLine_append_le (a b : List Char) :
    (lastLine (a ++ b)).length ≤ (lastLine a).length + b.length := by
  have hle := length_firstLine_append_le b.reverse a.reverse
  rw [List.length_reverse, Nat.add_comm] at hle
  rwa [lastLine_eq, lastLine_eq, List.length_reverse, List.length_reverse, List.reverse_append]

theorem firstLine_append_ne_nil (h : firstLine a ≠ []) (b : List Char) :
    firstLine (a ++ b) ≠ [] := by
  by_cases hbreak : '\n' ∈ a
  · rwa [firstLine_append_of_mem hbreak]
  · rw [firstLine_of_not_mem hbreak] at h
    simp [firstLine_append_of_not_mem hbreak, h]

theorem exists_firstLine (h : '\n' ∈ a) : ∃ b, a = firstLine a ++ '\n' :: b := by
  obtain ⟨u, v, rfl, hu⟩ := List.eq_append_cons_of_mem h
  exact ⟨v, by rw [firstLine_append_cons hu]⟩

theorem exists_lastLine (h : '\n' ∈ a) : ∃ b, a = b ++ '\n' :: lastLine a := by
  obtain ⟨b, hb⟩ := exists_firstLine (List.mem_reverse.2 h)
  refine ⟨b.reverse, ?_⟩
  conv_lhs => rw [← List.reverse_reverse a, hb]
  simp [lastLine_eq]

theorem newline_not_mem_lastLine (a : List Char) : '\n' ∉ lastLine a := by
  rw [lastLine_eq, List.mem_reverse]
  exact fun h => absurd (List.mem_takeWhile_imp h) (by simp)

theorem splitOn_append_cons (a b : List Char) :
    splitOn '\n' (a ++ '\n' :: b) = splitOn '\n' a ++ splitOn '\n' b := by
  induction a with
  | nil => simp [splitOn]
  | cons c a ih =>
    rw [List.cons_append, splitOn, splitOn, ih]
    split
    · rfl
    · rcases hs : splitOn '\n' a with _ | ⟨l, ls⟩
      · exact absurd hs (splitOn_ne_nil _ _)
      · rfl

theorem firstLine_mem_splitOn (a : List Char) : firstLine a ∈ splitOn '\n' a := by
  have hhead : (splitOn '\n' a).head? = some (firstLine a) := by
    induction a with
    | nil => rfl
    | cons c a ih =>
      rw [splitOn]
      split
      · rename_i hc
        rw [hc]
        rfl
      · rename_i hc
        rcases hs : splitOn '\n' a with _ | ⟨l, ls⟩
        · exact absurd hs (splitOn_ne_nil _ _)
        · rw [hs, List.head?_cons, Option.some.injEq] at ih
          simp [firstLine, hc, ih]
  exact List.mem_of_mem_head? hhead

/-- The line of a text on which a place of it lies. -/
theorem line_mem_splitOn (a b : List Char) : lastLine a ++ firstLine b ∈ splitOn '\n' (a ++ b) := by
  rw [← firstLine_append_of_not_mem (newline_not_mem_lastLine a)]
  by_cases h : '\n' ∈ a
  · obtain ⟨u, hu⟩ := exists_lastLine h
    have hsplit : splitOn '\n' (a ++ b) = splitOn '\n' u ++ splitOn '\n' (lastLine a ++ b) := by
      conv_lhs => rw [hu, List.append_assoc, List.cons_append, splitOn_append_cons]
    rw [hsplit]
    exact List.mem_append_right _ (firstLine_mem_splitOn _)
  · rw [lastLine_of_not_mem h]
    exact firstLine_mem_splitOn _

end Ends

end ErbLayout.Text
