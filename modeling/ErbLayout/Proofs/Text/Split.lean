import ErbLayout.Proofs.Text.Lines
/-!
How a text is cut into lines: at line feeds alone or at every line end, line by line, and back again
from lines that hold no line end.
-/

namespace ErbLayout.Text

variable {l s : List Char}

theorem splitOn_of_not_mem {sep : Char} (h : sep ∉ l) : splitOn sep l = [l] := by
  induction l with
  | nil => rfl
  | cons c l ih =>
    obtain ⟨hc, hl⟩ := not_or.1 (mt List.mem_cons.2 h)
    rw [splitOn, if_neg fun he => hc he.symm, ih hl]

theorem splitOn_append {sep : Char} (h : sep ∉ l) (s : List Char) :
    splitOn sep (l ++ sep :: s) = l :: splitOn sep s := by
  induction l with
  | nil => rw [List.nil_append, splitOn, if_pos rfl]
  | cons c l ih =>
    obtain ⟨hc, hl⟩ := not_or.1 (mt List.mem_cons.2 h)
    rw [List.cons_append, splitOn, if_neg fun he => hc he.symm, ih hl]

theorem not_mem_of_mem_splitOn {sep : Char} (h : l ∈ splitOn sep s) :
    sep ∉ l := by
  induction s generalizing l with
  | nil =>
    rw [splitOn, List.mem_singleton] at h
    simp [h]
  | cons c s ih =>
    rw [splitOn] at h
    split at h
    · rcases List.mem_cons.1 h with rfl | h
      · exact List.not_mem_nil
      · exact ih h
    · rename_i hc
      cases hs : splitOn sep s with
      | nil => exact absurd hs (splitOn_ne_nil sep s)
      | cons m ms =>
        rw [hs] at h ih
        rcases List.mem_cons.1 h with rfl | h
        · rw [List.mem_cons, not_or]
          exact ⟨fun h => hc h.symm, ih List.mem_cons_self⟩
        · exact ih (List.mem_cons_of_mem _ h)

theorem splitLinesFrom_append (h : ∀ c ∈ l, isLineBreak c = false) (cur s : List Char) :
    splitLinesFrom cur (l ++ s) = splitLinesFrom (l.reverse ++ cur) s := by
  induction l generalizing cur with
  | nil => rfl
  | cons c l ih =>
    obtain ⟨hc, hl⟩ := List.forall_mem_cons.1 h
    have hcr : c ≠ '\r' := by
      rintro rfl
      exact absurd hc (by decide)
    rw [List.cons_append, splitLinesFrom, if_neg (by simp [hc]), ih hl]
    · simp
    · exact fun _ he => absurd he hcr

theorem splitLines_of_solid (h : ∀ c ∈ l, isLineBreak c = false) :
    splitLines l = if l.isEmpty then [] else [l] := by
  have hl := splitLinesFrom_append h [] []
  rw [List.append_nil, List.append_nil] at hl
  rw [splitLines, hl, splitLinesFrom, List.isEmpty_reverse, List.reverse_reverse]

theorem splitLines_crlf (h : ∀ c ∈ l, isLineBreak c = false) (s : List Char) :
    splitLines (l ++ '\r' :: '\n' :: s) = l :: splitLines s := by
  rw [splitLines, splitLinesFrom_append h, splitLinesFrom, List.append_nil, List.reverse_reverse]
  rfl

theorem splitLines_append (h : ∀ c ∈ l, isLineBreak c = false) {c : Char}
    (hc : isLineBreak c = true) {s : List Char} (hs : c = '\r' → s.head? ≠ some '\n') :
    splitLines (l ++ c :: s) = l :: splitLines s := by
  rw [splitLines, splitLinesFrom_append h, splitLinesFrom, if_pos hc, List.append_nil,
    List.reverse_reverse]
  · rfl
  · rintro t hcr rfl
    exact hs hcr rfl

theorem isLineBreak_of_not_isBlank {c : Char} (h : isBlank c = false) : isLineBreak c = false := by
  cases hbreak : isLineBreak c with
  | false => rfl
  | true =>
    rw [isBlank_of_isLineBreak hbreak] at h
    exact absurd h (by simp)

theorem Word.isLineBreak {w : List Char} (h : Word w) : ∀ c ∈ w, isLineBreak c = false :=
  fun c hc => isLineBreak_of_not_isBlank (h.solid c hc)

theorem joinLines_cons_of_ne_nil (l : List Char) {ls : List (List Char)} (h : ls ≠ []) :
    joinLines (l :: ls) = l ++ '\n' :: joinLines ls := by
  obtain ⟨m, ms, rfl⟩ := List.exists_cons_of_ne_nil h
  simp [joinLines, joinWith]

theorem isLineBreak_of_mem_splitLinesFrom {cur : List Char}
    (hcur : ∀ c ∈ cur, isLineBreak c = false) (h : l ∈ splitLinesFrom cur s) :
    ∀ c ∈ l, isLineBreak c = false := by
  have hrev {u : List Char} (hu : ∀ c ∈ u, isLineBreak c = false) :
      ∀ c ∈ u.reverse, isLineBreak c = false := fun c hc => hu c (List.mem_reverse.1 hc)
  fun_induction splitLinesFrom cur s with
  | case1 => simp at h
  | case2 =>
    rw [List.mem_singleton] at h
    exact h ▸ hrev hcur
  | case3 cur s ih | case4 cur c s hcr hbreak ih =>
    rcases List.mem_cons.1 h with rfl | h
    · exact hrev hcur
    · exact ih (by simp) h
  | case5 cur c s hcr hbreak ih =>
    exact ih (List.forall_mem_cons.2 ⟨by simpa using hbreak, hcur⟩) h

/-- Lines hold no line ends. -/
theorem isLineBreak_of_mem_splitLines (h : l ∈ splitLines s) : ∀ c ∈ l, isLineBreak c = false :=
  isLineBreak_of_mem_splitLinesFrom (by simp) h

theorem ne_nil_of_endsBlank_cons {c : Char} (hc : isBlank c = true)
    (h : endsBlank (c :: s) = false) : s ≠ [] := by
  rintro rfl
  simp [endsBlank, startsBlank, hc] at h

theorem endsBlank_of_cons {c : Char} (hs : s ≠ []) (h : endsBlank (c :: s) = false) :
    endsBlank s = false := by
  rwa [← List.singleton_append, endsBlank_append hs] at h

/-- Lines without line feeds are the lines of their join. -/
theorem splitOn_joinLines {ls : List (List Char)} (h : ∀ l ∈ ls, '\n' ∉ l) (hne : ls ≠ []) :
    splitOn '\n' (joinLines ls) = ls := by
  induction ls with
  | nil => exact absurd rfl hne
  | cons l ls ih =>
    obtain ⟨hl, hls⟩ := List.forall_mem_cons.1 h
    by_cases hnil : ls = []
    · rw [hnil]
      exact splitOn_of_not_mem hl
    · rw [joinLines_cons_of_ne_nil l hnil, splitOn_append hl, ih hls hnil]

/-- A text that no white space ends has something on its last line. -/
theorem allBlank_getLast?_splitOn (hs : endsBlank s = false) (hne : s ≠ []) :
    ∀ l ∈ (splitOn '\n' s).getLast?, allBlank l = false := by
  induction s with
  | nil => exact absurd rfl hne
  | cons c s ih =>
    rw [splitOn]
    split
    · rename_i hc
      have hrest := ne_nil_of_endsBlank_cons (by rw [hc]; decide) hs
      rw [List.getLast?_cons_of_ne_nil (splitOn_ne_nil _ _)]
      exact ih (endsBlank_of_cons hrest hs) hrest
    · rcases hsplit : splitOn '\n' s with _ | ⟨l, ls⟩
      · exact absurd hsplit (splitOn_ne_nil _ _)
      by_cases hnil : s = []
      · obtain ⟨rfl, rfl⟩ : l = [] ∧ ls = [] := by simpa [hnil, splitOn, eq_comm] using hsplit
        simpa [hnil, allBlank, endsBlank, startsBlank] using hs
      have hrest := ih (endsBlank_of_cons hnil hs) hnil
      rw [hsplit] at hrest
      by_cases hls : ls = []
      · rw [hls] at hrest ⊢
        have hl := hrest l rfl
        simp [allBlank] at hl ⊢
        exact .inr hl
      · rw [List.getLast?_cons_of_ne_nil hls] at hrest ⊢
        exact hrest

theorem splitLinesFrom_append_lineFeed {cur : List Char} (hs : endsBlank s = false)
    (hne : cur ≠ [] ∨ s ≠ []) (t : List Char) :
    splitLinesFrom cur (s ++ '\n' :: t) = splitLinesFrom cur s ++ splitLines t := by
  fun_induction splitLinesFrom cur s with
  | case1 cur h => simp [List.isEmpty_iff.1 h] at hne
  | case2 cur h =>
    rw [List.nil_append, splitLinesFrom, if_pos (by decide)]
    · rfl
    · exact fun _ he => absurd he (by decide)
  | case3 cur s ih =>
    have hline := ne_nil_of_endsBlank_cons (s := '\n' :: s) (by decide) hs
    have hs' := endsBlank_of_cons hline hs
    have hrest := ne_nil_of_endsBlank_cons (by decide) hs'
    rw [List.cons_append, List.cons_append, splitLinesFrom, ih (endsBlank_of_cons hrest hs')
      (.inr hrest)]
    rfl
  | case4 cur c s hcr hbreak ih =>
    have hrest := ne_nil_of_endsBlank_cons (isBlank_of_isLineBreak hbreak) hs
    rw [List.cons_append, splitLinesFrom, if_pos hbreak, ih (endsBlank_of_cons hrest hs)
      (.inr hrest)]
    · rfl
    · intro v hc hv
      obtain ⟨e, s, rfl⟩ := List.exists_cons_of_ne_nil hrest
      rw [List.cons_append, List.cons.injEq] at hv
      exact hcr s hc (by rw [hv.1])
  | case5 cur c s hcr hbreak ih =>
    have hstep : splitLinesFrom cur (c :: (s ++ '\n' :: t)) =
        splitLinesFrom (c :: cur) (s ++ '\n' :: t) := by
      rw [splitLinesFrom, if_neg hbreak]
      rintro v rfl -
      exact absurd (by decide) hbreak
    rw [List.cons_append, hstep]
    refine ih ?_ (.inl (by simp))
    by_cases hnil : s = []
    · rw [hnil]
      rfl
    · exact endsBlank_of_cons hnil hs

/-- Lines behind a text that no white space ends. -/
theorem splitLines_append_lineFeed (hs : endsBlank s = false) (hne : s ≠ []) (t : List Char) :
    splitLines (s ++ '\n' :: t) = splitLines s ++ splitLines t :=
  splitLinesFrom_append_lineFeed hs (.inr hne) t

/-- The first line of a text begins where the text does. -/
theorem exists_first_line {c : Char} (hc : isLineBreak c = false) (s : List Char) :
    ∃ l ls, splitLines (c :: s) = (c :: l) :: ls := by
  obtain ⟨u, v, rfl, hu, hv⟩ : ∃ u v, s = u ++ v ∧ (∀ d ∈ u, isLineBreak d = false) ∧
      ∀ d ∈ v.head?, isLineBreak d = true := by
    refine ⟨s.takeWhile (!isLineBreak ·), s.dropWhile (!isLineBreak ·),
      (List.takeWhile_append_dropWhile).symm, fun d hd => ?_, fun d hd => ?_⟩
    · simpa using List.mem_takeWhile_imp hd
    · have hstop := List.head?_dropWhile_not (!isLineBreak ·) s
      rw [hd] at hstop
      simpa using hstop
  have hl : ∀ d ∈ c :: u, isLineBreak d = false := List.forall_mem_cons.2 ⟨hc, hu⟩
  rw [← List.cons_append]
  rcases v with _ | ⟨d, v⟩
  · rw [List.append_nil, splitLines_of_solid hl]
    exact ⟨u, [], rfl⟩
  · by_cases hcrlf : d = '\r' ∧ v.head? = some '\n'
    · obtain ⟨rfl, hn⟩ := hcrlf
      obtain ⟨v, rfl⟩ := List.head?_eq_some_iff.1 hn
      exact ⟨u, splitLines v, splitLines_crlf hl v⟩
    · refine ⟨u, splitLines v, splitLines_append hl (hv d rfl) fun hd hn => hcrlf ⟨hd, hn⟩⟩

theorem splitLines_eq_nil_iff : splitLines s = [] ↔ s = [] := by
  refine ⟨fun h => ?_, fun h => h ▸ rfl⟩
  rcases s with _ | ⟨c, s⟩
  · rfl
  · cases hc : isLineBreak c with
    | false =>
      obtain ⟨l, ls, hl⟩ := exists_first_line hc s
      simp [hl] at h
    | true =>
      rw [splitLines, splitLinesFrom.eq_def] at h
      split at h
      · rename_i hnil
        simp at hnil
      · simp at h
      · rename_i heq
        rw [← (List.cons.inj heq).1, hc, if_pos rfl] at h
        simp at h

/-- The join of lines that no white space ends, and of which the last one is not empty. -/
theorem endsBlank_joinLines {ls : List (List Char)} (h : ∀ l ∈ ls, endsBlank l = false)
    (hlast : ls.getLast? ≠ some []) :
    endsBlank (joinLines ls) = false ∧ (ls ≠ [] → joinLines ls ≠ []) := by
  induction ls with
  | nil => exact ⟨rfl, fun hne => absurd rfl hne⟩
  | cons l ls ih =>
    obtain ⟨hl, hls⟩ := List.forall_mem_cons.1 h
    by_cases hnil : ls = []
    · subst hnil
      exact ⟨hl, fun _ => by simpa [joinLines, joinWith] using hlast⟩
    · rw [List.getLast?_cons_of_ne_nil hnil] at hlast
      obtain ⟨hend, hne⟩ := ih hls hlast
      rw [joinLines_cons_of_ne_nil l hnil, ← List.singleton_append, ← List.append_assoc,
        endsBlank_append (hne hnil)]
      exact ⟨hend, by simp⟩

theorem getLast?_splitLinesFrom {cur : List Char} (hs : endsBlank s = false) :
    (splitLinesFrom cur s).getLast? ≠ some [] := by
  have hrest (cur : List Char) {t : List Char} (ht : t ≠ [])
      (ih : (splitLinesFrom [] t).getLast? ≠ some []) :
      (cur.reverse :: splitLinesFrom [] t).getLast? ≠ some [] := by
    have hne : splitLinesFrom [] t ≠ [] := mt splitLines_eq_nil_iff.1 ht
    rwa [List.getLast?_cons_of_ne_nil hne]
  fun_induction splitLinesFrom cur s with
  | case1 => simp
  | case2 cur h => simpa using h
  | case3 cur s ih =>
    have hs' := endsBlank_of_cons (ne_nil_of_endsBlank_cons (by decide) hs) hs
    have ht := ne_nil_of_endsBlank_cons (by decide) hs'
    exact hrest cur ht (ih (endsBlank_of_cons ht hs'))
  | case4 cur c s hcr hbreak ih =>
    have ht := ne_nil_of_endsBlank_cons (isBlank_of_isLineBreak hbreak) hs
    exact hrest cur ht (ih (endsBlank_of_cons ht hs))
  | case5 cur c s hcr hbreak ih =>
    refine ih ?_
    by_cases hnil : s = []
    · rw [hnil]
      rfl
    · exact endsBlank_of_cons hnil hs

/-- No empty line ends a text that no white space ends. -/
theorem getLast?_splitLines (hs : endsBlank s = false) : (splitLines s).getLast? ≠ some [] :=
  getLast?_splitLinesFrom hs

/-- A text whose only line ends are line feeds, and that no white space ends, is the join of its
lines. -/
theorem joinLines_splitLines (h : ∀ c ∈ s, isLineBreak c = true → c = '\n')
    (hend : endsBlank s = false) : joinLines (splitLines s) = s := by
  induction hn : s.length using Nat.strong_induction_on generalizing s with
  | _ n ih =>
    have hsolid {l : List Char} (hl : ∀ c ∈ l, c ∈ s) (hmem : '\n' ∉ l) :
        ∀ c ∈ l, isLineBreak c = false := by
      intro c hc
      cases hbreak : isLineBreak c with
      | false => rfl
      | true => exact absurd (h c (hl c hc) hbreak ▸ hc) hmem
    by_cases hmem : '\n' ∈ s
    · obtain ⟨l, t, rfl, hl⟩ := List.eq_append_cons_of_mem hmem
      rw [endsBlank_append (by simp)] at hend
      have ht : t ≠ [] := ne_nil_of_endsBlank_cons (show isBlank '\n' = true by decide) hend
      have hlines : splitLines t ≠ [] := mt splitLines_eq_nil_iff.1 ht
      have hrest := ih t.length (by simp [← hn]; omega) (fun c hc => h c (by simp [hc]))
        (endsBlank_of_cons ht hend) rfl
      rw [splitLines_append (hsolid (by simp +contextual) hl) (by decide) (by simp),
        joinLines_cons_of_ne_nil l hlines, hrest]
    · rw [splitLines_of_solid (hsolid (fun _ hc => hc) hmem)]
      split
      · rename_i hnil
        rw [List.isEmpty_iff.1 hnil]
        rfl
      · rfl

theorem splitLines_of_word {w : List Char} (h : Word w) : splitLines w = [w] := by
  rw [splitLines_of_solid h.isLineBreak, if_neg (by simpa using h.ne_nil)]

/-- Lines without line ends, of which the last one is not empty, are the lines of their join. -/
theorem splitLines_joinLines {ls : List (List Char)}
    (h : ∀ l ∈ ls, ∀ c ∈ l, isLineBreak c = false) (hlast : ls.getLast? ≠ some []) :
    splitLines (joinLines ls) = ls := by
  induction ls with
  | nil => rfl
  | cons l ls ih =>
    obtain ⟨hl, hls⟩ := List.forall_mem_cons.1 h
    by_cases hnil : ls = []
    · subst hnil
      have hne : l ≠ [] := by simpa using hlast
      rw [show joinLines [l] = l from rfl, splitLines_of_solid hl, if_neg (by simpa using hne)]
    · rw [joinLines_cons_of_ne_nil l hnil, splitLines_append hl (by decide) (by simp), ih hls]
      rwa [List.getLast?_cons_of_ne_nil hnil] at hlast

end ErbLayout.Text
