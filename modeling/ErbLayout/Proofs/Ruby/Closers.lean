import ErbLayout.Proofs.Text.Split
import ErbLayout.Ruby.Fragment
/-!
Closers behind a fragment that make it whole for a reformatter: exactly those lines are taken off
what comes back, or else the fragment stays as it was. Which closers are tried depends on those that
have made the code whole before.
-/

namespace ErbLayout.Ruby

open Text (words splitLines joinLines startsBlank endsBlank allBlank isLineBreak)

/-- Closers behind a fragment, each on a line of its own. -/
def onLines (closing : List (List Char)) : List Char := closing.flatMap ('\n' :: ·)

theorem onLines_cons (w : List Char) (closing : List (List Char)) :
    onLines (w :: closing) = '\n' :: (w ++ onLines closing) := List.flatMap_cons

section Lines

variable {closing : List (List Char)} (h : ∀ w ∈ closing, Text.Word w)
include h

theorem words_onLines : words (onLines closing) = closing := by
  induction closing with
  | nil => rfl
  | cons w closing ih =>
    obtain ⟨hw, hclosing⟩ := List.forall_mem_cons.1 h
    have hsplit : words (w ++ onLines closing) = words w ++ words (onLines closing) := by
      cases closing with
      | nil => simp [onLines, Text.words_nil]
      | cons v closing =>
        rw [onLines_cons]
        exact Text.words_append_of_startsBlank rfl
    rw [onLines_cons, Text.words_cons_blank (by decide), hsplit, Text.words_of_word hw, ih hclosing]
    rfl

theorem splitLines_append_onLines {code : List Char} (hcode : code ≠ [])
    (hend : endsBlank code = false) :
    splitLines (code ++ onLines closing) = splitLines code ++ closing := by
  induction closing generalizing code with
  | nil => simp [onLines]
  | cons w closing ih =>
    obtain ⟨hw, hclosing⟩ := List.forall_mem_cons.1 h
    rw [onLines_cons, Text.splitLines_append_lineFeed hend hcode, ih hclosing hw.ne_nil hw.endsBlank,
      Text.splitLines_of_word hw]
    rfl

theorem endsBlank_append_onLines {code : List Char} (hend : endsBlank code = false) :
    endsBlank (code ++ onLines closing) = false := by
  induction closing generalizing code with
  | nil => simpa [onLines] using hend
  | cons w closing ih =>
    obtain ⟨hw, hclosing⟩ := List.forall_mem_cons.1 h
    rw [onLines_cons, ← List.singleton_append, ← List.append_assoc,
      Text.endsBlank_append (by simp [hw.ne_nil])]
    exact ih hclosing hw.endsBlank

end Lines

/-- The closers are not the last lines, or there is nothing before them. -/
def Lost (closing lines : List (List Char)) : Prop :=
  lines.length ≤ closing.length ∨
    (lines.drop (lines.length - closing.length)).map Text.trim ≠ closing

instance (closing lines : List (List Char)) : Decidable (Lost closing lines) :=
  inferInstanceAs (Decidable (_ ∨ _))

theorem withoutClosers_of_lost {closing lines : List (List Char)} (h : Lost closing lines) :
    withoutClosers closing lines = none ∨ withoutClosers closing lines = some [] := by
  unfold withoutClosers
  dsimp only
  by_cases hk : closing.length = 0
  · rw [Lost, List.length_eq_zero_iff.1 hk] at h
    have hnil : lines = [] := by simpa using h
    rw [if_pos hk, hnil]
    exact .inr rfl
  · rw [if_neg hk, if_pos]
    · exact .inl rfl
    · simpa [Lost] using h

theorem withoutClosers_of_not_lost {closing lines : List (List Char)} (h : ¬ Lost closing lines) :
    withoutClosers closing lines = some (lines.take (lines.length - closing.length)) ∧
      0 < lines.length - closing.length := by
  obtain ⟨hlen, hlast⟩ := not_or.1 h
  rw [not_not] at hlast
  refine ⟨?_, by omega⟩
  unfold withoutClosers
  dsimp only
  split
  · rename_i hk
    rw [hk, Nat.sub_zero, List.take_length]
  · rw [if_neg (by simp [hlen, hlast])]

/-- A fragment is what came back for it without the closers, unless these are lost. -/
theorem ofReformatted_eq (code suffix result : List Char) :
    (ofReformatted code suffix result).1 =
      let lines := splitLines (Text.trim result)
      if Lost (words suffix) lines then code
      else joinLines (lines.take (lines.length - (words suffix).length)) := by
  dsimp only
  set lines := splitLines (Text.trim result)
  unfold ofReformatted
  split_ifs with h
  · rcases withoutClosers_of_lost h with hnone | hnil
    · rw [hnone]
    · rw [hnil]
  · obtain ⟨hsome, hpos⟩ := withoutClosers_of_not_lost h
    rw [hsome]
    cases hkept : lines.take (lines.length - (words suffix).length) with
    | nil =>
      have hlen := congrArg List.length hkept
      rw [List.length_take, List.length_nil] at hlen
      omega
    | cons l ls => rfl

theorem not_allBlank_joinLines {c : Char} (hc : ErbLayout.isBlank c = false) (l : List Char)
    (ls : List (List Char)) : allBlank (joinLines ((c :: l) :: ls)) = false := by
  cases h : allBlank (joinLines ((c :: l) :: ls)) with
  | false => rfl
  | true =>
    rw [← Text.words_eq_nil_iff, Text.words_joinLines, List.flatMap_cons, List.append_eq_nil_iff,
      Text.words_eq_nil_iff, Text.allBlank, List.all_cons, hc] at h
    exact absurd h.1 (by simp)

theorem ofReformatted_not_allBlank {code : List Char} (h : allBlank code = false)
    (suffix result : List Char) : allBlank (ofReformatted code suffix result).1 = false := by
  rw [ofReformatted_eq]
  dsimp only
  split_ifs with hlost
  · exact h
  obtain ⟨-, hpos⟩ := withoutClosers_of_not_lost hlost
  obtain ⟨n, hn⟩ := Nat.exists_eq_succ_of_ne_zero hpos.ne'
  have hstart := Text.startsBlank_trim result
  rw [hn]
  rcases hu : Text.trim result with _ | ⟨c, u⟩
  · rw [hu] at hpos
    exact absurd hpos (by simp [splitLines, Text.splitLinesFrom])
  · rw [hu] at hstart
    have hc : ErbLayout.isBlank c = false := hstart
    obtain ⟨l, ls, hsplit⟩ := Text.exists_first_line (Text.isLineBreak_of_not_isBlank hc) u
    rw [hsplit, List.take_succ_cons]
    exact not_allBlank_joinLines hc l _

theorem length_splitLines_onLines {closing : List (List Char)} (h : ∀ w ∈ closing, Text.Word w) :
    (splitLines (Text.trim (onLines closing))).length = closing.length := by
  cases closing with
  | nil => rfl
  | cons w closing =>
    obtain ⟨hw, hclosing⟩ := List.forall_mem_cons.1 h
    have htrim : Text.trim (onLines (w :: closing)) = w ++ onLines closing := by
      have hstart : startsBlank (w ++ onLines closing) = false := by
        rw [Text.startsBlank_append hw.ne_nil, hw.startsBlank]
      have hbetween := Text.trim_between (g := ['\n']) (by decide) (rfl : allBlank [] = true) hstart
        (endsBlank_append_onLines hclosing hw.endsBlank)
      rwa [List.append_nil] at hbetween
    rw [htrim, splitLines_append_onLines hclosing hw.ne_nil hw.endsBlank,
      Text.splitLines_of_word hw]
    rfl

/-- The closers put behind a fragment are all that is taken off when nothing is changed. -/
theorem ofReformatted_onLines {code : List Char} {closing : List (List Char)}
    (h : ∀ w ∈ closing, Text.Word w) (hstart : startsBlank code = false)
    (hend : endsBlank code = false) :
    (ofReformatted code (onLines closing) (code ++ onLines closing)).1 =
      joinLines (splitLines code) := by
  rw [ofReformatted_eq, words_onLines h]
  dsimp only
  rcases hcode : code with _ | ⟨c, u⟩
  · -- the closers alone are too few lines
    rw [List.nil_append, if_pos (.inl (length_splitLines_onLines h).le)]
    rfl
  · rw [← hcode]
    have hne : code ≠ [] := by simp [hcode]
    have hlines : splitLines (Text.trim (code ++ onLines closing)) = splitLines code ++ closing := by
      rw [Text.trim_eq_self, splitLines_append_onLines h hne hend]
      · rw [Text.startsBlank_append hne, hstart]
      · exact endsBlank_append_onLines h hend
    have hpos := List.length_pos_iff.2 (mt Text.splitLines_eq_nil_iff.1 hne)
    have htrim : closing.map Text.trim = closing := by
      refine (List.map_congr_left fun w hw => ?_).trans (List.map_id closing)
      exact Text.trim_eq_self (h w hw).startsBlank (h w hw).endsBlank
    rw [hlines, List.length_append, Nat.add_sub_cancel, List.take_left, if_neg]
    rw [Lost, List.length_append, Nat.add_sub_cancel, List.drop_left, htrim, not_or, not_not]
    exact ⟨by omega, rfl⟩

theorem reformat_result (reformatter : Reformatter) (code suffix : List Char) (width : Int) :
    (reformat reformatter code suffix width).result =
      (reformatter (code ++ suffix) width).result.map fun result =>
        (ofReformatted code suffix result).1 := by
  unfold reformat
  cases h : (reformatter (code ++ suffix) width).result <;> simp only [h] <;> rfl

/-- A reformatter that is given a fragment with closers behind it: exactly those lines are taken off
what comes back, or the fragment stays when they are lost. What is not blank never becomes so, and a
reformatter that changes nothing leaves the lines of the fragment as they are. -/
theorem reformat_takes_off_closers (reformatter : Reformatter) (code : List Char)
    {closing : List (List Char)} (hclosing : ∀ w ∈ closing, Text.Word w) (width : Int) :
    (reformat reformatter code (onLines closing) width).result =
        (reformatter (code ++ onLines closing) width).result.map (fun result =>
          let lines := splitLines (Text.trim result)
          if Lost closing lines then code
          else joinLines (lines.take (lines.length - closing.length))) ∧
      (allBlank code = false → ∀ code',
        (reformat reformatter code (onLines closing) width).result = .ok code' →
          allBlank code' = false) ∧
      (startsBlank code = false → endsBlank code = false →
        ∃ code', (reformat passThrough code (onLines closing) width).result = .ok code' ∧
          splitLines code' = splitLines code ∧
          ((∀ c ∈ code, isLineBreak c = true → c = '\n') → code' = code)) := by
  refine ⟨?_, fun hblank code' hcode' => ?_, fun hstart hend => ?_⟩
  · simp only [reformat_result, ofReformatted_eq, words_onLines hclosing]
  · rw [reformat_result] at hcode'
    cases h : (reformatter (code ++ onLines closing) width).result with
    | error e => simp [h, Except.map] at hcode'
    | ok result =>
      rw [h] at hcode'
      exact Except.ok.inj hcode' ▸ ofReformatted_not_allBlank hblank _ _
  · refine ⟨joinLines (splitLines code), ?_, ?_, fun hbreaks => ?_⟩
    · rw [reformat_result]
      exact congrArg Except.ok (ofReformatted_onLines hclosing hstart hend)
    · exact Text.splitLines_joinLines (fun l hl => Text.isLineBreak_of_mem_splitLines hl)
        (Text.getLast?_splitLines hend)
    · exact Text.joinLines_splitLines hbreaks hend

/-- Two closers are taken off, and an `end` of the fragment itself is not. -/
theorem reformat_takes_off_end_and_brace :
    let closing := ["end".toList, ['\x7d']]
    let code := "f \x7b if a\nb\nend".toList
    let indented : Reformatter := fun _ _ =>
      { result := .ok "f \x7b if a\n  b\n\n  end\nend\n\x7d\n".toList }
    (∀ w ∈ closing, Text.Word w) ∧
      (reformat indented code (onLines closing) 80).result =
        .ok "f \x7b if a\n  b\n\n  end".toList ∧
      (reformat passThrough code (onLines closing) 80).result = .ok code := by
  intro closing code indented
  have hclosing : ∀ w ∈ closing, Text.Word w := by
    have hwords : closing = words "end \x7d".toList := by decide
    rw [hwords]
    exact fun w hw => Text.word_of_mem_words hw
  have hbreaks : code.all (fun c => !isLineBreak c || c == '\n') = true := by decide
  obtain ⟨hindented, -, -⟩ := reformat_takes_off_closers indented code hclosing 80
  obtain ⟨-, -, hpass⟩ := reformat_takes_off_closers passThrough code hclosing 80
  obtain ⟨code', hcode', -, hsame⟩ := hpass (by decide) (by decide)
  rw [hsame fun c hc hbreak => by simpa [hbreak] using List.all_eq_true.1 hbreaks c hc] at hcode'
  exact ⟨hclosing, hindented.trans rfl, hcode'⟩

/-! The closers that are tried -/

/-- What is kept of some closers: with each of them, and those kept before it, the code is whole, and
none is kept only if none of them does it at once. -/
theorem exists_kept (complete : Checker) (code : List Char) (ws cs : List (List Char)) :
    ∃ kept, kept.Sublist cs ∧ suffixFrom complete code (onLines ws) cs = onLines (ws ++ kept) ∧
      (∀ us, us <+: kept → us ≠ [] → complete (code ++ onLines (ws ++ us)) = true) ∧
      (kept = [] ↔ ∀ c ∈ cs, complete (code ++ onLines (ws ++ [c])) = false) := by
  induction cs generalizing ws with
  | nil => exact ⟨[], .slnil, by simp [suffixFrom], by simp, by simp⟩
  | cons c cs ih =>
    have hcandidate : onLines ws ++ '\n' :: c = onLines (ws ++ [c]) := by simp [onLines]
    rw [suffixFrom, hcandidate]
    cases hwhole : complete (code ++ onLines (ws ++ [c])) with
    | true =>
      obtain ⟨kept, hsub, hsuffix, hkept, -⟩ := ih (ws ++ [c])
      refine ⟨c :: kept, hsub.cons_cons c, by simpa using hsuffix, fun us hus hne => ?_,
        by simp [hwhole]⟩
      obtain rfl | ⟨vs, rfl, hvs⟩ := List.prefix_cons_iff.1 hus
      · exact absurd rfl hne
      by_cases hnil : vs = []
      · rw [hnil, hwhole]
      · simpa using hkept vs hvs hnil
    | false =>
      obtain ⟨kept, hsub, hsuffix, hkept, hnil⟩ := ih ws
      exact ⟨kept, hsub.cons c, hsuffix, hkept, by simpa [hwhole] using hnil⟩

/-- The closers put behind a fragment make it whole, one after the other; there are none just when
neither of them does so alone. -/
theorem autocloseSuffix_whole (complete : Checker) (code : List Char) :
    (autocloseSuffix complete code = [] ∨
        complete (code ++ autocloseSuffix complete code) = true) ∧
      (autocloseSuffix complete code = [] ↔
        ∀ closer ∈ closers, complete (code ++ onLines [closer]) = false) ∧
      ∃ kept, kept.Sublist closers ∧ autocloseSuffix complete code = onLines kept ∧
        ∀ us, us <+: kept → us ≠ [] → complete (code ++ onLines us) = true := by
  obtain ⟨kept, hsub, hsuffix, hkept, hnone⟩ := exists_kept complete code [] closers
  have heq : autocloseSuffix complete code = onLines kept := hsuffix
  have hnil : onLines kept = [] ↔ kept = [] := by
    cases kept <;> simp [onLines]
  refine ⟨?_, ?_, kept, hsub, heq, hkept⟩
  · rw [heq, hnil]
    by_cases hk : kept = []
    · exact .inl hk
    · exact .inr (hkept kept List.prefix_rfl hk)
  · rw [heq, hnil]
    exact hnone

/-- A condition open inside a block needs both closers, and neither is tried behind the other that
does not help alone. -/
theorem autocloseSuffix_misses_pair :
    let code := "items.each \x7b |i| if i".toList
    let complete : Checker := fun s => s == "items.each \x7b |i| if i\nend\n\x7d".toList
    autocloseSuffix complete code = [] ∧ complete (code ++ onLines closers) = true := by
  decide

end ErbLayout.Ruby
