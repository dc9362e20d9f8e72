import ErbLayout.Proofs.Erb.Reindent
import ErbLayout.Proofs.Ruby.Closers
import ErbLayout.Proofs.Template.Outline
/-!
A tag of a template and the tag that it is laid out as have the same lines, white space around each
apart. A checker that does not look at that white space gives both the same role, and the second is
laid out as it stands.
-/

namespace ErbLayout

theorem isWord_of_isBlank {c : Char} (h : isBlank c = true) : isWord c = false := by
  have hall : ∀ n ∈ [9, 10, 11, 12, 13, 28, 29, 30, 31, 32, 0x85, 0xA0, 0x1680, 0x2000, 0x2001,
      0x2002, 0x2003, 0x2004, 0x2005, 0x2006, 0x2007, 0x2008, 0x2009, 0x200A, 0x2028, 0x2029,
      0x202F, 0x205F, 0x3000], isWord (Char.ofNat n) = false := by decide +kernel
  have hmem := hall c.toNat (by
    simp only [isBlank, Bool.or_eq_true, Bool.and_eq_true, decide_eq_true_eq, beq_iff_eq] at h
    simp only [List.mem_cons, List.not_mem_nil, or_false]
    omega)
  rwa [Char.ofNat_toNat] at hmem

end ErbLayout

namespace ErbLayout.Text

variable {s t l l' m m' : List Char} {ls : List (List Char)} {c : Char}

/-- The lines of a text without the white space around each. -/
def trimmedLines (s : List Char) : List (List Char) := (splitOn '\n' s).map trim

theorem flatMap_trimmedLines (s : List Char) : (trimmedLines s).flatMap words = words s := by
  rw [trimmedLines, List.flatMap_map, ← words_splitOn s]
  simp only [words_trim]

theorem words_eq_of_trimmedLines (h : trimmedLines s = trimmedLines t) : words s = words t := by
  rw [← flatMap_trimmedLines, h, flatMap_trimmedLines]

theorem mem_joinLines (h : c ∈ joinLines ls) : c = '\n' ∨ ∃ l ∈ ls, c ∈ l := by
  induction ls with
  | nil => simp [joinLines, joinWith] at h
  | cons l ls ih =>
    by_cases hnil : ls = []
    · subst hnil
      exact .inr ⟨l, List.mem_cons_self, h⟩
    · rw [joinLines_cons_of_ne_nil l hnil, List.mem_append, List.mem_cons] at h
      rcases h with h | h | h
      · exact .inr ⟨l, List.mem_cons_self, h⟩
      · exact .inl h
      · exact (ih h).imp_right List.exists_mem_cons_of_exists

theorem mem_of_mem_splitOn (hl : l ∈ splitOn '\n' s) (hc : c ∈ l) : c ∈ s := by
  have hjoin (ls : List (List Char)) (hl : l ∈ ls) : c ∈ joinLines ls := by
    induction ls with
    | nil => simp at hl
    | cons l' ls ih =>
      by_cases hnil : ls = []
      · subst hnil
        obtain rfl := List.mem_singleton.1 hl
        exact hc
      · rw [joinLines_cons_of_ne_nil l' hnil, List.mem_append, List.mem_cons]
        rcases List.mem_cons.1 hl with rfl | hl
        · exact .inl hc
        · exact .inr (.inr (ih hl))
  exact joinLines_splitOn s ▸ hjoin _ hl

/-- White space in the text is spaces, tabs and line feeds. -/
def PlainLines (s : List Char) : Prop :=
  ∀ c ∈ s, isBlank c = true → c = ' ' ∨ c = '\t' ∨ c = '\n'

instance (s : List Char) : Decidable (PlainLines s) :=
  List.decidableBAll (fun c => isBlank c = true → c = ' ' ∨ c = '\t' ∨ c = '\n') s

theorem PlainLines.mono (h : PlainLines t) (hs : s ⊆ t) : PlainLines s := fun c hc => h c (hs hc)

theorem PlainLines.isLineBreak (h : PlainLines s) : ∀ c ∈ s, isLineBreak c = true → c = '\n' := by
  intro c hc hbreak
  rcases h c hc (isBlank_of_isLineBreak hbreak) with rfl | rfl | rfl
  · simp [Text.isLineBreak] at hbreak
  · simp [Text.isLineBreak] at hbreak
  · rfl

theorem PlainLines.isIndentOnly (h : PlainLines s) (hl : l ∈ splitOn '\n' s)
    (hblank : allBlank l = true) : isIndentOnly l = true := by
  refine List.all_eq_true.2 fun c hc => ?_
  rcases h c (mem_of_mem_splitOn hl hc) (List.all_eq_true.1 hblank c hc) with rfl | rfl | rfl
  · rfl
  · rfl
  · exact absurd hc (not_mem_of_mem_splitOn hl)

theorem isIndentOnly_margin (ls : List (List Char)) : isIndentOnly (margin ls) = true := by
  induction ls with
  | nil => rfl
  | cons l ls ih =>
    rw [margin]
    split
    · exact ih
    · split
      · exact isIndentOnly_leadingIndent l
      · exact List.all_eq_true.2 fun c hc => List.all_eq_true.1 (isIndentOnly_leadingIndent l) c
          ((commonPrefix_prefix_left _ _).subset hc)

section Moved

variable (hm' : isIndentOnly m' = true) (h : Moved m m' l l')
include hm' h

theorem Moved.trim_eq (hm : isIndentOnly m = true) : trim l' = trim l := by
  have hmargin {m v : List Char} (hm : Text.isIndentOnly m = true)
      (hv : Text.isIndentOnly v = true) (u : List Char) : trim (m ++ (v ++ u)) = trim u := by
    have hblank : allBlank (m ++ v) = true := by
      rw [allBlank_append, allBlank_of_isIndentOnly hm, allBlank_of_isIndentOnly hv]
      rfl
    rw [← List.append_assoc, trim_allBlank_append hblank]
  cases h with
  | blank h => rw [trim_of_allBlank (allBlank_of_isIndentOnly h), trim_of_allBlank rfl]
  | @code v u hv hu hne => rw [hmargin hm hv, hmargin hm' hv, trim_trimRight]

theorem Moved.plainLines (hl : PlainLines l) : PlainLines l' := by
  cases h with
  | blank h => simp [PlainLines]
  | @code v u hv hu hne =>
    intro c hc hblank
    rcases List.mem_append.1 hc with hc | hc
    · have hindent := List.all_eq_true.1 hm' c hc
      simp only [isIndent, Bool.or_eq_true, beq_iff_eq] at hindent
      tauto
    · refine hl c (List.mem_append_right m ?_) hblank
      rcases List.mem_append.1 hc with hc | hc
      · exact List.mem_append_left _ hc
      · obtain ⟨g, hu', -⟩ := trimRight_append u
        rw [hu']
        exact List.mem_append_right _ (List.mem_append_left _ hc)

end Moved

theorem trim_moveTo (h : ∀ l ∈ ls, allBlank l = true → isIndentOnly l = true)
    (hm' : isIndentOnly m' = true) : (moveTo m' ls).map trim = ls.map trim := by
  rw [moveTo, List.map_map]
  exact List.map_congr_left fun l hl =>
    (moved_moveLine h hl m').trim_eq hm' (isIndentOnly_margin ls)

end ErbLayout.Text

namespace ErbLayout.Ruby

open Text (startsBlank endsBlank trimmedLines words)

/-- A checker that does not look at the white space around lines. -/
def Checker.LineBlind (checker : Checker) : Prop :=
  ∀ code code', trimmedLines code = trimmedLines code' → checker code = checker code'

variable {checker : Checker} {code code' : List Char}

/-- Text that begins with no white space begins with its first word. -/
theorem exists_head_word (hstart : startsBlank code = false) (hne : code ≠ []) :
    ∃ w t, code = w ++ t ∧ Text.Word w ∧ (t = [] ∨ startsBlank t = true) ∧
      words code = w :: words t := by
  obtain ⟨b, w, t, hcode, hb, hw, ht⟩ :=
    Text.exists_first_word (Text.allBlank_of_startsBlank hne hstart)
  obtain rfl : b = [] := by
    by_contra hb'
    rw [hcode, Text.startsBlank_append hb', Text.startsBlank_of_allBlank hb hb'] at hstart
    exact absurd hstart (by simp)
  exact ⟨w, t, hcode, hw, ht, by rw [hcode, Text.words_of_first hb hw ht]⟩

/-- A keyword is looked for in the first word only. -/
theorem beginsWithWord_append {k w t : List Char} (hk : Text.Word k)
    (ht : t = [] ∨ startsBlank t = true) :
    beginsWithWord k (w ++ t) = beginsWithWord k w := by
  rcases ht with rfl | ht
  · rw [List.append_nil]
  obtain ⟨b, u, rfl, hb⟩ : ∃ b u, t = b :: u ∧ ErbLayout.isBlank b = true := by
    cases t with
    | nil => simp [startsBlank] at ht
    | cons b u => exact ⟨b, u, rfl, ht⟩
  have hword : isWord b = false := isWord_of_isBlank hb
  by_cases hp : k <+: w
  · obtain ⟨v, rfl⟩ := hp
    rw [beginsWithWord, beginsWithWord, List.append_assoc, List.drop_left, List.drop_left]
    have hinitial (r : List Char) : k.isPrefixOf (k ++ r) = true :=
      List.isPrefixOf_iff_prefix.2 (List.prefix_append k r)
    rw [hinitial, hinitial]
    cases v <;> simp [hword]
  · have hp' : ¬ k <+: w ++ b :: u := by
      intro hlong
      have hb' : b ∉ k := fun hmem => absurd (hk.solid b hmem) (by simp [hb])
      exact hp (Text.initial_of_not_mem hb' hlong)
    have hno {r : List Char} (h : ¬ k <+: r) : k.isPrefixOf r = false := by
      rw [← Bool.not_eq_true, List.isPrefixOf_iff_prefix]
      exact h
    rw [beginsWithWord, beginsWithWord, hno hp, hno hp']
    rfl

theorem beginsWithWord_eq_of_words {k : List Char} (hk : Text.Word k)
    (hstart : startsBlank code = false) (hstart' : startsBlank code' = false)
    (h : words code = words code') : beginsWithWord k code = beginsWithWord k code' := by
  have hnil {code : List Char} (hstart : startsBlank code = false) :
      words code = [] ↔ code = [] := by
    refine ⟨fun hw => ?_, fun hw => by rw [hw]; rfl⟩
    by_contra hne
    rw [Text.words_eq_nil_iff, Text.allBlank_of_startsBlank hne hstart] at hw
    exact absurd hw (by simp)
  by_cases hne : code = []
  · rw [(hnil hstart').1 (h ▸ (hnil hstart).2 hne), hne]
  · have hne' : code' ≠ [] := fun hcode' => hne ((hnil hstart).1 (h ▸ (hnil hstart').2 hcode'))
    obtain ⟨w, t, rfl, -, ht, hwords⟩ := exists_head_word hstart hne
    obtain ⟨w', t', rfl, -, ht', hwords'⟩ := exists_head_word hstart' hne'
    rw [hwords, hwords'] at h
    rw [beginsWithWord_append hk ht, beginsWithWord_append hk ht', (List.cons.inj h).1]

/-- A word is the only text of that word without white space around it. -/
theorem eq_word_iff {w : List Char} (hw : Text.Word w) (hstart : startsBlank code = false)
    (hend : endsBlank code = false) : code = w ↔ words code = [w] := by
  refine ⟨fun h => by rw [h, Text.words_of_word hw], fun h => ?_⟩
  have hne : code ≠ [] := by
    rintro rfl
    simp [Text.words_nil] at h
  obtain ⟨v, t, rfl, hv, ht, hwords⟩ := exists_head_word hstart hne
  rw [hwords, List.cons.injEq, Text.words_eq_nil_iff] at h
  obtain ⟨rfl, hblank⟩ := h
  rcases ht with rfl | ht
  · rw [List.append_nil]
  · have hne : t ≠ [] := by
      rintro rfl
      simp [startsBlank] at ht
    rw [Text.endsBlank_append hne, Text.endsBlank_of_allBlank hblank hne] at hend
    exact absurd hend (by simp)

theorem word_of_keyword {k : List Char}
    (h : k ∈ closers ∨ k ∈ bareContinuations ∨ k ∈ openContinuations) : Text.Word k := by
  have hwords : closers = words "end \x7d".toList ∧
      bareContinuations = words "else ensure".toList ∧
      openContinuations = words "elsif when in rescue".toList := by decide
  rw [hwords.1, hwords.2.1, hwords.2.2] at h
  rcases h with h | h | h <;> exact Text.word_of_mem_words h

/-- Code without white space around it whose lines are the same plays the same role. -/
theorem Checker.LineBlind.classify_eq (h : checker.LineBlind)
    (hstart : startsBlank code = false) (hend : endsBlank code = false)
    (hstart' : startsBlank code' = false) (hend' : endsBlank code' = false)
    (hlines : trimmedLines code = trimmedLines code') :
    classify checker code = classify checker code' := by
  have hwords := Text.words_eq_of_trimmedLines hlines
  have hcontains {ks : List (List Char)} (hks : ∀ k ∈ ks, Text.Word k) :
      ks.contains code = ks.contains code' := by
    rw [Bool.eq_iff_iff, List.contains_iff_mem, List.contains_iff_mem]
    constructor
    · intro hmem
      rwa [(eq_word_iff (hks _ hmem) hstart' hend').2]
      rw [← hwords]
      exact (eq_word_iff (hks _ hmem) hstart hend).1 rfl
    · intro hmem
      rwa [(eq_word_iff (hks _ hmem) hstart hend).2]
      rw [hwords]
      exact (eq_word_iff (hks _ hmem) hstart' hend').1 rfl
  have hbegins : openContinuations.any (beginsWithWord · code) =
      openContinuations.any (beginsWithWord · code') := by
    rw [Bool.eq_iff_iff, List.any_eq_true, List.any_eq_true]
    refine exists_congr fun k => and_congr_right fun hk => ?_
    rw [beginsWithWord_eq_of_words (word_of_keyword (.inr (.inr hk))) hstart hstart' hwords]
  rw [classify, classify, Text.trim_eq_self hstart hend, Text.trim_eq_self hstart' hend',
    isContinuation, isContinuation, hcontains fun k hk => word_of_keyword (.inl hk),
    hcontains fun k hk => word_of_keyword (.inr (.inl hk)), hbegins, h _ _ hlines]

end ErbLayout.Ruby

namespace ErbLayout.Erb

open Text (PlainLines isIndentOnly joinLines moveTo splitOn startsBlank endsBlank trimRight
  trimmedLines)

section Lines

variable {code first : List Char} {rest : List (List Char)} {indent : List Char}
variable (hlines : splitOn '\n' code = first :: rest)
variable (hrest : ∀ l ∈ rest, Text.allBlank l = true → isIndentOnly l = true)
variable (hindent : ∀ c ∈ indent, c = ' ')
include hlines hrest hindent

/-- A tag that is built with an indent is read with its further lines behind the indent, and built
with that indent it is the same text again. -/
theorem Tag.split?_built (hcode : code ≠ []) (hstart : startsBlank code = false)
    (hend : endsBlank code = false) (o : Opener) (x : Closer) :
    let code' := joinLines (trimRight first :: moveTo (inner indent) rest)
    Tag.split? (Tag.text ⟨o, code, x⟩ indent) = some ⟨o, code', x⟩ ∧
      Tag.text ⟨o, code', x⟩ indent = Tag.text ⟨o, code, x⟩ indent := by
  intro code'
  have hinner := isIndentOnly_inner hindent
  obtain ⟨hstart', hend', hlines'⟩ := split_built hcode hstart hend hlines hrest hinner
  obtain ⟨c, u, hfirst, hc⟩ := exists_first hcode hstart hlines
  have hhead : (trimRight first).head? = first.head? := by
    rw [hfirst, trimRight_cons hc]
    rfl
  have hne : code' ≠ [] := by
    intro hnil
    have hfirst' := (List.cons.inj ((congrArg (splitOn '\n') hnil).symm.trans hlines')).1
    rw [← hfirst', hfirst] at hhead
    simp at hhead
  have hbuild := Tag.build_eq (Text.allBlank_of_startsBlank hcode hstart)
    ((Text.trim_eq_self hstart hend).symm ▸ hlines) o.text x.text indent
  have hbuild' := Tag.build_eq (Text.allBlank_of_startsBlank hne hstart')
    ((Text.trim_eq_self hstart' hend').symm ▸ hlines') o.text x.text indent
  constructor
  · rw [Tag.text, hbuild]
    exact Tag.split?_separated o x
      (hhead.symm.trans (head_splitOn (head?_ne_newline hstart') hlines')) hstart' hend'
  · rw [Tag.text, Tag.text, hbuild, hbuild', Text.moveTo_moveTo hrest hinner, separator, hhead,
      Text.trimRight_eq_self (Text.endsBlank_trimRight first), ← separator]

theorem plainLines_built (hplain : PlainLines code) :
    PlainLines (joinLines (trimRight first :: moveTo (inner indent) rest)) := by
  have hpart (l : List Char) (hl : l ∈ first :: rest) : PlainLines l :=
    hplain.mono fun c hc => Text.mem_of_mem_splitOn (hlines ▸ hl) hc
  intro c hc hblank
  rcases Text.mem_joinLines hc with rfl | ⟨l, hl, hc⟩
  · simp
  rcases List.mem_cons.1 hl with rfl | hl
  · obtain ⟨g, hg, -⟩ := Text.trimRight_append first
    refine hpart first List.mem_cons_self c ?_ hblank
    rw [hg]
    exact List.mem_append_left g hc
  · obtain ⟨l, hmem, rfl⟩ := List.mem_map.1 hl
    exact (Text.moved_moveLine hrest hmem (inner indent)).plainLines (isIndentOnly_inner hindent)
      (hpart l (List.mem_cons_of_mem first hmem)) c hc hblank

end Lines

/-- A tag that is built with an indent, as it is read again. -/
theorem Tag.exists_rebuilt {s : List Char} {tag : Tag} (h : Tag.split? s = some tag)
    (hplain : PlainLines tag.code) {indent : List Char} (hindent : ∀ c ∈ indent, c = ' ') :
    ∃ code, Tag.split? (tag.text indent) = some ⟨tag.opener, code, tag.closer⟩ ∧
      Tag.text ⟨tag.opener, code, tag.closer⟩ indent = tag.text indent ∧
      trimmedLines code = trimmedLines tag.code ∧ PlainLines code := by
  obtain ⟨hstart, hend⟩ := Tag.ends_code h
  by_cases hcode : tag.code = []
  · have hempty : tag.text indent = tag.opener.text ++ ([] ++ ' ' :: tag.closer.text) := by
      rw [Tag.text, Tag.build, hcode]
      rfl
    refine ⟨[], ?_, ?_, by rw [hcode], by simp [PlainLines]⟩
    · rw [hempty]
      exact Tag.split?_closed tag.opener tag.closer [] (by simp) (by simp)
    · rw [hempty]
      rfl
  obtain ⟨first, rest, hlines⟩ := List.exists_cons_of_ne_nil (Text.splitOn_ne_nil '\n' tag.code)
  have hrest : ∀ l ∈ rest, Text.allBlank l = true → isIndentOnly l = true := fun l hl =>
    hplain.isIndentOnly (hlines ▸ List.mem_cons_of_mem first hl)
  have hinner := isIndentOnly_inner hindent
  obtain ⟨hread, hsame⟩ :=
    Tag.split?_built hlines hrest hindent hcode hstart hend tag.opener tag.closer
  refine ⟨_, hread, hsame, ?_, plainLines_built hlines hrest hindent hplain⟩
  rw [trimmedLines, trimmedLines, hlines,
    (split_built hcode hstart hend hlines hrest hinner).2.2, List.map_cons, List.map_cons,
    Text.trim_trimRight, Text.trim_moveTo hrest hinner]

end ErbLayout.Erb

namespace ErbLayout.Template

open Text (PlainLines startsBlank endsBlank)

/-- Code without white space around it is laid out as it is. -/
theorem laidCode_eq (checker : Ruby.Checker) {code : List Char} (hstart : startsBlank code = false)
    (hend : endsBlank code = false) (hplain : PlainLines code) : laidCode checker code = code := by
  have hjoin := Text.joinLines_splitLines hplain.isLineBreak hend
  have hkept (closing : List (List Char)) (h : ∀ w ∈ closing, Text.Word w) :
      (Ruby.ofReformatted code (Ruby.onLines closing) (code ++ Ruby.onLines closing)).1 = code :=
    (Ruby.ofReformatted_onLines h hstart hend).trans hjoin
  unfold laidCode
  split
  · rfl
  unfold Job.codeFrom Job.codeGiven
  cases Ruby.classify checker code with
  | blockOpen =>
    obtain ⟨kept, hsub, hsuffix, -⟩ := Ruby.exists_kept checker code [] Ruby.closers
    have heq : Ruby.autocloseSuffix checker code = Ruby.onLines kept := hsuffix
    dsimp only
    rw [heq]
    exact hkept kept fun w hw => Ruby.word_of_keyword (.inl (hsub.subset hw))
  | close => exact hkept [] (by simp)
  | elseLike => exact hkept [] (by simp)
  | standalone => exact hkept [] (by simp)

end ErbLayout.Template
