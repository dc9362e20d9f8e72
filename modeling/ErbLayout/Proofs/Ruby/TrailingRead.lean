import ErbLayout.Proofs.Ruby.TrailingText
/-!
The next token of code with a comment behind it is the next token of the code alone, unless it takes
some of the comment or is a sign that dangles at the end of the code.
-/

namespace ErbLayout.Ruby

/-- White space that no token of its place stands behind. -/
def Gap.Idle (gap : Gap) : Prop :=
  gap = .none ∨ (∃ spaced, gap = .code spaced []) ∨ ∃ spaced k, gap = .code spaced ('#' :: k)

/-- The token that white space comes to, or that is told by its place behind it. -/
def readBehind (expects : Expected) (src : Source) : Gap → Option Read
  | .none => none
  | .lineBreak rest => some { token := .lineBreak, source := src.after rest }
  | .body rest => some { token := .hereDocBodyStart, source := src.beginBody rest }
  | .code spaced s => readPlaced expects src spaced s

theorem readContextual_eq (expects : Expected) (src : Source) : readContextual expects src =
    if !src.delimited.isEmpty && !expects .stringStart &&
        (expects .stringContent || expects .stringEnd) then readDelimited src
    else if src.inBody && !expects .stringStart &&
        (expects .hereDocContent || expects .hereDocEnd) then readBody src
    else readBehind expects src
      (gapFrom (expects .lineBreak && !expects .noLineBreak) src.awaitsBody false none src.rest) := rfl

theorem readBehind_of_idle {expects : Expected} {src : Source} {gap : Gap} (h : gap.Idle) :
    readBehind expects src gap = none := by
  rcases h with rfl | ⟨_, rfl⟩ | ⟨spaced, k, rfl⟩
  · rfl
  · rfl
  · exact readPlaced_comment expects src spaced k

/-- The white space at the start of a text, and of the same text with a comment behind it. -/
inductive Level (t s : List Char) : Gap → Gap → Prop
  | idle {a b : Gap} : a.Idle → b.Idle → Level t s a b
  | code {spaced : Bool} {u : List Char} : u ≠ [] → u <:+ s →
    Level t s (.code spaced u) (.code spaced (u ++ t))

theorem Level.of_suffix {t s s' : List Char} {a b : Gap} (h : Level t s a b) (hs : s <:+ s') :
    Level t s' a b := by
  cases h with
  | idle ha hb => exact .idle ha hb
  | code hu hsuffix => exact .code hu (hsuffix.trans hs)

section Gaps

variable (breaks body : Bool)

theorem gapFrom_blank {b : Char} (hb : isBlank b = true) (spaced : Bool) (s : List Char) :
    gapFrom breaks body spaced none (b :: s) = gapFrom breaks body true none s := by
  rcases blank_cases hb with rfl | rfl <;> simp [gapFrom]

/-- A character that is no white space ends it. -/
theorem gapFrom_solid {c : Char} (hc : isBlank c = false) (hline : c ≠ '\n' ∧ c ≠ '\r')
    (hslash : c ≠ '\\') (spaced : Bool) (s : List Char) :
    gapFrom breaks body spaced none (c :: s) = .code spaced (c :: s) := by
  simp only [isBlank, Bool.or_eq_false_iff, beq_eq_false_iff_ne] at hc
  rw [gapFrom] <;> simp [hc, hline, hslash]

theorem gapFrom_slash {c : Char} (hc : c ≠ '\r') (spaced : Bool) (s : List Char) :
    gapFrom breaks body spaced none ('\\' :: c :: s) =
      if isSpace c then gapFrom breaks body true none s else .none := by
  rw [gapFrom]
  simp [hc]

theorem idle_gapFrom {g : List Char} (hg : ∀ c ∈ g, isBlank c = true) (spaced : Bool)
    (k : List Char) : (gapFrom breaks body spaced none (g ++ '#' :: k)).Idle := by
  induction g generalizing spaced with
  | nil =>
    exact .inr (.inr ⟨spaced, k, gapFrom_solid _ _ (by decide) (by decide) (by decide) _ _⟩)
  | cons b g ih =>
    rw [List.cons_append, gapFrom_blank _ _ (hg b List.mem_cons_self)]
    exact ih (fun c hc => hg c (List.mem_cons_of_mem b hc)) true

theorem level_gapFrom {t : List Char} (ht : Remark t) : ∀ (spaced : Bool) (s : List Char), OneLine s →
    Level t s (gapFrom breaks body spaced none s) (gapFrom breaks body spaced none (s ++ t))
  | spaced, [], _ => by
    obtain ⟨hb, hg, -, -⟩ := ht
    refine .idle (.inr (.inl ⟨spaced, rfl⟩)) ?_
    rw [List.nil_append, gapFrom_blank _ _ hb]
    exact idle_gapFrom breaks body hg true _
  | spaced, c :: s, hline => by
    have hs := List.suffix_cons c s
    by_cases hblank : isBlank c = true
    · rw [List.cons_append, gapFrom_blank _ _ hblank, gapFrom_blank _ _ hblank]
      exact (level_gapFrom ht true s (hline.of_suffix hs)).of_suffix hs
    by_cases hslash : c = '\\'
    · subst hslash
      cases s with
      | nil =>
        obtain ⟨hb, hg, -, -⟩ := ht
        refine .idle (.inl (by simp [gapFrom])) ?_
        rw [List.singleton_append, gapFrom_slash _ _ (ne_of_isBlank hb (by decide)),
          if_pos (isSpace_of_isBlank hb)]
        exact idle_gapFrom breaks body hg true _
      | cons e s =>
        have he := (hline e (List.mem_cons_of_mem _ List.mem_cons_self)).2
        have hse := (List.suffix_cons e s).trans hs
        rw [List.cons_append, List.cons_append, gapFrom_slash _ _ he, gapFrom_slash _ _ he]
        split
        · exact (level_gapFrom ht true s (hline.of_suffix hse)).of_suffix hse
        · exact .idle (.inl rfl) (.inl rfl)
    · have hc := hline c List.mem_cons_self
      have hblank : isBlank c = false := by simpa using hblank
      rw [List.cons_append, gapFrom_solid _ _ hblank hc hslash, gapFrom_solid _ _ hblank hc hslash]
      exact .code (by simp) List.suffix_rfl

end Gaps

section Tokens

variable {t : List Char} (ht : Remark t) (expects : Expected) {src : Source} (hsrc : src.Sane)
include ht hsrc

theorem Level.abreast {s : List Char} {a b : Gap} (h : Level t s a b) :
    Abreast t s (readBehind expects src a) (readBehind expects (src.before t) b) := by
  cases h with
  | idle ha hb =>
    rw [readBehind_of_idle ha, readBehind_of_idle hb]
    exact .nothing
  | code hu hsuffix =>
    exact (abreast_readPlaced ht _ expects hsrc _ hu).of_suffix hsuffix

theorem abreast_readContextual (hline : OneLine src.rest) :
    Abreast t src.rest (readContextual expects src) (readContextual expects (src.before t)) := by
  rw [readContextual_eq, readContextual_eq, hsrc.inBody, (hsrc.before t).inBody, Bool.false_and,
    Bool.false_and]
  refine .ite Iff.rfl (fun _ => abreast_readDelimited ht hsrc) fun _ => ?_
  refine .ite Iff.rfl (fun h => absurd h (by simp)) fun _ => ?_
  exact (level_gapFrom _ src.awaitsBody ht false src.rest hline).abreast ht expects hsrc

end Tokens

/-! Escape sequences -/

section Escapes

variable {b : Char} {p : Char → Bool} (hp : p b = false) (n : Nat) (s u : List Char)
include hp

theorem takeWhile_take_append :
    ((s ++ b :: u).take n).takeWhile p = (s.take n).takeWhile p := by
  rw [List.take_append]
  cases n - s.length with
  | zero => rw [List.take_zero, List.append_nil]
  | succ m => exact Text.takeWhile_append_cons hp _ _

omit hp in
theorem length_takeWhile_take_le : ((s.take n).takeWhile p).length ≤ s.length :=
  (List.takeWhile_prefix p).length_le.trans (List.length_take_le' n s)

theorem skipAtMost_append : skipAtMost n p (s ++ b :: u) = skipAtMost n p s ++ b :: u := by
  rw [skipAtMost, skipAtMost, takeWhile_take_append hp]
  exact List.drop_append_of_le_length (length_takeWhile_take_le n s)

end Escapes

/-- No brace ends a code of characters in a comment. -/
theorem Remark.head?_dropWhile {t : List Char} (ht : Remark t) (p : Char → Bool)
    (hp : p '#' = false) : ((t.dropWhile p).head? == some '}') = false := by
  obtain ⟨hb, hg, -, -⟩ := ht
  rename_i b g k
  have hblank : ∀ c ∈ b :: g, isBlank c = true := List.forall_mem_cons.2 ⟨hb, hg⟩
  rw [← List.cons_append, Text.dropWhile_append_cons hp]
  cases h : (b :: g).dropWhile p with
  | nil => rfl
  | cons c v =>
    have hc := hblank c ((List.dropWhile_suffix p).subset (h ▸ List.mem_cons_self))
    simpa using ne_of_isBlank hc (by decide)

/-- What may stand between the braces of a code of characters. -/
def isCodesChar (c : Char) : Bool := isHexDigit c || c == ' '

theorem afterEscape_codes (s : List Char) : afterEscape ('u' :: '{' :: s) =
    if !(s.takeWhile isCodesChar).isEmpty && (s.dropWhile isCodesChar).head? == some '}' then
      some (s.dropWhile isCodesChar).tail else none := by
  rw [afterEscape, List.span_eq_takeWhile_dropWhile]
  simp only [← isCodesChar.eq_def]
  rcases s.takeWhile isCodesChar with _ | ⟨c, w⟩
  · rfl
  · rcases s.dropWhile isCodesChar with _ | ⟨e, v⟩
    · rfl
    · by_cases he : e = '}'
      · subst he
        rfl
      · simp [he]

theorem afterEscape_plain {c : Char} (hx : c ≠ 'x') (hu : c ≠ 'u') (s : List Char) :
    afterEscape (c :: s) = some (if isOctalDigit c then skipAtMost 2 isOctalDigit s else s) := by
  rw [afterEscape] <;> simp [hx, hu]

theorem afterEscape_unicode {s : List Char} (hs : s.head? ≠ some '{') : afterEscape ('u' :: s) =
    if ((s.take 4).takeWhile isHexDigit).length == 4 then some (s.drop 4) else none := by
  rw [afterEscape]
  rintro v rfl
  exact hs rfl

section Behind

variable {t : List Char} (ht : Remark t)
include ht

theorem afterEscape_codes_append (s : List Char) :
    afterEscape ('u' :: '{' :: (s ++ t)) = (afterEscape ('u' :: '{' :: s)).map (· ++ t) := by
  rw [afterEscape_codes, afterEscape_codes]
  cases hd : s.dropWhile isCodesChar with
  | nil =>
    have hrest : (s ++ t).dropWhile isCodesChar = t.dropWhile isCodesChar := by
      rw [List.dropWhile_append, hd]
      rfl
    rw [hrest, ht.head?_dropWhile isCodesChar (by decide), Bool.and_false, if_neg (by simp)]
    simp
  | cons e w =>
    rw [takeWhile_append_of_stop hd, dropWhile_append_of_stop hd]
    by_cases he : (!(s.takeWhile isCodesChar).isEmpty && some e == some '}') = true
    · rw [if_pos (by simpa using he), if_pos (by simpa using he)]
      rfl
    · rw [if_neg (by simpa using he), if_neg (by simpa using he)]
      rfl

theorem afterEscape_unicode_append {s : List Char} (hs : s.head? ≠ some '{') :
    afterEscape ('u' :: (s ++ t)) = (afterEscape ('u' :: s)).map (· ++ t) := by
  rw [afterEscape_unicode hs, afterEscape_unicode (mt (ht.head?_append_iff (by decide) _).1 hs)]
  obtain ⟨b, u, rfl, hb⟩ := ht.exists_cons
  rw [takeWhile_take_append (isHexDigit_of_isBlank hb)]
  split
  · rename_i hlen
    have hle := length_takeWhile_take_le (p := isHexDigit) 4 s
    rw [beq_iff_eq.1 hlen] at hle
    rw [List.drop_append_of_le_length hle]
    rfl
  · rfl

theorem afterEscape_append {s : List Char} (hs : s ≠ []) :
    afterEscape (s ++ t) = (afterEscape s).map (· ++ t) := by
  obtain ⟨c, s, rfl⟩ := List.exists_cons_of_ne_nil hs
  rw [List.cons_append]
  by_cases hu : c = 'u'
  · subst hu
    by_cases hbrace : s.head? = some '{'
    · obtain ⟨v, rfl⟩ := List.head?_eq_some_iff.1 hbrace
      exact afterEscape_codes_append ht v
    · exact afterEscape_unicode_append ht hbrace
  obtain ⟨b, u, rfl, hb⟩ := ht.exists_cons
  by_cases hx : c = 'x'
  · subst hx
    have hhex := isHexDigit_of_isBlank hb
    rw [afterEscape, afterEscape, skipAtMost_append hhex]
    cases s with
    | nil => simp [hhex]
    | cons e s => cases h : isHexDigit e <;> simp [h]
  · rw [afterEscape_plain hx hu, afterEscape_plain hx hu,
      skipAtMost_append (isOctalDigit_of_isBlank hb)]
    split <;> rfl

end Behind

/-! Comments -/

section Blank

theorem skipBlank_cons {c : Char} {s : List Char} (h : c = '\\' → ∀ e ∈ s.head?, e ≠ '\n' ∧ e ≠ '\r')
    (spaced : Bool) : skipBlank spaced (c :: s) =
      if isSpace c then skipBlank true s else (spaced, c :: s) := by
  rw [skipBlank]
  · rintro u rfl rfl
    exact (h rfl '\n' rfl).1 rfl
  · rintro u rfl rfl
    exact (h rfl '\r' rfl).2 rfl

theorem skipBlank_remark {b : Char} {g k : List Char} (hb : isBlank b = true)
    (hg : ∀ c ∈ g, isBlank c = true) (spaced : Bool) :
    skipBlank spaced (b :: (g ++ '#' :: k)) = (true, '#' :: k) := by
  have hslash := ne_of_isBlank hb (show isBlank '\\' = false by decide)
  rw [skipBlank_cons (fun h => absurd h hslash), if_pos (isSpace_of_isBlank hb)]
  induction g generalizing b with
  | nil =>
    rw [List.nil_append, skipBlank_cons (fun h => absurd h (by decide)), if_neg (by decide)]
  | cons e g ih =>
    have he := hg e List.mem_cons_self
    have hslash' := ne_of_isBlank he (show isBlank '\\' = false by decide)
    rw [List.cons_append, skipBlank_cons (fun h => absurd h hslash'), if_pos (isSpace_of_isBlank he)]
    exact ih he (fun c hc => hg c (List.mem_cons_of_mem e hc)) hslash'

theorem skipBlank_append {b : Char} (hb : isBlank b = true) (t : List Char) {s : List Char}
    (hline : OneLine s) (spaced : Bool) : skipBlank spaced (s ++ b :: t) =
      if (skipBlank spaced s).2 = [] then skipBlank (skipBlank spaced s).1 (b :: t)
      else ((skipBlank spaced s).1, (skipBlank spaced s).2 ++ b :: t) := by
  induction s generalizing spaced with
  | nil => simp [skipBlank]
  | cons c s ih =>
    have hs := hline.of_suffix (List.suffix_cons c s)
    have hnext : ∀ e ∈ s.head?, e ≠ '\n' ∧ e ≠ '\r' := fun e he => hs e (List.mem_of_mem_head? he)
    have hnext' : ∀ e ∈ (s ++ b :: t).head?, e ≠ '\n' ∧ e ≠ '\r' := by
      cases s with
      | nil =>
        intro e he
        obtain rfl := Option.some.inj he
        exact ⟨ne_of_isBlank hb (by decide), ne_of_isBlank hb (by decide)⟩
      | cons e s => exact hnext
    rw [List.cons_append, skipBlank_cons (fun _ => hnext), skipBlank_cons (fun _ => hnext')]
    split
    · exact ih hs true
    · simp

end Blank

section Comments

variable {t : List Char} (ht : Remark t)
include ht

theorem Remark.not_mem : '\n' ∉ t := by
  obtain ⟨hb, hg, hk, -⟩ := ht
  have hblank {c : Char} (hc : isBlank c = true) : '\n' ≠ c := (ne_of_isBlank hc (by decide)).symm
  simp only [List.mem_cons, List.mem_append, not_or]
  exact ⟨hblank hb, fun h => hblank (hg _ h) rfl, by decide, hk⟩

omit ht in
theorem OneLine.not_mem {s : List Char} (h : OneLine s) : '\n' ∉ s := fun hn => (h _ hn).1 rfl

omit ht in
theorem afterBlockComment_of_not_mem {s : List Char} (h : '\n' ∉ s) : afterBlockComment s = none := by
  rw [afterBlockComment, skipLine_of_not_mem h]
  split <;> rfl

omit ht in
theorem afterComment_of_oneLine {expects : Expected} {s r : List Char} (hline : OneLine s)
    (h : afterComment expects s = some r) : r = [] := by
  unfold afterComment at h
  split at h
  · rename_i u
    split at h
    · simp at h
    · rw [← Option.some.inj h]
      exact skipLine_of_not_mem (hline.of_suffix (List.suffix_cons _ u)).not_mem
  · rw [afterBlockComment_of_not_mem hline.not_mem] at h
    simp at h
  · simp at h

/-- A comment in a line goes on to the end of the line. -/
theorem afterComment_append (expects : Expected) {s : List Char} (hs : s ≠ []) (hline : OneLine s) :
    afterComment expects (s ++ t) = afterComment expects s := by
  obtain ⟨c, s, rfl⟩ := List.exists_cons_of_ne_nil hs
  have hmem : '\n' ∉ s ++ t := by
    rw [List.mem_append, not_or]
    exact ⟨(hline.of_suffix (List.suffix_cons c s)).not_mem, ht.not_mem⟩
  by_cases hsign : c = '#'
  · subst hsign
    rw [List.cons_append, afterComment, afterComment, ht.head?_append_beq (by decide),
      skipLine_of_not_mem hmem, skipLine_of_not_mem (hline.of_suffix (List.suffix_cons _ s)).not_mem]
  by_cases hassign : c = '='
  · subst hassign
    have hmem' : '\n' ∉ '=' :: (s ++ t) := by simpa using hmem
    rw [List.cons_append, afterComment, afterComment, afterBlockComment_of_not_mem hmem',
      afterBlockComment_of_not_mem hline.not_mem]
  · simp [afterComment, hsign, hassign]

end Comments

theorem not_dangling_of_mem_signReaches {signs : List (List Char × Token)}
    (hsigns : ∀ y ∈ signs, y.2 ∉ danglingSigns) {s : List Char} {x : Reach}
    (h : x ∈ signReaches signs s) : x.1 ∉ danglingSigns := by
  obtain ⟨⟨text, token⟩, hmem, h⟩ := List.mem_filterMap.1 h
  rw [Option.ite_none_right_eq_some, Option.some.injEq] at h
  exact h.2 ▸ hsigns _ hmem

theorem not_dangling_of_mem_lexemeReaches {s : List Char} {x : Reach} (h : x ∈ lexemeReaches s) :
    x.1 ∉ danglingSigns := by
  have hreach {token : Token} (htoken : token ∉ danglingSigns) {rest : Option (List Char)}
      (hx : x ∈ rest.toList.map fun r => (token, r)) : x.1 ∉ danglingSigns := by
    obtain ⟨r, -, rfl⟩ := List.mem_map.1 hx
    exact htoken
  have hkeywords : ∀ y ∈ Token.keywords, y.2 ∉ danglingSigns := by decide
  unfold lexemeReaches at h
  dsimp only at h
  split at h
  · simp at h
  · exact hreach (by decide) h
  · exact hreach (by decide) h
  · rw [List.mem_singleton] at h
    exact h ▸ (show Token.globalVariable ∉ danglingSigns by decide)
  · exact hreach (by decide) h
  · split at h
    · rcases List.mem_append.1 h with h | h
      · exact hreach (by decide) h
      · exact hreach (by decide) h
    · split at h
      · exact hreach (by decide) h
      · unfold nameReaches at h
        split at h
        · simp at h
        · rename_i w r hw
          rcases List.mem_append.1 h with h | h
          · rcases List.mem_append.1 h with h | h
            · split at h
              · rw [List.mem_singleton] at h
                exact h ▸ by decide
              · simp at h
            · obtain ⟨token, htoken, rfl⟩ := List.mem_map.1 h
              exact hkeywords _ (mem_of_lookup (Option.mem_toList.1 htoken))
          · rw [List.mem_singleton] at h
            exact h ▸ (show Token.identifier ∉ danglingSigns by decide)

/-- Signs that dangle are told by where they stand, not by their text. -/
theorem not_dangling_of_mem_reaches {spaced : Bool} {s : List Char} {x : Reach}
    (h : x ∈ reaches spaced s) : x.1 ∉ danglingSigns := by
  rw [reaches, List.mem_append, List.mem_append] at h
  rcases h with (h | h) | h
  · split at h
    · simp at h
    · exact not_dangling_of_mem_signReaches (by decide) h
  · exact not_dangling_of_mem_signReaches (by decide) h
  · exact not_dangling_of_mem_lexemeReaches h

section Tokens

variable {t : List Char} (ht : Remark t) (expects : Expected) {src : Source} (hsrc : src.Sane)
include ht hsrc

theorem abreast_readEscape :
    Abreast t src.rest (readEscape expects src) (readEscape expects (src.before t)) := by
  obtain ⟨rest, delimited, hereDocs⟩ := src
  rcases rest with _ | ⟨c, s⟩
  · obtain ⟨b, u, rfl, hb⟩ := ht.exists_cons
    have hslash : b ≠ '\\' := ne_of_isBlank hb (by decide)
    simpa [readEscape, Source.before, hslash] using .nothing
  by_cases hslash : c = '\\'
  · subst hslash
    have hread (u : List Char) : readEscape expects ⟨'\\' :: u, delimited, hereDocs⟩ =
        if expects .escapeSequence then
          (afterEscape u).map fun rest => ⟨.escapeSequence, ⟨rest, delimited, hereDocs⟩, false⟩
        else none := rfl
    rw [Source.before, List.cons_append, hread, hread]
    refine .ite Iff.rfl (fun _ => ?_) fun _ => .nothing
    rcases s with _ | ⟨c, s⟩
    · obtain ⟨b, u, rfl, hb⟩ := ht.exists_cons
      rw [List.nil_append, afterEscape_plain (ne_of_isBlank hb (by decide))
        (ne_of_isBlank hb (by decide)), isOctalDigit_of_isBlank hb, if_neg (by simp)]
      exact .taken (Read.not_spares_of_length (by simp) (Nat.lt_succ_self _))
    · rw [afterEscape_append ht (by simp)]
      cases hr : afterEscape (c :: s) with
      | none => exact .nothing
      | some r =>
        exact .alike (r := ⟨.escapeSequence, ⟨r, delimited, hereDocs⟩, false⟩)
          ((behind_afterEscape hr).trans_suffix (List.suffix_cons _ _)) ⟨hsrc.delimited, hsrc.begun⟩
  · simpa [readEscape, Source.before, hslash] using .nothing

omit hsrc in
theorem calm_readTold (spaced : Bool) {s : List Char} (hs : s ≠ []) (hline : OneLine s) :
    Calm t s src (readTold expects src spaced s)
      (readTold expects (src.before t) spaced (s ++ t)) := by
  obtain ⟨b, u, rfl, hb⟩ := ht.exists_cons
  have hread (src : Source) {v : List Char} (hv : v ≠ []) : readTold expects src spaced v =
      (farthest ((reaches spaced v).filter fun r => expects r.1)).map fun x =>
        { token := x.1, source := src.after x.2,
          blockWord := x.1 == .identifier &&
            ((readWord v).bind fun y => Token.keywords.lookup y.1).any
              Token.blockKeywords.contains } := by
    obtain ⟨c, v, rfl⟩ := List.exists_cons_of_ne_nil hv
    rfl
  have hkeyword : ((readWord (s ++ b :: u)).bind fun y => Token.keywords.lookup y.1) =
      (readWord s).bind fun y => Token.keywords.lookup y.1 := by
    rw [readWord_append hb]
    cases readWord s <;> rfl
  have hfilter : ((reaches spaced s).map (Reach.before (b :: u))).filter (fun r => expects r.1) =
      ((reaches spaced s).filter fun r => expects r.1).map (Reach.before (b :: u)) :=
    List.filter_map
  rw [hread src hs, hread _ (by simp), hkeyword, reaches_append hb s u spaced hs hline, hfilter,
    farthest_before]
  cases hfar : farthest ((reaches spaced s).filter fun r => expects r.1) with
  | none => exact .nothing
  | some x =>
    have hmem := (List.mem_filter.1 (mem_of_farthest hfar)).1
    exact .found (not_dangling_of_mem_reaches hmem) (behind_reaches hline hmem)

omit ht in
/-- Nothing but the end comes at the end of the code. -/
theorem readFrom_nil {n : Nat} (hn : 0 < n) :
    readFrom expects n (src.after []) = some { token := .endOfCode, source := src.after [] } := by
  obtain ⟨n, rfl⟩ := Nat.exists_eq_succ_of_ne_zero hn.ne'
  have hdelimited : readDelimited (src.after []) = none := by
    obtain ⟨rest, delimited, hereDocs⟩ := src
    rcases delimited with _ | ⟨d, outer⟩
    · rfl
    · obtain ⟨q, hq, -⟩ := (hsrc.delimited d List.mem_cons_self).closing
      simp [readDelimited, Source.after, Delimited.stop, hq]
  have hplaced : readContextual expects (src.after []) = none := by
    rw [readContextual_eq, hdelimited, (hsrc.after []).inBody]
    simp [Source.after, gapFrom, readBehind, readPlaced]
  rw [readFrom, hplaced]
  rfl

/-- The token that is told by the text alone, after the comments before it. -/
def readAfterGap (expects : Expected) (fuel : Nat) (src : Source) : Option Read :=
  let (spaced, s) := skipBlank false src.rest
  match afterComment expects s with
  | some rest => readFrom expects fuel (src.after rest)
  | none => readTold expects src spaced s

omit ht hsrc in
theorem readFrom_succ (fuel : Nat) (src : Source) : readFrom expects (fuel + 1) src =
    ((readContextual expects src).or (readEscape expects src)).or (readAfterGap expects fuel src) := rfl

theorem calm_readAfterGap (hline : OneLine src.rest) : Calm t src.rest src
    (readAfterGap expects src.rest.length src)
    (readAfterGap expects (src.rest ++ t).length (src.before t)) := by
  obtain ⟨hb, hg, hk, hbrace⟩ := id ht
  rename_i b g k
  set t := b :: (g ++ '#' :: k)
  have hsuffix := skipBlank_suffix false src.rest
  have hbefore : (src.before t).rest = src.rest ++ t := rfl
  rw [readAfterGap, readAfterGap, hbefore, skipBlank_append hb (g ++ '#' :: k) hline]
  generalize skipBlank false src.rest = x at hsuffix
  obtain ⟨spaced, u⟩ := x
  dsimp only at hsuffix ⊢
  by_cases hu : u = []
  · rw [if_pos hu, skipBlank_remark hb hg, hu]
    have hcode : ¬ (k.head? == some '{' && expects .codeStart) = true := by simp [hbrace]
    have hcomment : afterComment expects ('#' :: k) = some [] := by
      rw [afterComment, if_neg hcode, skipLine_of_not_mem hk]
    rw [hcomment]
    dsimp only
    rw [readFrom_nil expects (hsrc.before t)
      (by simp only [t, List.length_cons, List.length_append]; omega)]
    exact .ends
  · rw [if_neg hu, afterComment_append ht expects hu (hline.of_suffix hsuffix)]
    cases hc : afterComment expects u with
    | none =>
      exact (calm_readTold ht expects spaced hu (hline.of_suffix hsuffix)).of_suffix hsuffix
    | some r =>
      obtain rfl := afterComment_of_oneLine (hline.of_suffix hsuffix) hc
      have hpos := (List.length_pos_iff.2 hu).trans_le hsuffix.length_le
      dsimp only
      rw [readFrom_nil expects hsrc hpos,
        readFrom_nil expects (hsrc.before t) (by rw [List.length_append]; omega)]
      exact .ends

theorem abreast_read (hline : OneLine src.rest) :
    Abreast t src.rest (read expects src) (read expects (src.before t)) := by
  have hcontextual := abreast_readContextual ht expects hsrc hline
  rw [read, read, readFrom_succ, readFrom_succ]
  exact (hcontextual.or (abreast_readEscape ht expects hsrc)).or
    ((calm_readAfterGap ht expects hsrc hline).abreast hsrc)

end Tokens

end ErbLayout.Ruby
