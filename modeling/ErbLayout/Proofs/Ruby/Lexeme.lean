import Mathlib.Data.List.Basic
import Mathlib.Data.List.Find
import Mathlib.Data.List.TakeDrop
import ErbLayout.Proofs.Text.Words
import ErbLayout.Ruby.Reading
/-!
How far the words, numbers and signs of Ruby reach. White space ends each of them, so that it does
not count what stands behind it.
-/

namespace ErbLayout.Ruby

/-- What is left of a text when something was taken off its front. -/
structure Behind (r s : List Char) : Prop where
  suffix : r <:+ s
  shorter : r.length < s.length

theorem Behind.of_suffix {r s : List Char} (c : Char) (h : r <:+ s) : Behind r (c :: s) :=
  ⟨h.trans (List.suffix_cons c s), Nat.lt_succ_of_le h.length_le⟩

theorem Behind.trans_suffix {r s s' : List Char} (h : Behind r s) (hs : s <:+ s') : Behind r s' :=
  ⟨h.suffix.trans hs, Nat.lt_of_lt_of_le h.shorter hs.length_le⟩

theorem Behind.suffix_trans {r r' s : List Char} (hr : r' <:+ r) (h : Behind r s) : Behind r' s :=
  ⟨hr.trans h.suffix, Nat.lt_of_le_of_lt hr.length_le h.shorter⟩

theorem behind_drop {n : Nat} {s : List Char} (hn : 0 < n) (hs : s ≠ []) : Behind (s.drop n) s := by
  refine ⟨List.drop_suffix n s, ?_⟩
  have hlen := List.length_pos_iff.2 hs
  rw [List.length_drop]
  omega

section Blank

variable {b : Char} (hb : isBlank b = true)
include hb

theorem blank_cases : b = ' ' ∨ b = '\t' := by
  simpa [isBlank] using hb

theorem isSpace_of_isBlank : isSpace b = true := by
  rcases blank_cases hb with rfl | rfl <;> decide

theorem isWordChar_of_isBlank : isWordChar b = false := by
  simp [isWordChar, isSpace_of_isBlank hb]

theorem isWordStart_of_isBlank : isWordStart b = false := by
  simp [isWordStart, isWordChar_of_isBlank hb]

theorem isNameChar_of_isBlank : isNameChar b = false := by
  rcases blank_cases hb with rfl | rfl <;> decide

theorem isSmall_of_isBlank : isSmall b = false := by
  rcases blank_cases hb with rfl | rfl <;> decide

theorem isHexDigit_of_isBlank : isHexDigit b = false := by
  rcases blank_cases hb with rfl | rfl <;> decide

theorem isDigit_of_isBlank : isDigit b = false := by
  rcases blank_cases hb with rfl | rfl <;> decide

theorem isOctalDigit_of_isBlank : isOctalDigit b = false := by
  rcases blank_cases hb with rfl | rfl <;> decide

end Blank

theorem ne_of_isBlank {b c : Char} (hb : isBlank b = true) (hc : isBlank c = false) : b ≠ c := by
  rintro rfl
  rw [hb] at hc
  exact absurd hc (by simp)

/-! Words -/

section Append

variable {b : Char} (hb : isBlank b = true) (s t : List Char)
include hb

theorem readWord_append :
    readWord (s ++ b :: t) = (readWord s).map fun x => (x.1, x.2 ++ b :: t) := by
  cases s with
  | nil => simp [readWord, isWordStart_of_isBlank hb]
  | cons c s =>
    have hword := isWordChar_of_isBlank hb
    rw [List.cons_append, readWord, readWord]
    split
    · rw [List.span_eq_takeWhile_dropWhile, List.span_eq_takeWhile_dropWhile, ← List.cons_append,
        Text.takeWhile_append_cons hword, Text.dropWhile_append_cons hword]
      rfl
    · rfl

theorem afterWord_append : afterWord (s ++ b :: t) = (afterWord s).map (· ++ b :: t) := by
  rw [afterWord, afterWord, readWord_append hb, Option.map_map, Option.map_map]
  rfl

theorem afterSuffix_append : afterSuffix (s ++ b :: t) = (afterSuffix s).map (· ++ b :: t) := by
  have heq : b ≠ '=' := ne_of_isBlank hb (by decide)
  rcases s with _ | ⟨c, s⟩
  · rcases blank_cases hb with rfl | rfl <;> rfl
  by_cases hbang : c = '!'
  · subst hbang
    rcases s with _ | ⟨d, s⟩
    · simp [afterSuffix, heq]
    · by_cases hd : d = '='
      · subst hd
        rfl
      · simp [afterSuffix, hd]
  by_cases hquestion : c = '?'
  · subst hquestion
    rcases s with _ | ⟨d, s⟩
    · simp [afterSuffix, heq]
    by_cases hd : d = '='
    · subst hd
      rcases s with _ | ⟨e, s⟩
      · rcases blank_cases hb with rfl | rfl <;> rfl
      · by_cases he : e = '=' ∨ e = '~' ∨ e = '>'
        · rcases he with rfl | rfl | rfl <;> rfl
        · rw [not_or, not_or] at he
          simp [afterSuffix, he]
    · simp [afterSuffix, hd]
  · simp [afterSuffix, hbang, hquestion]

end Append

theorem behind_readWord {s w r : List Char} (h : readWord s = some (w, r)) : Behind r s := by
  cases s with
  | nil => simp [readWord] at h
  | cons c s =>
    rw [readWord] at h
    split at h
    · rename_i hc
      rw [isWordStart, Bool.and_eq_true] at hc
      rw [List.span_eq_takeWhile_dropWhile, Option.some.injEq, Prod.mk.injEq,
        List.dropWhile_cons_of_pos hc.1] at h
      rw [← h.2]
      exact .of_suffix c (List.dropWhile_suffix _)
    · simp at h

theorem behind_afterWord {s r : List Char} (h : afterWord s = some r) : Behind r s := by
  obtain ⟨⟨w, r'⟩, hw, rfl⟩ := Option.map_eq_some_iff.1 h
  exact behind_readWord hw

theorem afterSuffix_suffix {s r : List Char} (h : afterSuffix s = some r) : r <:+ s := by
  unfold afterSuffix at h
  split at h <;> simp only [reduceCtorEq, Option.some.injEq] at h
  all_goals exact h ▸ List.suffix_cons _ _

/-! Numbers -/

section Digits

variable {digit : Char → Bool}

theorem skipDigits_suffix (s : List Char) : skipDigits digit s <:+ s := by
  fun_induction skipDigits digit s with
  | case1 => exact List.suffix_rfl
  | case2 c s _ ih => exact (ih.trans (List.suffix_cons c s)).trans (List.suffix_cons _ _)
  | case3 => exact List.suffix_rfl
  | case4 c s _ _ ih => exact ih.trans (List.suffix_cons c s)
  | case5 => exact List.suffix_rfl

theorem behind_afterDigits {s r : List Char} (h : afterDigits digit s = some r) : Behind r s := by
  cases s with
  | nil => simp [afterDigits] at h
  | cons c s =>
    rw [afterDigits_cons, Option.ite_none_right_eq_some, Option.some.injEq] at h
    exact .of_suffix c (h.2 ▸ skipDigits_suffix s)

end Digits

/-- No digits are white space or underscores. -/
structure Digits (digit : Char → Bool) : Prop where
  blank : ∀ b, isBlank b = true → digit b = false
  underscore : digit '_' = false

theorem digits_isDigit : Digits isDigit := ⟨fun _ => isDigit_of_isBlank, by decide⟩

theorem digits_of_mem_bases {c : Char} {digit : Char → Bool} (h : (c, digit) ∈ bases) :
    Digits digit := by
  have hall : ∀ p ∈ bases, p.2 ' ' = false ∧ p.2 '\t' = false ∧ p.2 '_' = false := by decide
  obtain ⟨hspace, htab, hunderscore⟩ := hall _ h
  refine ⟨fun b hb => ?_, hunderscore⟩
  rcases blank_cases hb with rfl | rfl
  · exact hspace
  · exact htab

theorem mem_of_lookup {α β : Type} [BEq α] [LawfulBEq α] {a : α} {x : β} {l : List (α × β)}
    (h : l.lookup a = some x) : (a, x) ∈ l := by
  obtain ⟨l₁, l₂, rfl, -⟩ := List.lookup_eq_some_iff.1 h
  simp

section Append

variable {b : Char} (hb : isBlank b = true) (s t : List Char)
include hb

section Digits

variable {digit : Char → Bool} (hd : Digits digit)
include hd

theorem skipDigits_append : skipDigits digit (s ++ b :: t) = skipDigits digit s ++ b :: t := by
  have hne : b ≠ '_' := ne_of_isBlank hb (by decide)
  have hdigit := hd.blank b hb
  fun_induction skipDigits digit s with
  | case1 => simp [skipDigits, hdigit, hne]
  | case2 c s hc ih => simpa [skipDigits, hc] using ih
  | case3 c s hc => simp [skipDigits, hc]
  | case4 c s hno hc ih =>
    have hunderscore : c ≠ '_' := fun h => by simp [h, hd.underscore] at hc
    simpa [skipDigits, hc, hunderscore] using ih
  | case5 c s hno hc =>
    by_cases hunderscore : c = '_'
    · subst hunderscore
      cases s with
      | nil => simp [skipDigits, hdigit]
      | cons d s => exact absurd rfl (hno d s rfl)
    · simp [skipDigits, hc, hunderscore]

theorem afterDigits_append :
    afterDigits digit (s ++ b :: t) = (afterDigits digit s).map (· ++ b :: t) := by
  cases s with
  | nil => simp [afterDigits, hd.blank b hb]
  | cons c s =>
    rw [List.cons_append, afterDigits_cons, afterDigits_cons]
    split
    · rw [skipDigits_append hb s t hd]
      rfl
    · rfl

end Digits

theorem skipExponent_append : skipExponent (s ++ b :: t) = skipExponent s ++ b :: t := by
  have he : b ≠ 'e' := ne_of_isBlank hb (by decide)
  have hE : b ≠ 'E' := ne_of_isBlank hb (by decide)
  have hplus : b ≠ '+' := ne_of_isBlank hb (by decide)
  have hminus : b ≠ '-' := ne_of_isBlank hb (by decide)
  cases s with
  | nil => simp [skipExponent, he, hE]
  | cons e s =>
    rw [List.cons_append, skipExponent, skipExponent]
    split
    · cases s with
      | nil => simp [hplus, hminus, afterDigits, isDigit_of_isBlank hb]
      | cons c s =>
        by_cases hsign : c = '+' ∨ c = '-'
        · have hdigits := afterDigits_append hb s t digits_isDigit
          cases h : afterDigits isDigit s <;> simp [hsign, hdigits, h]
        · have hdigits := afterDigits_append hb (c :: s) t digits_isDigit
          rw [List.cons_append] at hdigits
          cases h : afterDigits isDigit (c :: s) <;> simp [hsign, hdigits, h]
    · rfl

theorem afterInteger_append : afterInteger (s ++ b :: t) = (afterInteger s).map (· ++ b :: t) := by
  have hnone : bases.lookup b = none := by
    rcases blank_cases hb with rfl | rfl <;> rfl
  have hzero : b ≠ '0' := ne_of_isBlank hb (by decide)
  have hplain := afterDigits_append hb s t digits_isDigit
  unfold afterInteger
  rw [hplain]
  rcases s with _ | ⟨c, _ | ⟨d, s⟩⟩
  · simp [hzero, afterDigits]
  · by_cases hc : c = '0'
    · subst hc
      simp [hnone]
    · simp [hc]
  · by_cases hc : c = '0'
    · subst hc
      cases hd : bases.lookup d with
      | none => simp [hd]
      | some digit =>
        have hdigits := digits_of_mem_bases (mem_of_lookup hd)
        simp [hd, afterDigits_append hb s t hdigits, Option.map_or]
    · simp [hc]

theorem afterFloat_append : afterFloat (s ++ b :: t) = (afterFloat s).map (· ++ b :: t) := by
  have hpoint : b ≠ '.' := ne_of_isBlank hb (by decide)
  have hdigit := isDigit_of_isBlank hb
  rw [afterFloat, afterFloat, afterDigits_append hb s t digits_isDigit, Option.map_map,
    Option.map_map]
  refine congrArg (Option.map · _) (funext fun r => ?_)
  have hexponent := skipExponent_append hb
  rcases r with _ | ⟨c, _ | ⟨d, r⟩⟩
  · simpa [hpoint] using hexponent [] t
  · by_cases hc : c = '.'
    · subst hc
      simpa [hdigit] using hexponent ['.'] t
    · simpa [hc] using hexponent [c] t
  · by_cases hc : c = '.'
    · subst hc
      cases hd : isDigit d with
      | true =>
        have hdigits := skipDigits_append hb r t digits_isDigit
        simpa [hd, hdigits] using hexponent (skipDigits isDigit r) t
      | false => simpa [hd] using hexponent ('.' :: d :: r) t
    · simpa [hc] using hexponent (c :: d :: r) t

theorem afterGlobal_append : afterGlobal (s ++ b :: t) = afterGlobal s ++ b :: t := by
  have hminus : b ≠ '-' := ne_of_isBlank hb (by decide)
  have hdigit := isDigit_of_isBlank hb
  have hname := isNameChar_of_isBlank hb
  have hsign : b ∉ globalSigns := by
    rcases blank_cases hb with rfl | rfl <;> decide
  have hstretch := Text.dropWhile_append_cons hdigit
  have hstretch' := Text.dropWhile_append_cons hname
  rcases s with _ | ⟨c, s⟩
  · simp [afterGlobal, hminus, hdigit, hname, hsign]
  by_cases hc : c = '-'
  · subst hc
    rcases s with _ | ⟨d, s⟩
    · simp [afterGlobal, hdigit, hname, hsign]
    · cases hd : isDigit d <;> cases hd' : isNameChar d <;> by_cases hd'' : d ∈ globalSigns <;>
        simp [afterGlobal, hd, hd', hd'', hstretch, hstretch']
  · cases hd : isDigit c <;> cases hd' : isNameChar c <;> by_cases hd'' : c ∈ globalSigns <;>
      simp [afterGlobal, hc, hd, hd', hd'', hstretch, hstretch']

theorem isPrefixOf_append {w : List Char} (hw : ∀ c ∈ w, isBlank c = false) :
    w.isPrefixOf (s ++ b :: t) = w.isPrefixOf s := by
  rw [Bool.eq_iff_iff, List.isPrefixOf_iff_prefix, List.isPrefixOf_iff_prefix]
  refine ⟨fun h => ?_, fun h => h.trans (List.prefix_append s _)⟩
  rcases List.prefix_or_prefix_of_prefix h (List.prefix_append s (b :: t)) with hs | ⟨u, rfl⟩
  · exact hs
  · cases u with
    | nil => exact (List.append_nil s).symm ▸ List.prefix_rfl
    | cons c u =>
      obtain ⟨rfl, -⟩ := List.cons_prefix_cons.1 ((List.prefix_append_right_inj s).1 h)
      exact absurd (hw c (by simp)) (by simp [hb])

omit hb in
theorem drop_append_of_isPrefixOf {w : List Char} (h : w.isPrefixOf s = true) :
    (s ++ b :: t).drop w.length = s.drop w.length ++ b :: t :=
  List.drop_append_of_le_length (List.isPrefixOf_iff_prefix.1 h).length_le

theorem skipVariableSign_append :
    skipVariableSign (s ++ b :: t) = skipVariableSign s ++ b :: t := by
  have hat : b ≠ '@' := ne_of_isBlank hb (by decide)
  have hdollar : b ≠ '$' := ne_of_isBlank hb (by decide)
  rcases s with _ | ⟨c, _ | ⟨d, s⟩⟩
  · simp [skipVariableSign, hat, hdollar]
  · by_cases hc : c = '@' ∨ c = '$'
    · rcases hc with rfl | rfl <;> simp [skipVariableSign, hat]
    · rw [not_or] at hc
      simp [skipVariableSign, hc]
  · by_cases hc : c = '@' ∨ c = '$'
    · rcases hc with rfl | rfl
      · by_cases hd : d = '@'
        · subst hd
          rfl
        · simp [skipVariableSign, hd]
      · rfl
    · rw [not_or] at hc
      simp [skipVariableSign, hc]

theorem skipAssign_append : skipAssign (s ++ b :: t) = skipAssign s ++ b :: t := by
  have hassign : b ≠ '=' := ne_of_isBlank hb (by decide)
  have htilde : b ≠ '~' := ne_of_isBlank hb (by decide)
  have hgreater : b ≠ '>' := ne_of_isBlank hb (by decide)
  rcases s with _ | ⟨c, s⟩
  · simp [skipAssign, hassign]
  · by_cases hc : c = '='
    · subst hc
      rcases s with _ | ⟨d, s⟩
      · simp [skipAssign, hassign, htilde, hgreater]
      · by_cases hd : (d = '~' ∨ d = '>') ∨ d = '=' <;> simp [skipAssign, hd]
    · simp [skipAssign, hc]

theorem skipSymbolEnd_append : skipSymbolEnd (s ++ b :: t) = skipSymbolEnd s ++ b :: t := by
  have hquestion : b ≠ '?' := ne_of_isBlank hb (by decide)
  have hbang : b ≠ '!' := ne_of_isBlank hb (by decide)
  unfold skipSymbolEnd
  rw [Text.dropWhile_append_cons (isWordChar_of_isBlank hb)]
  dsimp only
  rcases s.dropWhile isWordChar with _ | ⟨c, u⟩
  · simpa [hquestion, hbang] using skipAssign_append hb [] t
  · by_cases hc : c = '?' ∨ c = '!'
    · simpa [hc] using skipAssign_append hb u t
    · simpa [hc] using skipAssign_append hb (c :: u) t

theorem afterSymbol_append : afterSymbol (s ++ b :: t) = (afterSymbol s).map (· ++ b :: t) := by
  have hall : ∀ op ∈ symbolOperators, op.all (!isBlank ·) = true := by decide
  have hops : ∀ op ∈ symbolOperators, ∀ c ∈ op, isBlank c = false := fun op hop c hc => by
    simpa using List.all_eq_true.1 (hall op hop) c hc
  have hfind (u : List Char) : symbolOperators.find? (·.isPrefixOf (u ++ b :: t)) =
      symbolOperators.find? (·.isPrefixOf u) :=
    List.find?_congr fun op hop => isPrefixOf_append hb u t (hops op hop)
  unfold afterSymbol
  rw [skipVariableSign_append hb]
  dsimp only
  rw [hfind]
  rcases skipVariableSign s with _ | ⟨c, u⟩
  · have hnone : symbolOperators.find? (·.isPrefixOf []) = none := by decide
    simp [isWordChar_of_isBlank hb, hnone]
  · rw [List.cons_append]
    dsimp only
    cases hc : isWordChar c with
    | true => simp [skipSymbolEnd_append hb]
    | false =>
      cases hop : symbolOperators.find? (·.isPrefixOf (c :: u)) with
      | none => rfl
      | some op =>
        have hprefix : op.isPrefixOf (c :: u) = true :=
          List.find?_some (p := fun op => List.isPrefixOf op (c :: u)) hop
        have hdrop := drop_append_of_isPrefixOf (b := b) (c :: u) t hprefix
        rw [List.cons_append] at hdrop
        simp [hdrop, skipSymbolEnd_append hb]

theorem skipCharacterCode_append :
    skipCharacterCode (s ++ b :: t) = skipCharacterCode s ++ b :: t := by
  have hspace := isSpace_of_isBlank hb
  have hhex := isHexDigit_of_isBlank hb
  have hopen : b ≠ '{' := ne_of_isBlank hb (by decide)
  have hclose : b ≠ '}' := ne_of_isBlank hb (by decide)
  have hminus : b ≠ '-' := ne_of_isBlank hb (by decide)
  have hmeta : b ≠ 'M' := ne_of_isBlank hb (by decide)
  have hcontrol : b ≠ 'C' := ne_of_isBlank hb (by decide)
  have hstretch := Text.dropWhile_append_cons hhex
  rcases s with _ | ⟨c, s⟩
  · simp [skipCharacterCode, hopen, hminus, hhex]
  by_cases hc : c = '{'
  · subst hc
    rw [List.cons_append, skipCharacterCode, skipCharacterCode, hstretch]
    rcases s.dropWhile isHexDigit with _ | ⟨d, u⟩
    · simp [hclose]
    · by_cases hd : d = '}'
      · subst hd
        rfl
      · simp [hd]
  by_cases hc' : c = '-'
  · subst hc'
    rcases s with _ | ⟨d, s⟩
    · simp [skipCharacterCode, hspace, show isHexDigit '-' = false by decide]
    · cases hd : isSpace d with
      | true => simp [skipCharacterCode, hd]
      | false =>
        rcases s with _ | ⟨m, _ | ⟨e, _ | ⟨f, s⟩⟩⟩
        · have hkey : skipCharacterCode ('-' :: d :: b :: t) = b :: t := by
            simp only [skipCharacterCode, hd, Bool.false_eq_true, if_false]
            split
            · rename_i heq
              obtain ⟨rfl, -⟩ := List.cons.inj heq
              simp [hmeta, hcontrol]
            · rfl
          simpa [skipCharacterCode, hd] using hkey
        · simp [skipCharacterCode, hd, hminus]
        · by_cases he : e = '-' <;> simp [skipCharacterCode, hd, he, hspace]
        · by_cases he : e = '-'
          · subst he
            cases h : (m == 'M' || m == 'C') && !isSpace f <;> simp [skipCharacterCode, hd, h]
          · simp [skipCharacterCode, hd, he]
  · simpa [skipCharacterCode, hc, hc'] using hstretch (c :: s) t

theorem afterCharacter_append :
    afterCharacter (s ++ b :: t) = (afterCharacter s).map (· ++ b :: t) := by
  have hspace := isSpace_of_isBlank hb
  have hslash : b ≠ '\\' := ne_of_isBlank hb (by decide)
  rcases s with _ | ⟨c, s⟩
  · simp [afterCharacter, hspace, hslash]
  by_cases hc : c = '\\'
  · subst hc
    rcases s with _ | ⟨d, s⟩
    · have hplain : isSpace '\\' = false := by decide
      simp [afterCharacter, hspace, hplain]
    · cases hd : isSpace d <;> simp [afterCharacter, hd, skipCharacterCode_append hb]
  · cases hd : isSpace c <;> simp [afterCharacter, hc, hd]

end Append

section Suffix

variable {s r : List Char}

theorem behind_afterInteger (h : afterInteger s = some r) : Behind r s := by
  unfold afterInteger at h
  rw [Option.or_eq_some_iff] at h
  rcases h with h | ⟨-, h⟩
  · split at h
    · obtain ⟨digit, -, h⟩ := Option.bind_eq_some_iff.1 h
      exact (behind_afterDigits h).trans_suffix ((List.suffix_cons _ _).trans (List.suffix_cons _ _))
    · simp at h
  · exact behind_afterDigits h

theorem skipExponent_suffix (s : List Char) : skipExponent s <:+ s := by
  unfold skipExponent
  split
  · rename_i e t
    split
    · dsimp only
      cases h : afterDigits isDigit (if (t.head? == some '+' || t.head? == some '-') = true
          then t.drop 1 else t) with
      | none => exact List.suffix_rfl
      | some r =>
        refine (behind_afterDigits h).suffix.trans (List.IsSuffix.trans ?_ (List.suffix_cons e t))
        split
        · exact List.drop_suffix 1 t
        · exact List.suffix_rfl
    · exact List.suffix_rfl
  · exact List.suffix_rfl

theorem behind_afterFloat (h : afterFloat s = some r) : Behind r s := by
  obtain ⟨t, ht, rfl⟩ := Option.map_eq_some_iff.1 h
  refine .suffix_trans ?_ (behind_afterDigits ht)
  split
  · rename_i c u
    refine (skipExponent_suffix _).trans ?_
    split
    · exact ((skipDigits_suffix u).trans (List.suffix_cons c u)).trans (List.suffix_cons _ _)
    · exact List.suffix_rfl
  · exact skipExponent_suffix t

theorem afterGlobal_suffix (s : List Char) : afterGlobal s <:+ s := by
  have hrest (u : List Char) (c : Char) (p : Char → Bool) : u.dropWhile p <:+ c :: u :=
    (List.dropWhile_suffix p).trans (List.suffix_cons c u)
  unfold afterGlobal
  dsimp only
  refine List.IsSuffix.trans ?_ (?_ : (if s.head? == some '-' then s.drop 1 else s) <:+ s)
  · split
    · rename_i c u hcu
      rw [hcu]
      split
      · exact hrest u c isDigit
      · split
        · exact hrest u c isNameChar
        · split
          · exact List.suffix_cons c u
          · exact List.suffix_rfl
    · exact List.suffix_rfl
  · split
    · exact List.drop_suffix 1 s
    · exact List.suffix_rfl

theorem skipVariableSign_suffix (s : List Char) : skipVariableSign s <:+ s := by
  unfold skipVariableSign
  split
  · exact (List.suffix_cons _ _).trans (List.suffix_cons _ _)
  · exact List.suffix_cons _ _
  · exact List.suffix_cons _ _
  · exact List.suffix_rfl

theorem skipAssign_suffix (s : List Char) : skipAssign s <:+ s := by
  unfold skipAssign
  split
  · split
    · exact List.suffix_rfl
    · exact List.suffix_cons _ _
  · exact List.suffix_rfl

theorem skipSymbolEnd_suffix (s : List Char) : skipSymbolEnd s <:+ s := by
  refine (skipAssign_suffix _).trans (List.IsSuffix.trans ?_ (List.dropWhile_suffix isWordChar))
  split
  · exact List.drop_suffix 1 _
  · exact List.suffix_rfl

theorem behind_afterSymbol (h : afterSymbol s = some r) : Behind r s := by
  obtain ⟨t, ht, rfl⟩ := Option.map_eq_some_iff.1 h
  refine .suffix_trans (skipSymbolEnd_suffix t) (Behind.trans_suffix ?_ (skipVariableSign_suffix s))
  split at ht
  · rename_i c u hcu
    rw [hcu]
    split at ht
    · exact Option.some.inj ht ▸ .of_suffix c List.suffix_rfl
    · obtain ⟨op, hop, rfl⟩ := Option.map_eq_some_iff.1 ht
      rw [hcu]
      refine behind_drop (List.length_pos_iff.2 ?_) (by simp)
      rintro rfl
      exact absurd (List.mem_of_find?_eq_some hop) (by decide)
  · simp at ht

theorem skipCharacterCode_suffix (s : List Char) : skipCharacterCode s <:+ s := by
  unfold skipCharacterCode
  split
  · rename_i t
    split
    · rename_i u hu
      have hdrop : '}' :: u <:+ t := hu ▸ List.dropWhile_suffix _
      exact ((List.suffix_cons _ u).trans hdrop).trans (List.suffix_cons _ t)
    · exact List.suffix_rfl
  · rename_i c t
    have htail : t <:+ '-' :: c :: t := (List.suffix_cons _ _).trans (List.suffix_cons _ _)
    split
    · exact List.suffix_rfl
    · split
      · rename_i m d u
        split
        · exact List.IsSuffix.trans ⟨[m, '-', d], rfl⟩ htail
        · exact htail
      · exact htail
  · exact List.dropWhile_suffix _

theorem behind_afterCharacter (h : afterCharacter s = some r) : Behind r s := by
  unfold afterCharacter at h
  split at h
  · split at h
    · exact Option.some.inj h ▸ .of_suffix _ List.suffix_rfl
    · rename_i c t _
      exact Option.some.inj h ▸
        .of_suffix _ ((skipCharacterCode_suffix t).trans (List.suffix_cons c t))
  · split at h
    · simp at h
    · exact Option.some.inj h ▸ .of_suffix _ List.suffix_rfl
  · simp at h

theorem behind_afterEscape (h : afterEscape s = some r) : Behind r s := by
  have hmost (n : Nat) (digit : Char → Bool) (c : Char) (u : List Char) :
      Behind (skipAtMost n digit u) (c :: u) := .of_suffix c (List.drop_suffix _ _)
  unfold afterEscape at h
  split at h
  · split at h
    · exact Option.some.inj h ▸ hmost _ _ _ _
    · simp at h
  · split at h
    · rename_i t hspan
      rw [List.span_eq_takeWhile_dropWhile, Prod.mk.injEq] at hspan
      obtain rfl := Option.some.inj h
      have hdrop := hspan.2 ▸ List.dropWhile_suffix fun c => isHexDigit c || c == ' '
      exact .of_suffix _ (((List.suffix_cons _ _).trans hdrop).trans (List.suffix_cons _ _))
    · simp at h
  · dsimp only at h
    split at h
    · exact Option.some.inj h ▸ .of_suffix _ (List.drop_suffix 4 _)
    · simp at h
  · obtain rfl := Option.some.inj h
    split
    · exact hmost _ _ _ _
    · exact .of_suffix _ List.suffix_rfl
  · simp at h

end Suffix

/-! Signs -/

/-- Signs hold something, and no white space. -/
theorem signs_spec : ∀ x ∈ Token.attachedSigns ++ Token.signs,
    x.1 ≠ [] ∧ ∀ c ∈ x.1, isBlank c = false := by
  have hall : ∀ x ∈ Token.attachedSigns ++ Token.signs, x.1 ≠ [] ∧ x.1.all (!isBlank ·) = true := by
    decide
  intro x hx
  obtain ⟨hne, hsolid⟩ := hall x hx
  exact ⟨hne, fun c hc => by simpa using List.all_eq_true.1 hsolid c hc⟩

theorem behind_signReaches {signs : List (List Char × Token)} (hsigns : ∀ x ∈ signs, x.1 ≠ [])
    {s : List Char} {x : Reach} (h : x ∈ signReaches signs s) : Behind x.2 s := by
  obtain ⟨⟨text, t⟩, hmem, h⟩ := List.mem_filterMap.1 h
  rw [Option.ite_none_right_eq_some, Option.some.injEq] at h
  obtain ⟨hbegins, rfl⟩ := h
  have hpos := List.length_pos_iff.2 (hsigns _ hmem)
  have hlen := (List.isPrefixOf_iff_prefix.1 hbegins).length_le
  exact behind_drop hpos (List.length_pos_iff.1 (Nat.lt_of_lt_of_le hpos hlen))

/-- A reach in a text with more behind it. -/
def Reach.before (t : List Char) (x : Reach) : Reach := (x.1, x.2 ++ t)

theorem signReaches_append {b : Char} (hb : isBlank b = true)
    {signs : List (List Char × Token)} (hsigns : ∀ x ∈ signs, ∀ c ∈ x.1, isBlank c = false)
    (s t : List Char) :
    signReaches signs (s ++ b :: t) = (signReaches signs s).map (Reach.before (b :: t)) := by
  rw [signReaches, signReaches, List.map_filterMap]
  refine List.filterMap_congr fun ⟨w, u⟩ hx => ?_
  dsimp only
  rw [isPrefixOf_append hb s t (hsigns _ hx)]
  split
  · rename_i hprefix
    rw [drop_append_of_isPrefixOf s t hprefix]
    rfl
  · rfl

/-! Tokens told by their text -/

/-- A text of one line. -/
def OneLine (s : List Char) : Prop := ∀ c ∈ s, c ≠ '\n' ∧ c ≠ '\r'

theorem OneLine.of_suffix {s r : List Char} (h : OneLine s) (hr : r <:+ s) : OneLine r :=
  fun c hc => h c (hr.subset hc)

theorem OneLine.not_beginsLineBreak {s : List Char} (h : OneLine s) :
    beginsLineBreak s = false := by
  cases s with
  | nil => rfl
  | cons c s => simp [beginsLineBreak, h c List.mem_cons_self]

theorem behind_nameReaches {s : List Char} (hline : OneLine s) {x : Reach}
    (h : x ∈ nameReaches s) : Behind x.2 s := by
  unfold nameReaches at h
  split at h
  · simp at h
  · rename_i w r hw
    have hr := behind_readWord hw
    have hmark := (hline.of_suffix hr.suffix).not_beginsLineBreak
    rw [hmark] at h
    simp only [Bool.and_false, Bool.false_eq_true, if_false, List.nil_append, List.mem_append,
      List.mem_map, List.mem_singleton] at h
    rcases h with ⟨t, -, rfl⟩ | rfl <;> exact hr

theorem behind_lexemeReaches {s : List Char} (hline : OneLine s) {x : Reach}
    (h : x ∈ lexemeReaches s) : Behind x.2 s := by
  have hreach {token : Token} {rest : Option (List Char)} {u : List Char} (hu : u <:+ s)
      (hrest : ∀ r, rest = some r → Behind r u)
      (hx : x ∈ rest.toList.map fun r => (token, r)) : Behind x.2 s := by
    obtain ⟨r, hr, rfl⟩ := List.mem_map.1 hx
    exact (hrest r (Option.mem_toList.1 hr)).trans_suffix hu
  unfold lexemeReaches at h
  dsimp only at h
  split at h
  · simp at h
  · exact hreach ((List.suffix_cons _ _).trans (List.suffix_cons _ _)) (fun r => behind_afterWord) h
  · exact hreach (List.suffix_cons _ _) (fun r => behind_afterWord) h
  · rw [List.mem_singleton] at h
    exact h ▸ .of_suffix _ (afterGlobal_suffix _)
  · exact hreach (List.suffix_cons _ _) (fun r => behind_afterCharacter) h
  · split at h
    · rcases List.mem_append.1 h with h | h
      · exact hreach List.suffix_rfl (fun r => behind_afterInteger) h
      · exact hreach List.suffix_rfl (fun r => behind_afterFloat) h
    · split at h
      · exact hreach List.suffix_rfl (fun r => behind_afterWord) h
      · exact behind_nameReaches hline h

theorem behind_reaches {spaced : Bool} {s : List Char} (hline : OneLine s) {x : Reach}
    (h : x ∈ reaches spaced s) : Behind x.2 s := by
  have hsigns (signs : List (List Char × Token))
      (hsub : ∀ x ∈ signs, x ∈ Token.attachedSigns ++ Token.signs)
      (hx : x ∈ signReaches signs s) : Behind x.2 s :=
    behind_signReaches (fun y hy => (signs_spec y (hsub y hy)).1) hx
  rw [reaches, List.mem_append, List.mem_append] at h
  rcases h with (h | h) | h
  · split at h
    · simp at h
    · exact hsigns Token.attachedSigns (fun y hy => List.mem_append_left _ hy) h
  · exact hsigns Token.signs (fun y hy => List.mem_append_right _ hy) h
  · exact behind_lexemeReaches hline h

section Append

variable {b : Char} (hb : isBlank b = true) (s t : List Char)
include hb

theorem beginsLineBreak_append (hline : OneLine s) : beginsLineBreak (s ++ b :: t) = false := by
  cases s with
  | nil => rcases blank_cases hb with rfl | rfl <;> rfl
  | cons c s => simp [beginsLineBreak, hline c List.mem_cons_self]

theorem nameReaches_append (hline : OneLine s) :
    nameReaches (s ++ b :: t) = (nameReaches s).map (Reach.before (b :: t)) := by
  unfold nameReaches
  rw [readWord_append hb]
  cases hw : readWord s with
  | none => rfl
  | some x =>
    obtain ⟨w, r⟩ := x
    have hr := hline.of_suffix (behind_readWord hw).suffix
    simp [beginsLineBreak_append hb r t hr, hr.not_beginsLineBreak, Reach.before, Function.comp_def]

omit hb in
theorem reach_append (token : Token) {rest rest' : Option (List Char)}
    (h : rest' = rest.map (· ++ t)) : (rest'.toList.map fun r => (token, r)) =
      (rest.toList.map fun r => (token, r)).map (Reach.before t) := by
  subst h
  cases rest <;> rfl

theorem lexemeReaches_append (hs : s ≠ []) (hline : OneLine s) :
    lexemeReaches (s ++ b :: t) = (lexemeReaches s).map (Reach.before (b :: t)) := by
  have hat : b ≠ '@' := ne_of_isBlank hb (by decide)
  obtain ⟨c, s, rfl⟩ := List.exists_cons_of_ne_nil hs
  by_cases hc : c = '@'
  · subst hc
    rcases s with _ | ⟨d, s⟩
    · have hnil := afterWord_append hb [] t
      simpa [lexemeReaches, hat] using reach_append _ .instanceVariable hnil
    · by_cases hd : d = '@'
      · subst hd
        exact reach_append _ _ (afterWord_append hb s t)
      · have hword := afterWord_append hb (d :: s) t
        simpa [lexemeReaches, hd] using reach_append _ .instanceVariable hword
  by_cases hc' : c = '$'
  · subst hc'
    simp [lexemeReaches, afterGlobal_append hb, Reach.before]
  by_cases hc'' : c = '?'
  · subst hc''
    exact reach_append _ _ (afterCharacter_append hb s t)
  have hplain (u : List Char) : lexemeReaches (c :: u) =
      if isDigit c then
        ((afterInteger (c :: u)).toList.map fun r => (.integer, r)) ++
          (afterFloat (c :: u)).toList.map fun r => (.float, r)
      else if isCapital c then (afterWord (c :: u)).toList.map fun r => (.constant, r)
      else nameReaches (c :: u) := by
    rw [lexemeReaches] <;> simp [hc, hc', hc'']
  rw [List.cons_append, hplain, hplain, ← List.cons_append]
  split
  · rw [List.map_append, ← reach_append _ _ (afterInteger_append hb (c :: s) t),
      ← reach_append _ _ (afterFloat_append hb (c :: s) t)]
  · split
    · exact reach_append _ _ (afterWord_append hb (c :: s) t)
    · exact nameReaches_append hb (c :: s) t hline

theorem reaches_append (spaced : Bool) (hs : s ≠ []) (hline : OneLine s) :
    reaches spaced (s ++ b :: t) = (reaches spaced s).map (Reach.before (b :: t)) := by
  have hsigns (signs : List (List Char × Token))
      (hsub : ∀ x ∈ signs, x ∈ Token.attachedSigns ++ Token.signs) :
      signReaches signs (s ++ b :: t) = (signReaches signs s).map (Reach.before (b :: t)) :=
    signReaches_append hb (fun y hy => (signs_spec y (hsub y hy)).2) s t
  rw [reaches, reaches, List.map_append, List.map_append, lexemeReaches_append hb s t hs hline,
    hsigns Token.signs fun y hy => List.mem_append_right _ hy]
  cases spaced with
  | true => rfl
  | false =>
    rw [if_neg (by simp), if_neg (by simp),
      hsigns Token.attachedSigns fun y hy => List.mem_append_left _ hy]

end Append

theorem farthest_before (t : List Char) (rs : List Reach) :
    farthest (rs.map (Reach.before t)) = (farthest rs).map (Reach.before t) := by
  induction rs with
  | nil => rfl
  | cons r rs ih =>
    rw [List.map_cons, farthest, farthest, ih]
    cases farthest rs with
    | none => rfl
    | some r' =>
      simp only [Option.map_some, Reach.before, List.length_append, Nat.add_lt_add_iff_right]
      split <;> rfl

theorem mem_of_farthest {rs : List Reach} {r : Reach} (h : farthest rs = some r) : r ∈ rs := by
  induction rs generalizing r with
  | nil => simp [farthest] at h
  | cons r₀ rs ih =>
    rw [farthest] at h
    cases hrest : farthest rs with
    | none =>
      rw [hrest] at h
      exact Option.some.inj h ▸ List.mem_cons_self
    | some r' =>
      rw [hrest] at h
      dsimp only at h
      split at h
      · exact Option.some.inj h ▸ List.mem_cons_of_mem _ (ih hrest)
      · exact Option.some.inj h ▸ List.mem_cons_self

end ErbLayout.Ruby
