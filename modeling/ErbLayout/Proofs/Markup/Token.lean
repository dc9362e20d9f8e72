import Mathlib.Data.List.TakeDrop
import Mathlib.Data.List.TakeWhile
import ErbLayout.Markup.Token
import ErbLayout.Proofs.Text.Words
/-!
What the structural tokens consist of: a token is a stretch of the text in which it was read, and
the attributes of an open tag are well-formed attributes with white space before each.
-/

namespace ErbLayout.Markup

namespace Attribute

/-- Name characters of which the last is no slash. -/
structure Bare (n : List Char) : Prop where
  ne_nil : n ≠ []
  nameChars : ∀ c ∈ n, isNameChar c = true
  noSlash : endsWithSlash n = false

/-- An attribute that can be read back from its text. -/
def WellFormed : Attribute → Prop
  | .name n => Bare n
  | .bare n v => Bare n ∧ Bare v
  | .quoted n q v => Bare n ∧ q.mark ∉ v

theorem span_eq_append {p : Char → Bool} {s a b : List Char} (h : s.span p = (a, b)) :
    s = a ++ b ∧ (∀ c ∈ a, p c = true) := by
  rw [List.span_eq_takeWhile_dropWhile, Prod.mk.injEq] at h
  obtain ⟨rfl, rfl⟩ := h
  exact ⟨(List.takeWhile_append_dropWhile).symm, fun c hc => (List.mem_takeWhile_imp hc)⟩

theorem bare_of_nameRun {s n r : List Char} (h : nameRun s = (n, r)) (hn : n ≠ [])
    (hs : endsWithSlash n = false) : Bare n :=
  ⟨hn, (span_eq_append h).2, hs⟩

theorem closeQuote_not_mem {q : Char} {s v r : List Char} (h : closeQuote q s = some (v, r)) :
    q ∉ v := by
  fun_induction closeQuote q s generalizing v r with
  | case1 => simp at h
  | case2 => simp_all
  | case3 c s hc ih =>
    obtain ⟨⟨u, t⟩, hu, he⟩ := Option.map_eq_some_iff.1 h
    simp only [Prod.mk.injEq] at he
    obtain ⟨rfl, rfl⟩ := he
    rw [List.mem_cons, not_or]
    exact ⟨fun h => hc h.symm, ih hu⟩

theorem readQuoted_eq_some {q : Quote} {s rest : List Char} {a : Attribute}
    (h : readQuoted q s = some (a, rest)) : a.WellFormed ∧ s = a.text ++ rest := by
  unfold readQuoted at h
  split at h
  · rename_i n m r hrun
    split at h
    · rename_i hm
      simp only [Bool.and_eq_true, decide_eq_true_eq, Bool.not_eq_true', List.isEmpty_eq_false_iff]
        at hm
      obtain ⟨⟨rfl, hn⟩, hslash⟩ := hm
      obtain ⟨⟨v, t⟩, hv, he⟩ := Option.map_eq_some_iff.1 h
      simp only [Prod.mk.injEq] at he
      obtain ⟨rfl, rfl⟩ := he
      refine ⟨⟨bare_of_nameRun hrun hn hslash, closeQuote_not_mem hv⟩, ?_⟩
      rw [(span_eq_append hrun).1, closeQuote_eq hv]
      simp [text]
    · simp at h
  · simp at h

end Attribute

namespace Token

open Attribute
open Text (Framed)

theorem mem_divisions {s a b : List Char} (h : (a, b) ∈ divisions s) : s = a ++ b ∧ a ≠ [] := by
  induction s generalizing a b with
  | nil => simp [divisions] at h
  | cons c s ih =>
    rw [divisions, List.mem_append] at h
    rcases h with h | h
    · obtain ⟨⟨x, y⟩, hxy, he⟩ := List.mem_map.1 h
      simp only [Prod.mk.injEq] at he
      obtain ⟨rfl, rfl⟩ := he
      exact ⟨by rw [(ih hxy).1, List.cons_append], by simp⟩
    · simp only [List.mem_singleton, Prod.mk.injEq] at h
      obtain ⟨rfl, rfl⟩ := h
      exact ⟨rfl, by simp⟩

theorem mem_runs {p : Char → Bool} {s a b : List Char} (h : (a, b) ∈ runs p s) :
    s = a ++ b ∧ a ≠ [] ∧ ∀ c ∈ a, p c = true := by
  unfold runs at h
  obtain ⟨⟨x, y⟩, hxy, he⟩ := List.mem_map.1 h
  simp only [Prod.mk.injEq] at he
  obtain ⟨rfl, rfl⟩ := he
  obtain ⟨hs, hp⟩ := span_eq_append (p := p) (s := s) rfl
  obtain ⟨hrun, hne⟩ := mem_divisions hxy
  refine ⟨?_, hne, ?_⟩
  · rw [← List.append_assoc, ← hrun]
    exact hs
  · intro c hc
    exact hp c (hrun ▸ List.mem_append_left y hc)

theorem mem_nameRuns {s a b : List Char} (h : (a, b) ∈ nameRuns s) : s = a ++ b ∧ Bare a := by
  unfold nameRuns at h
  obtain ⟨hm, hslash⟩ := List.mem_filter.1 h
  obtain ⟨hs, hne, hp⟩ := mem_runs hm
  exact ⟨hs, hne, hp, by simpa using hslash⟩

/-- White space and an attribute with what follows them, as they are taken from an open tag. -/
structure Taken (s a rest : List Char) : Prop where
  text : s = a ++ rest
  parts : ∃ gap b, a = gap ++ Attribute.text b ∧ gap ≠ [] ∧ Text.allBlank gap = true ∧ b.WellFormed

theorem mem_spaced {s a rest : List Char} {read : List Char → List (List Char × List Char)}
    (hread : ∀ r b t, (b, t) ∈ read r → ∃ x, b = Attribute.text x ∧
      x.WellFormed ∧ r = b ++ t)
    (h : (a, rest) ∈ (runs isBlank s).flatMap fun (gap, r) =>
      (read r).map fun (b, t) => (gap ++ b, t)) : Taken s a rest := by
  obtain ⟨⟨gap, r⟩, hrun, h⟩ := List.mem_flatMap.1 h
  obtain ⟨⟨b, t⟩, hb, he⟩ := List.mem_map.1 h
  simp only [Prod.mk.injEq] at he
  obtain ⟨rfl, rfl⟩ := he
  obtain ⟨hs, hne, hblank⟩ := mem_runs hrun
  obtain ⟨x, rfl, hw, hr⟩ := hread r b t hb
  refine ⟨by rw [hs, hr, List.append_assoc], gap, x, rfl, hne, ?_, hw⟩
  exact List.all_eq_true.2 hblank

/-- The ways to begin a text with a name and a bare value. -/
def bareRuns (r : List Char) : List (List Char × List Char) :=
  match nameRun r with
  | (n, '=' :: v) =>
    if n.isEmpty || endsWithSlash n then []
    else (nameRuns v).map fun (a, rest) => (n ++ '=' :: a, rest)
  | _ => []

theorem mem_bareRuns {r b t : List Char} (h : (b, t) ∈ bareRuns r) :
    ∃ x, b = Attribute.text x ∧ x.WellFormed ∧ r = b ++ t := by
  unfold bareRuns at h
  split at h
  · rename_i n v hrun
    split at h
    · simp at h
    · rename_i hn
      simp only [Bool.or_eq_true, List.isEmpty_iff, not_or, Bool.not_eq_true] at hn
      obtain ⟨⟨x, y⟩, hx, he⟩ := List.mem_map.1 h
      simp only [Prod.mk.injEq] at he
      obtain ⟨rfl, rfl⟩ := he
      obtain ⟨hv, hbare⟩ := mem_nameRuns hx
      refine ⟨.bare n x, rfl, ⟨bare_of_nameRun hrun hn.1 hn.2, hbare⟩, ?_⟩
      rw [(span_eq_append hrun).1, hv]
      simp
  · simp at h

theorem mem_attributeRuns {s a rest : List Char} (h : (a, rest) ∈ attributeRuns s) :
    Taken s a rest := by
  have hquoted (q : Quote) : ∀ r b t,
      (b, t) ∈ ((readQuoted q r).map fun p => (p.1.text, p.2)).toList →
        ∃ x, b = Attribute.text x ∧ x.WellFormed ∧ r = b ++ t := by
    intro r b t hb
    obtain ⟨⟨x, y⟩, hx, he⟩ := Option.map_eq_some_iff.1 (Option.mem_toList.1 hb)
    simp only [Prod.mk.injEq] at he
    obtain ⟨rfl, rfl⟩ := he
    obtain ⟨hw, hr⟩ := readQuoted_eq_some hx
    exact ⟨x, rfl, hw, hr⟩
  unfold attributeRuns at h
  simp only [List.mem_append] at h
  rcases h with ((h | h) | h) | h
  · exact mem_spaced (hquoted .single) h
  · exact mem_spaced (hquoted .double) h
  · exact @mem_spaced s a rest bareRuns (fun r b t => mem_bareRuns) h
  · refine mem_spaced ?_ h
    intro r b t hb
    obtain ⟨hs, hbare⟩ := mem_nameRuns hb
    exact ⟨.name b, rfl, hbare, hs⟩

/-- The text of attributes with the white space before each. -/
def spacedText (as : List (List Char × Attribute)) : List Char :=
  as.flatMap fun (gap, a) => gap ++ a.text

/-- Attributes as an open tag has them: each well-formed and behind white space. -/
def Spaced (as : List (List Char × Attribute)) : Prop :=
  ∀ p ∈ as, p.1 ≠ [] ∧ Text.allBlank p.1 = true ∧ p.2.WellFormed

theorem readClosing_eq_some {s gap : List Char} {closing : Closing}
    (h : readClosing s = some (gap, closing)) :
    Text.allBlank gap = true ∧ gap ++ closing.text <+: s := by
  unfold readClosing at h
  split at h
  · rename_i g r hg
    simp only [Option.some.injEq, Prod.mk.injEq] at h
    obtain ⟨rfl, rfl⟩ := h
    have hspan := span_eq_append hg
    refine ⟨List.all_eq_true.2 hspan.2, ⟨r, ?_⟩⟩
    rw [hspan.1, Closing.text, List.append_assoc]
    rfl
  · rename_i g r hg
    simp only [Option.some.injEq, Prod.mk.injEq] at h
    obtain ⟨rfl, rfl⟩ := h
    have hspan := span_eq_append hg
    refine ⟨List.all_eq_true.2 hspan.2, ⟨r, ?_⟩⟩
    rw [hspan.1, Closing.text, List.append_assoc]
    rfl
  · simp at h

theorem readAttributes_eq_some {fuel : Nat} {s attrs gap : List Char} {closing : Closing}
    (h : readAttributes fuel s = some (attrs, gap, closing)) :
    (∃ as, attrs = spacedText as ∧ Spaced as) ∧ Text.allBlank gap = true ∧
      attrs ++ gap ++ closing.text <+: s := by
  induction fuel generalizing s attrs with
  | zero => simp [readAttributes] at h
  | succ fuel ih =>
    rw [readAttributes] at h
    split at h
    · rename_i found hfound
      obtain ⟨⟨a, rest⟩, hmem, hrest⟩ := List.exists_of_findSome?_eq_some hfound
      obtain ⟨⟨attrs', gap', closing'⟩, hr, he⟩ := Option.map_eq_some_iff.1 hrest
      cases h
      simp only [Prod.mk.injEq] at he
      obtain ⟨rfl, rfl, rfl⟩ := he
      obtain ⟨⟨as, rfl, has⟩, hgap, hpre⟩ := ih hr
      obtain ⟨hs, g, at_, rfl, hg⟩ := mem_attributeRuns hmem
      refine ⟨⟨(g, at_) :: as, rfl, ?_⟩, hgap, ?_⟩
      · intro p hp
        rcases List.mem_cons.1 hp with rfl | hp
        · exact hg
        · exact has p hp
      · rw [hs, List.append_assoc, List.append_assoc]
        exact (List.prefix_append_right_inj _).2 (by simpa using hpre)
    · obtain ⟨⟨gap', closing'⟩, hc, he⟩ := Option.map_eq_some_iff.1 h
      simp only [Prod.mk.injEq] at he
      obtain ⟨rfl, rfl, rfl⟩ := he
      obtain ⟨hgap, hpre⟩ := readClosing_eq_some hc
      exact ⟨⟨[], rfl, by simp [Spaced]⟩, hgap, by simpa using hpre⟩

theorem upTo_eq_some {e s t : List Char} (h : upTo e s = some t) :
    t <+: s ∧ ∃ u, t = u ++ e := by
  induction s generalizing t with
  | nil =>
    rw [upTo] at h
    split at h
    · rename_i he
      rw [List.isEmpty_iff] at he
      cases h
      exact ⟨List.prefix_rfl, [], by rw [he]; rfl⟩
    · simp at h
  | cons c s ih =>
    rw [upTo] at h
    split at h
    · rename_i he
      obtain ⟨u, hu⟩ := List.isPrefixOf_iff_prefix.1 he
      cases h
      refine ⟨List.take_prefix _ _, [], ?_⟩
      rw [← hu, List.take_left', List.nil_append]
      rfl
    · obtain ⟨u, hu, rfl⟩ := Option.map_eq_some_iff.1 h
      obtain ⟨hp, v, hv⟩ := ih hu
      exact ⟨(List.prefix_cons_inj c).2 hp, c :: v, by rw [hv]; rfl⟩

theorem readComment_eq_some {s : List Char} {t : Token} (h : readComment s = some t) :
    ∃ u, t = .comment u ∧ Framed u ∧ u <+: s := by
  unfold readComment at h
  split at h
  · rename_i s
    obtain ⟨u, hu, rfl⟩ := Option.map_eq_some_iff.1 h
    obtain ⟨hp, v, rfl⟩ := upTo_eq_some hu
    refine ⟨_, rfl, ⟨'!' :: '-' :: '-' :: v ++ ['-', '-'], by simp⟩, ?_⟩
    simpa using hp
  · rename_i c s _
    split at h
    · split at h
      · rename_i u r hspan
        cases h
        refine ⟨_, rfl, ⟨'!' :: c :: u, by simp⟩, ?_⟩
        rw [(Attribute.span_eq_append hspan).1]
        simp
      · simp at h
    · simp at h
  · simp at h

theorem readClose_eq_some {s : List Char} {t : Token} (h : readClose s = some t) :
    ∃ before name after, t = .close ('<' :: '/' :: before ++ name ++ after ++ ['>']) name ∧
      Text.allBlank before = true ∧ Text.allBlank after = true ∧ name ≠ [] ∧
      (∀ c ∈ name, isWord c = true) ∧ t.text <+: s := by
  unfold readClose at h
  split at h
  · rename_i s
    rcases h₁ : s.span isBlank with ⟨before, s₁⟩
    rcases h₂ : s₁.span isWord with ⟨name, s₂⟩
    rcases h₃ : s₂.span isBlank with ⟨after, s₃⟩
    simp only [h₁, h₂, h₃] at h
    obtain ⟨e₁, hb⟩ := Attribute.span_eq_append h₁
    obtain ⟨e₂, hw⟩ := Attribute.span_eq_append h₂
    obtain ⟨e₃, ha⟩ := Attribute.span_eq_append h₃
    split at h
    · rename_i r
      cases h
      refine ⟨_, _, _, rfl, List.all_eq_true.2 hb, List.all_eq_true.2 ha, by simp, hw, ⟨r, ?_⟩⟩
      rw [e₁, e₂, e₃]
      simp [text]
    · simp at h
  · simp at h

theorem readOpening_eq_some {s : List Char} {t : Token} (h : readOpening s = some t) :
    ∃ name as gap closing,
      t = .opening ('<' :: name ++ spacedText as ++ gap ++ Closing.text closing) name
        (spacedText as) closing ∧
      name ≠ [] ∧ (∀ c ∈ name, isWord c = true) ∧ Spaced as ∧ Text.allBlank gap = true ∧
      t.text <+: s := by
  unfold readOpening at h
  split at h
  · rename_i s
    split at h
    · simp at h
    · rename_i name rest hne hspan
      obtain ⟨⟨attrs, gap, closing⟩, hr, rfl⟩ := Option.map_eq_some_iff.1 h
      obtain ⟨⟨as, rfl, has⟩, hgap, hpre⟩ := readAttributes_eq_some hr
      obtain ⟨e, hw⟩ := Attribute.span_eq_append hspan
      refine ⟨name, as, gap, closing, rfl, fun hn => hne hn, hw, has, hgap, ?_⟩
      rw [e]
      simpa [text] using hpre
  · simp at h

theorem readAny_text {s : List Char} {t : Token} (h : readAny s = some t) : t.text <+: s := by
  unfold readAny at h
  split at h
  · rename_i t' ht
    cases h
    obtain ⟨u, rfl, -, hp⟩ := readComment_eq_some ht
    exact hp
  · split at h
    · rename_i t' ht
      cases h
      obtain ⟨_, _, _, -, -, -, -, -, hp⟩ := readClose_eq_some ht
      exact hp
    · obtain ⟨_, _, _, _, -, -, -, -, -, hp⟩ := readOpening_eq_some h
      exact hp

theorem readAny_framed {s : List Char} {t : Token} (h : readAny s = some t) : Framed t.text := by
  unfold readAny at h
  split at h
  · rename_i t' ht
    cases h
    obtain ⟨u, rfl, hu, -⟩ := readComment_eq_some ht
    exact hu
  · split at h
    · rename_i t' ht
      cases h
      obtain ⟨before, name, after, rfl, -⟩ := readClose_eq_some ht
      exact ⟨'/' :: before ++ name ++ after, by simp [text]⟩
    · obtain ⟨name, as, gap, closing, rfl, -⟩ := readOpening_eq_some h
      cases closing with
      | plain => exact ⟨name ++ spacedText as ++ gap, by simp [text, Closing.text]⟩
      | slash => exact ⟨name ++ spacedText as ++ gap ++ ['/'], by simp [text, Closing.text]⟩

theorem readAny_close {s text name : List Char} (h : readAny s = some (.close text name)) :
    readClose s = some (.close text name) := by
  unfold readAny at h
  split at h
  · rename_i t' ht
    obtain ⟨u, rfl, -⟩ := readComment_eq_some ht
    simp at h
  · split at h
    · rename_i t' ht
      rw [ht, h]
    · obtain ⟨_, _, _, _, he, -⟩ := readOpening_eq_some h
      simp at he

theorem readAny_opening {s text name attrs : List Char} {closing : Closing}
    (h : readAny s = some (.opening text name attrs closing)) :
    readOpening s = some (.opening text name attrs closing) := by
  unfold readAny at h
  split at h
  · rename_i t' ht
    obtain ⟨u, rfl, -⟩ := readComment_eq_some ht
    simp at h
  · split at h
    · rename_i t' ht
      obtain ⟨_, _, _, rfl, -⟩ := readClose_eq_some ht
      simp at h
    · exact h

theorem read_eq_some {s : List Char} {t : Token} {n : Nat} (h : read s = some (t, n)) :
    readAny s = some t ∧ n = t.text.length := by
  obtain ⟨t', ht, he⟩ := Option.map_eq_some_iff.1 h
  simp only [Prod.mk.injEq] at he
  obtain ⟨rfl, rfl⟩ := he
  exact ⟨ht, rfl⟩

end Token

end ErbLayout.Markup
