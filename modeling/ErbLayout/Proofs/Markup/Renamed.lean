import ErbLayout.Proofs.Markup.Cut
import ErbLayout.Proofs.Markup.Passed
import ErbLayout.Proofs.Placeholder.Renamed
/-!
Texts that differ only in their names hold the same attributes but for the names.
-/

namespace ErbLayout.Markup

open Placeholder (Blind Glossary Like HeadFree LastFree headFree_cons lastFree_concat)

variable {α : Type} {g g' : Glossary α} {s s' : List Char}

namespace Attribute

/-- The same kind of attribute, renamed part by part. -/
inductive Renamed (g g' : Glossary α) : Attribute → Attribute → Prop
  | name {n n' : List Char} : Placeholder.Renamed g g' n n' → Renamed g g' (.name n) (.name n')
  | bare {n n' v v' : List Char} : Placeholder.Renamed g g' n n' → Placeholder.Renamed g g' v v' →
    Renamed g g' (.bare n v) (.bare n' v')
  | quoted {n n' v v' : List Char} (q : Quote) : Placeholder.Renamed g g' n n' →
    Placeholder.Renamed g g' v v' → Renamed g g' (.quoted n q v) (.quoted n' q v')

theorem not_isNameChar_quote (q : Quote) : Placeholder.isNameChar q.mark = false :=
  not_isNameChar_of_markup (not_isNameChar_mark q)

theorem Renamed.text {a a' : Attribute} (h : Renamed g g' a a') :
    Placeholder.Renamed g g' a.text a'.text := by
  cases h with
  | name hn => exact hn
  | bare hn hv =>
    exact hn.append (.cons (by decide) hv) (.inr (headFree_cons (by decide) _))
  | quoted q hn hv =>
    have hq := not_isNameChar_quote q
    have hvalue := hv.append (.cons hq .nil) (.inr (headFree_cons hq []))
    simpa [Attribute.text] using
      hn.append (.cons (by decide) (.cons hq hvalue)) (.inr (headFree_cons (by decide) _))

theorem blind_isNameChar : Blind isNameChar := by
  have htrue (c : Char) (hc : Placeholder.isNameChar c = true) : isNameChar c = true := by
    cases hm : isNameChar c with
    | true => rfl
    | false =>
      rw [not_isNameChar_of_markup hm] at hc
      exact absurd hc (by simp)
  exact fun c c' hc hc' => (htrue c hc).trans (htrue c' hc').symm

theorem renamed_nameRun (h : Placeholder.Renamed g g' s s') :
    Placeholder.Renamed g g' (nameRun s).1 (nameRun s').1 ∧
      Placeholder.Renamed g g' (nameRun s).2 (nameRun s').2 := by
  simpa [nameRun, List.span_eq_takeWhile_dropWhile] using h.span blind_isNameChar

theorem renamed_dropSlashes (h : Placeholder.Renamed g g' s s') :
    Placeholder.Renamed g g' (dropSlashes s) (dropSlashes s') :=
  (h.reverse_span (Placeholder.blind_eq (by decide))).1

theorem isEmpty_eq_of_like (h : Like s s') : s'.isEmpty = s.isEmpty := by
  cases h <;> rfl

theorem endsWithSlash_eq_of_like (h : Like s s') : endsWithSlash s' = endsWithSlash s := by
  have hhead {t t' : List Char} (ht : Like t t') :
      (t'.head? == some '/') = (t.head? == some '/') := by
    cases ht with
    | nil => rfl
    | cons hc _ => exact (hc.test (Placeholder.blind_eq (by decide))).symm
  rw [endsWithSlash, endsWithSlash, List.getLast?_eq_head?_reverse, List.getLast?_eq_head?_reverse,
    hhead h.reverse]

theorem readQuoted_of_some {q : Quote} {rest : List Char} {a : Attribute}
    (h : readQuoted q s = some (a, rest)) :
    ∃ n v, a = .quoted n q v ∧ nameRun s = (n, '=' :: q.mark :: (v ++ q.mark :: rest)) ∧
      n.isEmpty = false ∧ endsWithSlash n = false ∧ q.mark ∉ v := by
  unfold readQuoted at h
  split at h
  · rename_i n m r hrun
    split at h
    · rename_i hm
      simp only [Bool.and_eq_true, decide_eq_true_eq, Bool.not_eq_true'] at hm
      obtain ⟨⟨rfl, hn⟩, hslash⟩ := hm
      obtain ⟨⟨v, t⟩, hv, he⟩ := Option.map_eq_some_iff.1 h
      simp only [Prod.mk.injEq] at he
      obtain ⟨rfl, rfl⟩ := he
      exact ⟨n, v, rfl, by rw [hrun, closeQuote_eq hv], hn, hslash, closeQuote_not_mem hv⟩
    · simp at h
  · simp at h

theorem Renamed.readQuoted {q : Quote} {rest : List Char} {a : Attribute}
    (h : Placeholder.Renamed g g' s s') (hr : readQuoted q s = some (a, rest)) :
    ∃ a' rest', Attribute.readQuoted q s' = some (a', rest') ∧ Renamed g g' a a' := by
  have hq := not_isNameChar_quote q
  obtain ⟨n, v, rfl, hrun, hne, hslash, hmark⟩ := readQuoted_of_some hr
  obtain ⟨hn, hrest⟩ := renamed_nameRun h
  rw [hrun] at hn hrest
  obtain ⟨r₁, hr₁, hvalue⟩ := hrest.uncons (by decide)
  obtain ⟨r₂, rfl, hinside⟩ := hvalue.uncons hq
  obtain ⟨v', rest', rfl, hv, -⟩ := hinside.split_cons hq
  have hmark' : q.mark ∉ v' := fun hm => hmark (hv.like.symm.mem hq hm)
  refine ⟨_, rest', ?_, .quoted q hn hv⟩
  rw [readQuoted_of_nameRun (n := (nameRun s').1) (Prod.ext rfl hr₁), closeQuote_append hmark',
    isEmpty_eq_of_like hn.like, endsWithSlash_eq_of_like hn.like, hne, hslash, if_pos (by simp)]
  rfl

theorem readBare_of_some {a : Attribute} (h : readBare s = some a) :
    ∃ n r, nameRun s = (n, '=' :: r) ∧ n.isEmpty = false ∧ endsWithSlash n = false ∧
      (dropSlashes (nameRun r).1).isEmpty = false ∧ a = .bare n (dropSlashes (nameRun r).1) := by
  unfold readBare at h
  split at h
  · rename_i n r hrun
    dsimp only at h
    split at h
    · simp at h
    · rename_i hne
      simp only [Bool.or_eq_true, not_or, Bool.not_eq_true] at hne
      exact ⟨n, r, hrun, hne.1.1, hne.1.2, hne.2, (Option.some.inj h).symm⟩
  · simp at h

theorem Renamed.readBare {a : Attribute} (h : Placeholder.Renamed g g' s s')
    (hr : readBare s = some a) : ∃ a', Attribute.readBare s' = some a' ∧ Renamed g g' a a' := by
  obtain ⟨n, r, hrun, hne, hslash, hvalue, rfl⟩ := readBare_of_some hr
  obtain ⟨hn, hrest⟩ := renamed_nameRun h
  rw [hrun] at hn hrest
  obtain ⟨r', hr', hbehind⟩ := hrest.uncons (by decide)
  have hv := renamed_dropSlashes (renamed_nameRun hbehind).1
  refine ⟨_, ?_, .bare hn hv⟩
  rw [readBare_of_nameRun (n := (nameRun s').1) (Prod.ext rfl hr'), isEmpty_eq_of_like hn.like,
    endsWithSlash_eq_of_like hn.like, isEmpty_eq_of_like hv.like, hne, hslash, hvalue]
  rfl

theorem Renamed.readName {a : Attribute} (h : Placeholder.Renamed g g' s s')
    (hr : readName s = some a) : ∃ a', Attribute.readName s' = some a' ∧ Renamed g g' a a' := by
  have hn := renamed_dropSlashes (renamed_nameRun h).1
  have hlike := hn.like
  unfold Attribute.readName at hr ⊢
  split at hr
  · simp at hr
  · rename_i hne
    obtain rfl := Option.some.inj hr
    split
    · rename_i hnil
      exact absurd (hlike.eq_nil_iff.2 hnil) hne
    · exact ⟨_, rfl, .name hn⟩

/-- What takes nothing at the start of a text takes nothing at the start of a renamed one. -/
theorem eq_none_of_renamed {β : Type} {read : List Char → Option β}
    (hread : ∀ {h h' : Glossary α} {t t' : List Char} {b : β}, Placeholder.Renamed h h' t t' →
      read t = some b → ∃ b', read t' = some b')
    (h : Placeholder.Renamed g g' s s') (hr : read s = none) : read s' = none := by
  cases hr' : read s' with
  | none => rfl
  | some b =>
    obtain ⟨b', hb⟩ := hread h.symm hr'
    rw [hb] at hr
    simp at hr

theorem readQuoted_eq_none_of_renamed {q : Quote} (h : Placeholder.Renamed g g' s s')
    (hr : readQuoted q s = none) : readQuoted q s' = none := by
  refine eq_none_of_renamed (fun {_ _ t t' p} ht hp => ?_) h hr
  obtain ⟨a, rest⟩ := p
  obtain ⟨a', rest', ha, -⟩ := Renamed.readQuoted ht hp
  exact ⟨_, ha⟩

theorem readBare_eq_none_of_renamed (h : Placeholder.Renamed g g' s s')
    (hr : readBare s = none) : readBare s' = none := by
  refine eq_none_of_renamed (fun ht ha => ?_) h hr
  obtain ⟨a', ha', -⟩ := Renamed.readBare ht ha
  exact ⟨a', ha'⟩

theorem Renamed.readAny {a : Attribute} (h : Placeholder.Renamed g g' s s')
    (hr : readAny s = some a) : ∃ a', Attribute.readAny s' = some a' ∧ Renamed g g' a a' := by
  unfold Attribute.readAny at hr ⊢
  cases hsingle : Attribute.readQuoted .single s with
  | some p =>
    obtain ⟨b, rest⟩ := p
    obtain ⟨b', rest', hb, hrel⟩ := Renamed.readQuoted h hsingle
    rw [hsingle] at hr
    obtain rfl := Option.some.inj hr
    rw [hb]
    exact ⟨b', rfl, hrel⟩
  | none =>
    rw [hsingle] at hr
    rw [readQuoted_eq_none_of_renamed h hsingle]
    cases hdouble : Attribute.readQuoted .double s with
    | some p =>
      obtain ⟨b, rest⟩ := p
      obtain ⟨b', rest', hb, hrel⟩ := Renamed.readQuoted h hdouble
      rw [hdouble] at hr
      obtain rfl := Option.some.inj hr
      rw [hb]
      exact ⟨b', rfl, hrel⟩
    | none =>
      rw [hdouble] at hr
      rw [readQuoted_eq_none_of_renamed h hdouble]
      cases hbare : Attribute.readBare s with
      | some b =>
        obtain ⟨b', hb, hrel⟩ := Renamed.readBare h hbare
        rw [hbare] at hr
        obtain rfl := Option.some.inj hr
        rw [hb]
        exact ⟨b', rfl, hrel⟩
      | none =>
        rw [hbare] at hr
        rw [readBare_eq_none_of_renamed h hbare]
        exact Renamed.readName h hr

theorem readAny_eq_none_of_renamed (h : Placeholder.Renamed g g' s s')
    (hr : readAny s = none) : readAny s' = none := by
  refine eq_none_of_renamed (fun ht ha => ?_) h hr
  obtain ⟨a', ha', -⟩ := Renamed.readAny ht ha
  exact ⟨a', ha'⟩

theorem all_of_none {c : Char} {s : List Char} (h : readAny (c :: s) = none) :
    all (c :: s) = all s := by
  have hread : read (c :: s) = none := by
    rw [read, h]
    rfl
  rw [all, Text.scan_cons_of_none hread]
  rfl

theorem all_of_starts {a : Attribute} {s rest : List Char} (h : readAny s = some a)
    (hs : Starts a s rest) : all s = a :: all rest := by
  have hread : read s = some (a, a.text.length) := by
    rw [read, h]
    rfl
  have hne : s ≠ [] := by
    rw [hs.text]
    simp [hs.ne_nil]
  rw [all, Text.scan_of_some (List.length_pos_iff.2 hs.ne_nil) hread hne]
  conv_lhs => rw [hs.text, List.drop_left]
  rfl

theorem Starts.seam {a : Attribute} {s rest : List Char} (h : Starts a s rest) :
    LastFree a.text ∨ HeadFree rest := by
  rcases h.ends with hrest | ⟨u, c, hu, hc⟩
  · exact .inr hrest
  · rw [hu]
    exact .inl (lastFree_concat u hc)

theorem renamed_all (h : Placeholder.Renamed g g' s s') :
    List.Forall₂ (Renamed g g') (all s) (all s') := by
  induction hn : s.length using Nat.strong_induction_on generalizing s s' with
  | _ n ih =>
    cases s with
    | nil =>
      obtain rfl := h.like.eq_nil_iff.1 rfl
      exact .nil
    | cons c s =>
      cases hr : readAny (c :: s) with
      | none =>
        obtain ⟨t', rfl, ht⟩ := h.uncons (not_isNameChar_of_readAny hr)
        rw [all_of_none hr, all_of_none (readAny_eq_none_of_renamed h hr)]
        exact ih s.length (by simp [← hn]) ht rfl
      | some a =>
        obtain ⟨rest, hs⟩ := starts_of_readAny hr
        obtain ⟨a', hr', ha⟩ := Renamed.readAny h hr
        obtain ⟨rest', hs'⟩ := starts_of_readAny hr'
        have hshort : rest.length < n := by
          have hpos := List.length_pos_iff.2 hs.ne_nil
          rw [← hn, hs.text, List.length_append]
          omega
        rw [all_of_starts hr hs, all_of_starts hr' hs']
        -- the rest begins at the same place in both texts
        rw [hs.text] at h
        obtain ⟨u', v', hsplit, hu, hv⟩ := h.split hs.seam
        obtain ⟨rfl, rfl⟩ := List.append_inj (hs'.text.symm.trans hsplit)
          (ha.text.like.length_eq.symm.trans hu.like.length_eq)
        exact .cons ha (ih rest.length hshort hv rfl)

end Attribute

namespace Element

/-- A test that only short texts pass does not see names. -/
theorem test_eq_of_renamed {test : List Char → Bool}
    (htest : ∀ t, test t = true → t.length < Placeholder.Name.size)
    (h : Placeholder.Renamed g g' s s') : test s = test s' := by
  by_cases hs : s.length < Placeholder.Name.size
  · rw [h.eq_of_short hs]
  · have hs' : ¬ s'.length < Placeholder.Name.size := h.like.length_eq ▸ hs
    rw [Bool.eq_false_of_not_eq_true fun ht => hs (htest s ht),
      Bool.eq_false_of_not_eq_true fun ht => hs' (htest s' ht)]

theorem contains_eq_of_renamed {names : List (List Char)}
    (hnames : ∀ n ∈ names, n.length < Placeholder.Name.size) (h : Placeholder.Renamed g g' s s') :
    names.contains s = names.contains s' :=
  test_eq_of_renamed (fun t ht => hnames t (List.contains_iff_mem.1 ht)) h

theorem isBlockLevel_eq_of_renamed (h : Placeholder.Renamed g g' s s') :
    isBlockLevel s = isBlockLevel s' := contains_eq_of_renamed (by decide) h

theorem isTokenList_eq_of_renamed (h : Placeholder.Renamed g g' s s') :
    isTokenList s = isTokenList s' := contains_eq_of_renamed (by decide) h

theorem isSelfClosing_eq_of_renamed (h : Placeholder.Renamed g g' s s') (closing : Closing) :
    isSelfClosing s closing = isSelfClosing s' closing := by
  have hshort : ∀ n ∈ voidNames, n.length < Placeholder.Name.size := by decide
  have hvoid : isVoid s = isVoid s' := by
    refine test_eq_of_renamed (fun t ht => ?_) h
    obtain ⟨n, hn, hsame⟩ := List.any_eq_true.1 ht
    rw [← Piece.length_eq_of_sameLetters hsame]
    exact hshort n hn
  rw [isSelfClosing, isSelfClosing, hvoid]

theorem isValidName_eq_of_renamed (h : Placeholder.Renamed g g' s s') :
    isValidName s = isValidName s' := by
  rw [isValidName, isValidName, Attribute.isEmpty_eq_of_like h.like]
  congr 1
  exact h.like.all fun c c' hc hc' => hc.trans hc'.symm

end Element

end ErbLayout.Markup
