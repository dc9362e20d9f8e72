import ErbLayout.Proofs.Markup.Alike
/-!
Texts that differ only in their names are cut at the same places, into tokens that differ only in
their names.
-/

namespace ErbLayout.Markup

open Placeholder (Blind Free Glossary HeadFree LastFree Like blind_isBlank blind_isWord
  free_of_all free_of_allBlank headFree_cons lastFree_concat)
open Text (Framed allBlank)

variable {α : Type} {g g' : Glossary α} {s s' : List Char}

/-- A reader that takes something from a text takes something from a renamed one, and back. -/
theorem rel_of_renamed {β : Type} {read : List Char → Option β}
    {R : Glossary α → Glossary α → β → β → Prop}
    (hread : ∀ {h h' : Glossary α} {t t' : List Char} {b : β}, Placeholder.Renamed h h' t t' →
      read t = some b → ∃ b', read t' = some b' ∧ R h h' b b')
    (h : Placeholder.Renamed g g' s s') : Option.Rel (R g g') (read s) (read s') := by
  cases hs : read s with
  | none =>
    rw [Attribute.eq_none_of_renamed (fun ht hb => (hread ht hb).imp fun _ hb' => hb'.1) h hs]
    exact .none
  | some b =>
    obtain ⟨b', hb', hrel⟩ := hread h hs
    rw [hb']
    exact .some hrel

namespace Token

open Placeholder (Renamed)

/-- Tokens of the same kind, renamed part by part. -/
inductive Renamed (g g' : Glossary α) : Token → Token → Prop
  | comment {t t' : List Char} : Placeholder.Renamed g g' t t' →
    Renamed g g' (.comment t) (.comment t')
  | close {t t' n n' : List Char} : Placeholder.Renamed g g' t t' → Placeholder.Renamed g g' n n' →
    Renamed g g' (.close t n) (.close t' n')
  | opening {t t' n n' a a' : List Char} (closing : Closing) : Placeholder.Renamed g g' t t' →
    Placeholder.Renamed g g' n n' → Placeholder.Renamed g g' a a' →
    Renamed g g' (.opening t n a closing) (.opening t' n' a' closing)

theorem Renamed.text {t t' : Token} (h : Renamed g g' t t') :
    Placeholder.Renamed g g' t.text t'.text := by
  cases h with
  | comment ht => exact ht
  | close ht _ => exact ht
  | opening _ ht _ _ => exact ht

theorem like_upTo {e : List Char} (he : Free e) (h : Like s s') :
    Option.Rel Like (upTo e s) (upTo e s') := by
  induction h with
  | nil =>
    rw [upTo]
    split
    · exact .some .nil
    · exact .none
  | @cons c c' s s' hc hs ih =>
    have hall : Like (c :: s) (c' :: s') := .cons hc hs
    rw [upTo, upTo, ← hall.isPrefixOf he]
    split
    · exact .some (List.forall₂_take _ hall)
    · generalize upTo e s = u at ih ⊢
      generalize upTo e s' = u' at ih ⊢
      cases ih with
      | none => exact .none
      | some hu => exact .some (.cons hc hu)

/-- The inside of a declaration. -/
def isInside (c : Char) : Bool := c != '<' && c != '>'

theorem blind_isInside : Blind isInside := fun c c' hc hc' => by
  have hleft := Placeholder.blind_ne (c := '<') (by decide) c c' hc hc'
  have hright := Placeholder.blind_ne (c := '>') (by decide) c c' hc hc'
  simp only [isInside, hleft, hright]

theorem isInside_of_isAsciiLetter {c : Char} (h : isAsciiLetter c = true) : isInside c = true := by
  rw [isInside, Bool.and_eq_true, bne_iff_ne, bne_iff_ne]
  constructor
  · rintro rfl
    exact absurd h (by decide)
  · rintro rfl
    exact absurd h (by decide)

theorem readComment_declaration {c : Char} (hc : isAsciiLetter c = true) {t : List Char}
    (ht : ∀ x ∈ t, isInside x = true) (r : List Char) :
    readComment ('<' :: '!' :: c :: (t ++ '>' :: r)) =
      some (.comment ('<' :: '!' :: c :: t ++ ['>'])) := by
  obtain ⟨htake, hdrop⟩ := Placeholder.span_append (p := isInside) ht (y := '>' :: r) (by
    intro x hx
    obtain rfl := Option.some.inj hx
    rfl)
  have hspan : (t ++ '>' :: r).span (fun x => x != '<' && x != '>') = (t, '>' :: r) := by
    rw [List.span_eq_takeWhile_dropWhile]
    exact Prod.ext htake hdrop
  rw [readComment, if_pos hc, hspan]
  · rfl
  · rintro u rfl -
    exact absurd hc (by decide)

theorem renamed_readComment {t : Token} (h : Placeholder.Renamed g g' s s')
    (hr : readComment s = some t) : ∃ t', readComment s' = some t' ∧ Renamed g g' t t' := by
  have hframed := hr
  unfold readComment at hr
  split at hr
  · rename_i s
    obtain ⟨u, hu, rfl⟩ := Option.map_eq_some_iff.1 hr
    obtain ⟨s₁, rfl, h₁⟩ := h.uncons (by decide)
    obtain ⟨s₂, rfl, h₂⟩ := h₁.uncons (by decide)
    obtain ⟨s₃, rfl, h₃⟩ := h₂.uncons (by decide)
    obtain ⟨s₄, rfl, h₄⟩ := h₃.uncons (by decide)
    have hrel := like_upTo (e := ['-', '-', '>']) (free_of_all (by decide)) h₄.like
    rw [hu] at hrel
    cases hu' : upTo ['-', '-', '>'] s₄ with
    | none =>
      rw [hu'] at hrel
      cases hrel
    | some u' =>
      rw [hu'] at hrel
      cases hrel with
      | some hlike =>
        obtain ⟨hpre, v, rfl⟩ := upTo_eq_some hu
        obtain ⟨hpre', -⟩ := upTo_eq_some hu'
        have hlast : LastFree (v ++ ['-', '-', '>']) :=
          (free_of_all (by decide) : Free ['-', '-', '>']).lastFree.behind (by simp) v
        have hrenamed := h₄.of_initial hpre hpre' hlike.length_eq hlast
        rw [readComment, hu']
        exact ⟨_, rfl, .comment (.cons (by decide) (.cons (by decide) (.cons (by decide)
          (.cons (by decide) hrenamed))))⟩
  · rename_i c s _
    split at hr
    · rename_i hc
      split at hr
      · rename_i t r hspan
        obtain rfl := Option.some.inj hr
        obtain ⟨rfl, hinside⟩ := Attribute.span_eq_append hspan
        obtain ⟨s₁, rfl, h₁⟩ := h.uncons (by decide)
        obtain ⟨s₂, rfl, h₂⟩ := h₁.uncons (by decide)
        obtain ⟨u', r', rfl, hu, -⟩ := Placeholder.Renamed.split_cons (u := c :: t) (by decide) h₂
        obtain ⟨t', rfl⟩ := List.head?_eq_some_iff.1 hu.head?_eq
        have hall := hu.like.forall_of_forall blind_isInside (b := true)
          (List.forall_mem_cons.2 ⟨isInside_of_isAsciiLetter hc, hinside⟩)
        refine ⟨_, readComment_declaration hc (List.forall_mem_cons.1 hall).2 r', .comment ?_⟩
        exact .cons (by decide) (.cons (by decide)
          (hu.append (.of_free (free_of_all (by decide))) (.inr (headFree_cons (by decide) []))))
      · simp at hr
    · simp at hr
  · simp at hr

/-- A close tag with its spans written out. -/
theorem readClose_slash (s : List Char) :
    let s₁ := s.dropWhile isBlank
    let s₂ := s₁.dropWhile isWord
    let s₃ := s₂.dropWhile isBlank
    readClose ('<' :: '/' :: s) =
      if s₁.takeWhile isWord ≠ [] ∧ s₃.head? = some '>' then
        some (.close ('<' :: '/' :: s.takeWhile isBlank ++ s₁.takeWhile isWord ++
          s₂.takeWhile isBlank ++ ['>']) (s₁.takeWhile isWord))
      else none := by
  dsimp only
  rw [readClose, List.span_eq_takeWhile_dropWhile]
  dsimp only
  rw [List.span_eq_takeWhile_dropWhile]
  dsimp only
  rw [List.span_eq_takeWhile_dropWhile]
  dsimp only
  generalize (s.dropWhile isBlank).takeWhile isWord = n
  generalize ((s.dropWhile isBlank).dropWhile isWord).dropWhile isBlank = r
  split
  · rw [if_pos ⟨by simp, rfl⟩]
  · rename_i hnot
    rw [if_neg]
    rintro ⟨hn, hr⟩
    obtain ⟨c, n', rfl⟩ := List.exists_cons_of_ne_nil hn
    obtain ⟨r', rfl⟩ := List.head?_eq_some_iff.1 hr
    exact hnot _ _ _ rfl rfl

theorem renamed_readClose {t : Token} (h : Placeholder.Renamed g g' s s')
    (hr : readClose s = some t) : ∃ t', readClose s' = some t' ∧ Renamed g g' t t' := by
  have hshape : ∃ u, s = '<' :: '/' :: u := by
    unfold readClose at hr
    split at hr
    · exact ⟨_, rfl⟩
    · simp at hr
  obtain ⟨u, rfl⟩ := hshape
  obtain ⟨s₁, rfl, h₁⟩ := h.uncons (by decide)
  obtain ⟨u', rfl, hu⟩ := h₁.uncons (by decide)
  obtain ⟨hbefore, hrest⟩ := hu.span blind_isBlank
  obtain ⟨hname, hbehind⟩ := hrest.span blind_isWord
  obtain ⟨hafter, hend⟩ := hbehind.span blind_isBlank
  rw [readClose_slash] at hr ⊢
  split at hr
  · rename_i htest
    obtain rfl := Option.some.inj hr
    rw [if_pos ⟨fun hnil => htest.1 (hname.like.eq_nil_iff.2 hnil), hend.head?_eq.trans htest.2⟩]
    have hfree (t : List Char) : Free (t.takeWhile isBlank) := fun c hc =>
      Placeholder.isNameChar_of_isBlank (List.mem_takeWhile_imp hc)
    have hopened : Placeholder.Renamed g g' ('<' :: '/' :: u.takeWhile isBlank)
        ('<' :: '/' :: u'.takeWhile isBlank) := .cons (by decide) (.cons (by decide) hbefore)
    have hfirst : Free ('<' :: '/' :: u.takeWhile isBlank) :=
      (free_of_all (by decide) : Free ['<', '/']).append (hfree u)
    refine ⟨_, rfl, .close ?_ hname⟩
    exact ((hopened.append hname (.inl hfirst.lastFree)).append hafter
      (.inr (hfree _).headFree)).append (.of_free (free_of_all (by decide)))
      (.inr (headFree_cons (by decide) []))
  · simp at hr

theorem readOpening_angle (s : List Char) :
    readOpening ('<' :: s) =
      if s.takeWhile isWord = [] then none
      else (readAttributes ((s.dropWhile isWord).length + 1) (s.dropWhile isWord)).map fun p =>
        .opening ('<' :: s.takeWhile isWord ++ p.1 ++ p.2.1 ++ p.2.2.text) (s.takeWhile isWord) p.1
          p.2.2 := by
  rw [readOpening, List.span_eq_takeWhile_dropWhile]
  dsimp only
  generalize s.takeWhile isWord = n
  cases n <;> rfl

theorem renamed_readOpening {t : Token} (h : Placeholder.Renamed g g' s s')
    (hr : readOpening s = some t) : ∃ t', readOpening s' = some t' ∧ Renamed g g' t t' := by
  have hshape : ∃ u, s = '<' :: u := by
    unfold readOpening at hr
    split at hr
    · exact ⟨_, rfl⟩
    · simp at hr
  obtain ⟨u, rfl⟩ := hshape
  obtain ⟨u', rfl, hu⟩ := h.uncons (by decide)
  obtain ⟨hname, hrest⟩ := hu.span blind_isWord
  rw [readOpening_angle] at hr ⊢
  rw [← hrest.like.length_eq]
  generalize u.takeWhile isWord = name at hname hr ⊢
  generalize u'.takeWhile isWord = name' at hname ⊢
  generalize u.dropWhile isWord = rest at hrest hr ⊢
  generalize u'.dropWhile isWord = rest' at hrest ⊢
  split at hr
  · simp at hr
  · rename_i hne
    rw [if_neg fun hnil => hne (hname.like.eq_nil_iff.2 hnil)]
    obtain ⟨⟨attrs, gap, closing⟩, hp, rfl⟩ := Option.map_eq_some_iff.1 hr
    have hrel := ends_readAttributes (rest.length + 1) hrest.like
    cases hp' : readAttributes (rest.length + 1) rest' with
    | none =>
      rw [hp, hp'] at hrel
      cases hrel
    | some p' =>
      rw [hp, hp'] at hrel
      obtain ⟨attrs', gap', closing'⟩ := p'
      cases hrel with
      | some hends =>
        obtain ⟨hlike, hsame⟩ := hends
        obtain ⟨rfl, rfl⟩ := Prod.mk.inj hsame
        obtain ⟨⟨as, rfl, has⟩, hgap, v, rfl⟩ := readAttributes_eq_some hp
        obtain ⟨-, -, v', rfl⟩ := readAttributes_eq_some hp'
        -- the attributes end where no name stands
        have hclosing : Free (gap' ++ Closing.text closing') :=
          (free_of_allBlank hgap).append (by cases closing' <;> exact free_of_all (by decide))
        have hparts := hrest
        rw [List.append_assoc (spacedText as), List.append_assoc (spacedText as)] at hparts
        have hbehind : HeadFree (gap' ++ closing'.text ++ v) := by
          have hne : gap' ++ closing'.text ≠ [] := by cases closing' <;> simp [Closing.text]
          rw [HeadFree, List.head?_append_of_ne_nil _ hne]
          exact hclosing.headFree
        obtain ⟨w, x, hsplit, hattrs, -⟩ := hparts.split (.inr hbehind)
        rw [List.append_assoc attrs', List.append_assoc attrs'] at hsplit
        obtain ⟨rfl, -⟩ := List.append_inj hsplit (hlike.length_eq.symm.trans hattrs.like.length_eq)
        refine ⟨_, rfl, .opening closing' ?_ hname hattrs⟩
        rw [List.append_assoc _ gap', List.append_assoc _ gap']
        exact ((Placeholder.Renamed.cons (by decide) hname).append hattrs
          (.inr (headFree_spacedText has))).append (.of_free hclosing) (.inr hclosing.headFree)

theorem renamed_readAny (h : Placeholder.Renamed g g' s s') :
    Option.Rel (Renamed g g') (readAny s) (readAny s') := by
  have hcomment := rel_of_renamed (R := Renamed) (fun ht => renamed_readComment ht) h
  have hclose := rel_of_renamed (R := Renamed) (fun ht => renamed_readClose ht) h
  have hopening := rel_of_renamed (R := Renamed) (fun ht => renamed_readOpening ht) h
  unfold readAny
  generalize readComment s = t at hcomment ⊢
  generalize readComment s' = t' at hcomment ⊢
  cases hcomment with
  | some ht => exact .some ht
  | none =>
    generalize readClose s = t at hclose ⊢
    generalize readClose s' = t' at hclose ⊢
    cases hclose with
    | some ht => exact .some ht
    | none => exact hopening

/-- A token at the start of a text, and one of the same length at the start of a renamed one. -/
theorem renamed_read (h : Placeholder.Renamed g g' s s') :
    Option.Rel (fun p p' => Renamed g g' p.1 p'.1 ∧ p.2 = p'.2) (read s) (read s') := by
  have hany := renamed_readAny h
  unfold read
  generalize readAny s = t at hany ⊢
  generalize readAny s' = t' at hany ⊢
  cases hany with
  | none => exact .none
  | some ht => exact .some ⟨ht, ht.text.like.length_eq⟩

theorem read_eq_none {c : Char} (hc : c ≠ '<') (s : List Char) : read (c :: s) = none := by
  cases hr : read (c :: s) with
  | none => rfl
  | some p =>
    obtain ⟨t, n⟩ := p
    have ht := (read_eq_some hr).1
    obtain ⟨u, hu⟩ := readAny_framed ht
    have hpre := readAny_text ht
    rw [hu] at hpre
    exact absurd (List.cons_prefix_cons.1 hpre).1.symm hc

end Token

/-- Readers that take something only at a `<` find their first reading at the same place in texts
that are renamed to each other. -/
theorem renamed_find? {β : Type} {read : Text.Reader β} {R : β → β → Prop}
    (hread : ∀ {t t' : List Char}, Placeholder.Renamed g g' t t' →
      Option.Rel (fun p p' => R p.1 p'.1 ∧ p.2 = p'.2) (read t) (read t'))
    (hnone : ∀ {c : Char}, c ≠ '<' → ∀ t, read (c :: t) = none) (h : Placeholder.Renamed g g' s s')
    (at_ : Nat) :
    Option.Rel (fun p p' => p.1 = p'.1 ∧ R p.2.1 p'.2.1 ∧ p.2.2 = p'.2.2)
      (Text.find? read at_ s) (Text.find? read at_ s') := by
  have hskip (w t : List Char) (hw : '<' ∉ w) (k : Nat) :
      Text.find? read k (w ++ t) = Text.find? read (k + w.length) t := by
    induction w generalizing k with
    | nil => rfl
    | cons c w ih =>
      obtain ⟨hc, hw⟩ := not_or.1 (mt List.mem_cons.2 hw)
      rw [List.cons_append, Text.find?, hnone (Ne.symm hc), ih hw, List.length_cons,
        Nat.add_right_comm]
      rfl
  induction hn : s.length using Nat.strong_induction_on generalizing s s' at_ with
  | _ n ih =>
    by_cases hmem : '<' ∈ s
    · obtain ⟨w, t, rfl, hw⟩ := List.eq_append_cons_of_mem hmem
      obtain ⟨w', t', rfl, hw', ht⟩ := h.split_cons (by decide)
      have hw'' : '<' ∉ w' := fun hm => hw (hw'.like.symm.mem (by decide) hm)
      rw [hskip w _ hw, hskip w' _ hw'', ← hw'.like.length_eq, Text.find?, Text.find?]
      have hhere := hread (Placeholder.Renamed.cons (c := '<') (by decide) ht)
      generalize read ('<' :: t) = p at hhere ⊢
      generalize read ('<' :: t') = p' at hhere ⊢
      cases hhere with
      | some hp => exact .some ⟨rfl, hp⟩
      | none => exact ih t.length (by simp [← hn]; omega) ht _ rfl
    · have hmem' : '<' ∉ s' := fun hm => hmem (h.like.symm.mem (by decide) hm)
      have hnil := hskip s [] hmem at_
      have hnil' := hskip s' [] hmem' at_
      rw [List.append_nil] at hnil hnil'
      rw [hnil, hnil']
      exact .none

end ErbLayout.Markup
