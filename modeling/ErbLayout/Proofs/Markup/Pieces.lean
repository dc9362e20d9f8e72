import ErbLayout.Proofs.Markup.Strays
/-!
Texts that differ only in their names are cut into the same pieces but for the names.
-/

namespace ErbLayout.Markup.Piece

open Placeholder (Glossary HeadFree LastFree headFree_cons lastFree_concat)
open Text (Framed)

variable {α : Type} {g g' : Glossary α} {s s' : List Char}

/-- Pieces of the same kind, renamed part by part; the close tag of a raw text spells no names. -/
inductive Renamed (g g' : Glossary α) : Piece → Piece → Prop
  | gap {t t' : List Char} : Placeholder.Renamed g g' t t' → Renamed g g' (.gap t) (.gap t')
  | token {t t' : Token} : Token.Renamed g g' t t' → Renamed g g' (.token t) (.token t')
  | rawText (name closeTag : List Char) {content content' : List Char} :
    Placeholder.Renamed g g' content content' →
    Renamed g g' (.rawText name content closeTag) (.rawText name content' closeTag)

theorem length_text_eq_of_renamed {p p' : Piece} (h : Renamed g g' p p') :
    p.text.length = p'.text.length := by
  cases h with
  | gap ht => exact ht.like.length_eq
  | token ht => exact ht.text.like.length_eq
  | rawText name closeTag hc =>
    simp only [text, List.length_append, hc.like.length_eq]

theorem length_of_isRawText {name : List Char} (h : Element.isRawText name = true) :
    name.length < Placeholder.Name.size := by
  have hshort : ∀ n ∈ Element.rawTextNames, n.length < Placeholder.Name.size := by decide
  exact hshort name (List.contains_iff_mem.1 h)

theorem rawTextAfter_eq_of_renamed {t t' : Token} (h : Token.Renamed g g' t t') :
    rawTextAfter t = rawTextAfter t' := by
  cases h with
  | comment ht => rfl
  | close ht hn => rfl
  | @opening _ _ n n' _ _ closing ht hn hattrs =>
    have hraw : Element.isRawText n = Element.isRawText n' :=
      Element.contains_eq_of_renamed (by decide) hn
    rw [rawTextAfter, rawTextAfter, ← Element.isSelfClosing_eq_of_renamed hn]
    cases hr : Element.isRawText n with
    | false => simp [← hraw, hr]
    | true => rw [hn.eq_of_short (length_of_isRawText hr), hr]

theorem readCloseOf_of_ne {c : Char} (hc : c ≠ '<') (name s : List Char) :
    readCloseOf name (c :: s) = none := by
  unfold readCloseOf
  split
  · rename_i he
    exact absurd (List.cons.inj he).1 hc
  · rfl

theorem framed_closeTag {name closeTag s : List Char} {n : Nat}
    (h : readCloseOf name s = some (closeTag, n)) : Framed closeTag := by
  obtain ⟨before, spelled, after, rfl, -⟩ := readCloseOf_eq_some h
  exact ⟨'/' :: before ++ spelled ++ after, by simp⟩

theorem seams_of_framed {t : List Char} (h : Framed t) (r : List Char) :
    HeadFree (t ++ r) ∧ LastFree t := by
  obtain ⟨u, rfl⟩ := h
  exact ⟨headFree_cons (by decide) _, lastFree_concat ('<' :: u) (by decide)⟩

/-- Two texts that are renamed to each other, around stretches of markup in them. -/
theorem renamed_around {t t' : List Char} {n : Nat} (h : Placeholder.Renamed g g' s s')
    (ht : Framed t) (hs : t <+: s.drop n) (hs' : t' <+: s'.drop n) (hlen : t.length = t'.length) :
    Placeholder.Renamed g g' (s.take n) (s'.take n) ∧
      Placeholder.Renamed g g' (s.drop (n + t.length)) (s'.drop (n + t.length)) := by
  obtain ⟨u, hu⟩ := hs
  obtain ⟨u', hu'⟩ := hs'
  obtain ⟨hbefore, hrest⟩ := h.halves (hu ▸ (seams_of_framed ht u).1)
  rw [← hu, ← hu'] at hrest
  obtain ⟨-, hbehind⟩ := hrest.cut hlen (.inl (seams_of_framed ht []).2)
  rw [← List.drop_drop, ← List.drop_drop, ← hu, ← hu', List.drop_left, hlen, List.drop_left]
  exact ⟨hbefore, hbehind⟩

/-- What is found in two texts at the same place, with what stands before and behind it. -/
def Found (g g' : Glossary α) {β : Type} (R : β → β → Prop) (s s' : List Char)
    (p p' : Nat × β × Nat) : Prop :=
  p.1 = p'.1 ∧ p.2.2 = p'.2.2 ∧ R p.2.1 p'.2.1 ∧
    Placeholder.Renamed g g' (s.take p.1) (s'.take p'.1) ∧
    Placeholder.Renamed g g' (s.drop (p.1 + p.2.2)) (s'.drop (p'.1 + p'.2.2))

theorem renamed_found {β : Type} {read : Text.Reader β} {R : β → β → Prop}
    (text : β → List Char)
    (hread : ∀ {t t' : List Char}, Placeholder.Renamed g g' t t' →
      Option.Rel (fun p p' => R p.1 p'.1 ∧ p.2 = p'.2) (read t) (read t'))
    (hnone : ∀ {c : Char}, c ≠ '<' → ∀ t, read (c :: t) = none)
    (htext : ∀ {t : List Char} {b : β} {n : Nat}, read t = some (b, n) →
      Framed (text b) ∧ n = (text b).length ∧ text b <+: t)
    (h : Placeholder.Renamed g g' s s') :
    Option.Rel (Found g g' R s s') (Text.find? read 0 s) (Text.find? read 0 s') := by
  have hfind := renamed_find? hread hnone h 0
  cases hr : Text.find? read 0 s with
  | none =>
    rw [hr] at hfind
    cases hr' : Text.find? read 0 s' with
    | none => exact .none
    | some p' => simp [hr'] at hfind
  | some p =>
    rw [hr] at hfind
    cases hr' : Text.find? read 0 s' with
    | none => simp [hr'] at hfind
    | some p' =>
      rw [hr', Option.rel_some_some] at hfind
      obtain ⟨n, b, k⟩ := p
      obtain ⟨n', b', k'⟩ := p'
      obtain ⟨rfl, hb, hk⟩ := hfind
      obtain ⟨hframed, rfl, hs⟩ := htext (Text.find?_eq_some hr).2
      obtain ⟨-, rfl, hs'⟩ := htext (Text.find?_eq_some hr').2
      obtain ⟨hbefore, hbehind⟩ := renamed_around h hframed hs hs' hk
      exact .some ⟨rfl, hk, hb, hbefore, hk ▸ hbehind⟩

/-- The first token of a text and of a renamed one. -/
theorem renamed_findToken (h : Placeholder.Renamed g g' s s') :
    Option.Rel (Found g g' (Token.Renamed g g') s s') (Text.find? Token.read 0 s)
      (Text.find? Token.read 0 s') := by
  refine renamed_found Token.text (fun ht => Token.renamed_read ht)
    (fun hc t => Token.read_eq_none hc t) (fun hr => ?_) h
  obtain ⟨hread, rfl⟩ := Token.read_eq_some hr
  exact ⟨Token.readAny_framed hread, rfl, Token.readAny_text hread⟩

/-- The first close tag of a raw text in a text and in a renamed one. -/
theorem renamed_findClose {name : List Char} (hname : name.length < Placeholder.Name.size)
    (h : Placeholder.Renamed g g' s s') :
    Option.Rel (Found g g' (· = ·) s s') (Text.find? (readCloseOf name) 0 s)
      (Text.find? (readCloseOf name) 0 s') := by
  refine renamed_found id (fun {t t'} ht => ?_)
    (fun hc t => readCloseOf_of_ne hc name t) (fun hr => ?_) h
  · rw [readCloseOf_eq_of_renamed hname ht]
    cases readCloseOf name t' with
    | none => exact .none
    | some p => exact .some ⟨rfl, rfl⟩
  · obtain ⟨-, -, -, -, -, -, -, hn, hs⟩ := readCloseOf_eq_some hr
    exact ⟨framed_closeTag hr, hn, hs⟩

theorem renamed_cutFrom {raw : Option (List Char)} (fuel : Nat)
    (hraw : ∀ m ∈ raw, m.length < Placeholder.Name.size) (h : Placeholder.Renamed g g' s s') :
    List.Forall₂ (Renamed g g') (cutFrom fuel raw s) (cutFrom fuel raw s') := by
  induction fuel generalizing raw s s' with
  | zero => exact .nil
  | succ fuel ih =>
    by_cases hnil : s = []
    · subst hnil
      obtain rfl := h.like.eq_nil_iff.1 rfl
      cases raw <;> exact .nil
    have hnil' : s' ≠ [] := fun he => hnil (h.like.eq_nil_iff.2 he)
    cases raw with
    | none =>
      have hfind := renamed_findToken h
      rw [cutFrom, cutFrom]
      rotate_left
      · exact hnil'
      · exact hnil
      generalize Text.find? Token.read 0 s = p at hfind ⊢
      generalize Text.find? Token.read 0 s' = p' at hfind ⊢
      cases hfind with
      | none => exact .cons (.gap h) .nil
      | some hp =>
        obtain ⟨-, -, ht, hgap, hrest⟩ := hp
        refine .cons (.gap hgap) (.cons (.token ht) ?_)
        rw [← rawTextAfter_eq_of_renamed ht]
        exact ih (fun m hm => length_of_isRawText (isRawText_of_rawTextAfter hm)) hrest
    | some name =>
      have hfind := renamed_findClose (hraw name rfl) h
      rw [cutFrom, cutFrom]
      rotate_left
      · exact hnil'
      · exact hnil
      generalize Text.find? (readCloseOf name) 0 s = p at hfind ⊢
      generalize Text.find? (readCloseOf name) 0 s' = p' at hfind ⊢
      cases hfind with
      | none => exact .cons (.rawText name [] h) .nil
      | @some q q' hp =>
        obtain ⟨n, closeTag, k⟩ := q
        obtain ⟨n', closeTag', k'⟩ := q'
        obtain ⟨-, -, rfl, hcontent, hrest⟩ := hp
        exact .cons (.rawText name closeTag hcontent) (ih (by simp) hrest)

theorem renamed_cut (h : Placeholder.Renamed g g' s s') :
    List.Forall₂ (Renamed g g') (cut s) (cut s') := by
  rw [cut, cut, ← h.like.length_eq]
  exact renamed_cutFrom _ (by simp) h

end ErbLayout.Markup.Piece
