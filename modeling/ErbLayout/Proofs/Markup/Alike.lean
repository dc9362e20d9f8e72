import ErbLayout.Proofs.Markup.Renamed
import ErbLayout.Proofs.Placeholder.RenamedLines
/-!
Texts that differ only in the letters of their names hold tokens at the same places. The ways to
take attributes from an open tag may divide a name, so they are compared letter by letter; what is
found in the end has its borders where no name stands.
-/

namespace ErbLayout.Markup

open Attribute
open Placeholder (Glossary HeadFree LastFree Like Renamed blind_isBlank blind_isWord headFree_cons)

variable {α : Type} {g g' : Glossary α} {s s' : List Char}

/-- A text in two parts, letter by letter like another. -/
def Halves (p p' : List Char × List Char) : Prop := Like p.1 p'.1 ∧ Like p.2 p'.2

namespace Token

theorem halves_divisions (h : Like s s') : List.Forall₂ Halves (divisions s) (divisions s') := by
  induction h with
  | nil => exact .nil
  | cons hc hs ih =>
    rw [divisions, divisions]
    refine List.rel_append ?_ (.cons ⟨.cons hc .nil, hs⟩ .nil)
    rw [List.forall₂_map_left_iff, List.forall₂_map_right_iff]
    exact ih.imp fun _ _ hp => ⟨.cons hc hp.1, hp.2⟩

theorem halves_runs {p : Char → Bool} (hp : Placeholder.Blind p) (h : Like s s') :
    List.Forall₂ Halves (runs p s) (runs p s') := by
  obtain ⟨hrun, hrest⟩ := h.span hp
  unfold runs
  rw [List.span_eq_takeWhile_dropWhile, List.span_eq_takeWhile_dropWhile]
  dsimp only
  rw [List.forall₂_map_left_iff, List.forall₂_map_right_iff]
  exact (halves_divisions hrun).imp fun _ _ hp => ⟨hp.1, hp.2.append hrest⟩

theorem halves_nameRuns (h : Like s s') : List.Forall₂ Halves (nameRuns s) (nameRuns s') := by
  unfold nameRuns
  refine List.rel_filter (fun p p' hp => ?_) (halves_runs blind_isNameChar h)
  dsimp only
  rw [endsWithSlash_eq_of_like hp.1]

theorem like_nameRun (h : Like s s') : Halves (nameRun s) (nameRun s') := by
  have hspan := h.span blind_isNameChar
  simpa [nameRun, List.span_eq_takeWhile_dropWhile, Halves] using hspan

theorem halves_readQuoted {q : Quote} (h : Like s s') :
    Option.Rel (fun p p' => Halves (p.1.text, p.2) (p'.1.text, p'.2)) (readQuoted q s)
      (readQuoted q s') := by
  refine Placeholder.rel_of_like (fun {t t' p} ht hp => ?_) h
  obtain ⟨a, rest⟩ := p
  have hq := not_isNameChar_quote q
  obtain ⟨n, v, rfl, hrun, hne, hslash, hmark⟩ := readQuoted_of_some hp
  obtain ⟨hn, hrest⟩ := like_nameRun ht
  rw [hrun] at hn hrest
  obtain ⟨r₁, hr₁, hvalue⟩ := hrest.uncons (by decide)
  obtain ⟨r₂, rfl, hinside⟩ := hvalue.uncons hq
  obtain ⟨v', w', rfl, hv, hw⟩ := hinside.split
  obtain ⟨rest', rfl, hrest'⟩ := hw.uncons hq
  have hmark' : q.mark ∉ v' := fun hm => hmark (hv.symm.mem hq hm)
  refine ⟨(.quoted (nameRun t').1 q v', rest'), ?_, ?_, hrest'⟩
  · rw [readQuoted_of_nameRun (n := (nameRun t').1) (Prod.ext rfl hr₁), closeQuote_append hmark',
      isEmpty_eq_of_like hn, endsWithSlash_eq_of_like hn, hne, hslash, if_pos (by simp)]
    rfl
  · have hclosed := hv.append (Like.cons_same q.mark .nil)
    simpa [Attribute.text] using hn.append (.cons_same '=' (.cons_same q.mark hclosed))

theorem bareRuns_of_nameRun {n v : List Char} (h : nameRun s = (n, '=' :: v)) :
    bareRuns s = if n.isEmpty || endsWithSlash n then []
      else (nameRuns v).map fun p => (n ++ '=' :: p.1, p.2) := by
  rw [bareRuns, h]
  rfl

theorem bareRuns_of_ne (h : ∀ v, (nameRun s).2 ≠ '=' :: v) : bareRuns s = [] := by
  unfold bareRuns
  split
  · rename_i n v hrun
    rw [hrun] at h
    exact absurd rfl (h v)
  · rfl

theorem halves_bareRuns (h : Like s s') : List.Forall₂ Halves (bareRuns s) (bareRuns s') := by
  obtain ⟨hn, hrest⟩ := like_nameRun h
  by_cases hv : ∃ v, (nameRun s).2 = '=' :: v
  · obtain ⟨v, hv⟩ := hv
    rw [hv] at hrest
    obtain ⟨v', hv', hlike⟩ := hrest.uncons (by decide)
    rw [bareRuns_of_nameRun (Prod.ext rfl hv), bareRuns_of_nameRun (Prod.ext rfl hv'),
      isEmpty_eq_of_like hn, endsWithSlash_eq_of_like hn]
    split
    · exact .nil
    · rw [List.forall₂_map_left_iff, List.forall₂_map_right_iff]
      exact (halves_nameRuns hlike).imp fun _ _ hp => ⟨hn.append (.cons_same '=' hp.1), hp.2⟩
  · have hv' (v : List Char) : (nameRun s').2 ≠ '=' :: v := by
      intro he
      rw [he] at hrest
      obtain ⟨u, hu, -⟩ := hrest.symm.uncons (by decide)
      exact hv ⟨u, hu⟩
    rw [bareRuns_of_ne fun v he => hv ⟨v, he⟩, bareRuns_of_ne hv']
    exact .nil

/-- White space and then what a reading takes. -/
def spacedRuns (read : List Char → List (List Char × List Char)) (s : List Char) :
    List (List Char × List Char) :=
  (runs isBlank s).flatMap fun (gap, r) => (read r).map fun (a, rest) => (gap ++ a, rest)

def quotedRuns (q : Quote) (s : List Char) : List (List Char × List Char) :=
  ((readQuoted q s).map fun (a, rest) => (a.text, rest)).toList

theorem attributeRuns_eq (s : List Char) :
    attributeRuns s = spacedRuns (quotedRuns .single) s ++ spacedRuns (quotedRuns .double) s ++
      spacedRuns bareRuns s ++ spacedRuns nameRuns s := rfl

theorem halves_spacedRuns {read : List Char → List (List Char × List Char)}
    (hread : ∀ {t t'}, Like t t' → List.Forall₂ Halves (read t) (read t')) (h : Like s s') :
    List.Forall₂ Halves (spacedRuns read s) (spacedRuns read s') := by
  refine List.rel_flatMap (halves_runs blind_isBlank h) fun p p' hp => ?_
  rw [List.forall₂_map_left_iff, List.forall₂_map_right_iff]
  exact (hread hp.2).imp fun _ _ ha => ⟨hp.1.append ha.1, ha.2⟩

theorem halves_quotedRuns (q : Quote) (h : Like s s') :
    List.Forall₂ Halves (quotedRuns q s) (quotedRuns q s') := by
  unfold quotedRuns
  generalize hp : readQuoted q s = p
  generalize hp' : readQuoted q s' = p'
  have hrel := halves_readQuoted (q := q) h
  rw [hp, hp'] at hrel
  cases hrel with
  | none => exact .nil
  | some ha => exact .cons ha .nil

theorem halves_attributeRuns (h : Like s s') :
    List.Forall₂ Halves (attributeRuns s) (attributeRuns s') := by
  rw [attributeRuns_eq, attributeRuns_eq]
  exact List.rel_append (List.rel_append (List.rel_append
    (halves_spacedRuns (halves_quotedRuns .single) h)
    (halves_spacedRuns (halves_quotedRuns .double) h)) (halves_spacedRuns halves_bareRuns h))
    (halves_spacedRuns halves_nameRuns h)

theorem readClosing_of_span {gap rest : List Char} (hgap : Text.allBlank gap = true)
    {closing : Closing} : readClosing (gap ++ closing.text ++ rest) = some (gap, closing) := by
  have hspan : ∀ {r : List Char} (_ : Text.startsBlank r = false),
      (gap ++ r).span isBlank = (gap, r) := by
    intro r hr
    rw [List.span_eq_takeWhile_dropWhile]
    obtain ⟨htake, hdrop⟩ := Placeholder.span_append (List.all_eq_true.1 hgap) (y := r) (by
      intro c hc
      obtain ⟨t, rfl⟩ := List.head?_eq_some_iff.1 hc
      exact hr)
    rw [htake, hdrop]
  rw [List.append_assoc, readClosing, hspan]
  · cases closing <;> rfl
  · cases closing <;> rfl

theorem readClosing_eq_of_like (h : Like s s') : readClosing s = readClosing s' := by
  have hforth {t t' : List Char} {p : List Char × Closing} (ht : Like t t')
      (hp : readClosing t = some p) : ∃ p', readClosing t' = some p' ∧ p = p' := by
    obtain ⟨gap, closing⟩ := p
    obtain ⟨hgap, rest, rfl⟩ := readClosing_eq_some hp
    obtain ⟨u', rest', rfl, hu, -⟩ := ht.split
    rw [hu.eq_of_free ((Placeholder.free_of_allBlank hgap).append (by
      cases closing <;> exact Placeholder.free_of_all (by decide)))]
    exact ⟨_, readClosing_of_span hgap, rfl⟩
  exact Placeholder.eq_of_rel (Placeholder.rel_of_like hforth h)

theorem rel_findSome? {β γ δ : Type} {R : β → β → Prop} {S : γ → δ → Prop} {f : β → Option γ}
    {f' : β → Option δ} (hf : ∀ b b', R b b' → Option.Rel S (f b) (f' b')) {bs bs' : List β}
    (h : List.Forall₂ R bs bs') : Option.Rel S (bs.findSome? f) (bs'.findSome? f') := by
  induction h with
  | nil => exact .none
  | @cons b b' bs bs' hb _ ih =>
    rw [List.findSome?_cons, List.findSome?_cons]
    have hrel := hf b b' hb
    generalize f b = c at hrel ⊢
    generalize f' b' = c' at hrel ⊢
    cases hrel with
    | none => exact ih
    | some hc => exact .some hc

/-- The attributes of an open tag, the white space behind them and the closing, letter by letter
like others. -/
def Ends (p p' : List Char × List Char × Closing) : Prop :=
  Like p.1 p'.1 ∧ p'.2 = p.2

theorem ends_readAttributes (fuel : Nat) (h : Like s s') :
    Option.Rel Ends (readAttributes fuel s) (readAttributes fuel s') := by
  induction fuel generalizing s s' with
  | zero => exact .none
  | succ fuel ih =>
    have hstep (p p' : List Char × List Char) (hp : Halves p p') :
        Option.Rel Ends
          ((readAttributes fuel p.2).map fun q => (p.1 ++ q.1, q.2.1, q.2.2))
          ((readAttributes fuel p'.2).map fun q => (p'.1 ++ q.1, q.2.1, q.2.2)) := by
      have hrest := ih hp.2
      generalize readAttributes fuel p.2 = q at hrest ⊢
      generalize readAttributes fuel p'.2 = q' at hrest ⊢
      cases hrest with
      | none => exact .none
      | some hq =>
        refine .some ⟨hp.1.append hq.1, ?_⟩
        rw [hq.2]
    have hfound := rel_findSome? hstep (halves_attributeRuns h)
    rw [readAttributes, readAttributes]
    generalize (attributeRuns s).findSome? _ = q at hfound ⊢
    generalize (attributeRuns s').findSome? _ = q' at hfound ⊢
    cases hfound with
    | none =>
      dsimp only
      rw [readClosing_eq_of_like h]
      generalize readClosing s' = c
      cases c with
      | none => exact .none
      | some c => exact .some ⟨.nil, rfl⟩
    | some hq => exact .some hq

end Token

end ErbLayout.Markup
