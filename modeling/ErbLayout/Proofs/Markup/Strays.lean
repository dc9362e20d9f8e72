import ErbLayout.Markup.Stray
import ErbLayout.Proofs.Markup.Tokens
/-!
Texts that differ only in their names have the close tags of raw text, and the broken tags, at the
same places.
-/

namespace ErbLayout.Markup

open Placeholder (Free Glossary HeadFree Like blind_isBlank blind_isWord free_of_allBlank
  headFree_cons)

variable {α : Type} {g g' : Glossary α} {s s' : List Char}

namespace Piece

/-- The end of a close tag behind its slash and the white space there. -/
def closeFrom (name before s : List Char) : Option (List Char × Nat) :=
  if sameLetters name (s.take name.length) then
    match (s.drop name.length).span isBlank with
    | (after, '>' :: _) =>
      let t := '<' :: '/' :: before ++ s.take name.length ++ after ++ ['>']
      some (t, t.length)
    | _ => none
  else none

theorem readCloseOf_slash (name s : List Char) :
    readCloseOf name ('<' :: '/' :: s) =
      (Token.runs isBlank s ++ [([], s)]).findSome?
        fun p : List Char × List Char => closeFrom name p.1 p.2 := rfl

theorem closeFrom_append {name spelled after : List Char} (hsame : sameLetters name spelled = true)
    (hafter : Text.allBlank after = true) (before rest : List Char) :
    closeFrom name before (spelled ++ (after ++ '>' :: rest)) =
      some ('<' :: '/' :: before ++ spelled ++ after ++ ['>'],
        ('<' :: '/' :: before ++ spelled ++ after ++ ['>']).length) := by
  have hlen := length_eq_of_sameLetters hsame
  obtain ⟨htake, hdrop⟩ := Placeholder.span_append (List.all_eq_true.1 hafter)
    (y := '>' :: rest) (by
      intro c hc
      obtain rfl := Option.some.inj hc
      rfl)
  rw [closeFrom, hlen, List.take_left, List.drop_left, if_pos hsame,
    List.span_eq_takeWhile_dropWhile, htake, hdrop]
  rfl

theorem closeFrom_eq_some {name before s : List Char} {p : List Char × Nat}
    (h : closeFrom name before s = some p) :
    ∃ spelled after rest, s = spelled ++ (after ++ '>' :: rest) ∧
      sameLetters name spelled = true ∧ Text.allBlank after = true := by
  unfold closeFrom at h
  split at h
  · rename_i hsame
    split at h
    · rename_i after rest hspan
      obtain ⟨hdrop, hblank⟩ := Attribute.span_eq_append hspan
      refine ⟨s.take name.length, after, rest, ?_, hsame, List.all_eq_true.2 hblank⟩
      rw [← hdrop, List.take_append_drop]
    · simp at h
  · simp at h

theorem closeFrom_eq_of_renamed {name : List Char} (hname : name.length < Placeholder.Name.size)
    (before : List Char) (h : Placeholder.Renamed g g' s s') :
    closeFrom name before s = closeFrom name before s' := by
  refine Placeholder.eq_of_rel (rel_of_renamed (R := fun _ _ p p' => p = p')
    (fun {h₀ h₀' t t' p} ht hp => ?_) h)
  obtain ⟨spelled, after, rest, rfl, hsame, hafter⟩ := closeFrom_eq_some hp
  have hfree := free_of_allBlank hafter
  obtain ⟨w, v, rfl, hw, hv⟩ :=
    ht.split (.inr (hfree.headFree.append (headFree_cons (by decide) rest)))
  obtain rfl := hw.eq_of_short (length_eq_of_sameLetters hsame ▸ hname)
  obtain ⟨a', rest', rfl, ha, -⟩ := hv.split_cons (by decide)
  obtain rfl := ha.like.eq_of_free hfree
  rw [closeFrom_append hsame hafter] at hp ⊢
  exact ⟨p, hp, rfl⟩

/-- White space at the start of a text ends where no name stands. -/
theorem renamed_blankRuns (h : Placeholder.Renamed g g' s s') :
    List.Forall₂ (fun p p' => p.1 = p'.1 ∧ Placeholder.Renamed g g' p.2 p'.2)
      (Token.runs isBlank s ++ [([], s)]) (Token.runs isBlank s' ++ [([], s')]) := by
  have hhalves : List.Forall₂ Halves (Token.runs isBlank s ++ [([], s)])
      (Token.runs isBlank s' ++ [([], s')]) :=
    List.rel_append (Token.halves_runs blind_isBlank h.like) (.cons ⟨.nil, h.like⟩ .nil)
  have hleft := (List.forall₂_and_left _ _).2
    ⟨fun p (hp : p ∈ Token.runs isBlank s ++ [([], s)]) => mem_blankRuns hp, hhalves⟩
  have hboth := (List.forall₂_and_left _ _).2
    ⟨fun p (hp : p ∈ Token.runs isBlank s' ++ [([], s')]) => mem_blankRuns hp, hleft.flip⟩
  refine hboth.flip.imp fun p p' hp => ?_
  obtain ⟨⟨hs', -⟩, ⟨hs, hblank⟩, hlike⟩ := hp
  have hfree := free_of_allBlank hblank
  rw [hs] at h
  obtain ⟨w, x, hsplit, hw, hx⟩ := h.split (.inl hfree.lastFree)
  obtain ⟨hp', rfl⟩ := List.append_inj (hs'.symm.trans hsplit)
    (hlike.1.length_eq.symm.trans hw.like.length_eq)
  exact ⟨(hp'.trans (hw.like.eq_of_free hfree)).symm, hx⟩

/-- The close tag of raw text spells no names. -/
theorem readCloseOf_eq_of_renamed {name : List Char} (hname : name.length < Placeholder.Name.size)
    (h : Placeholder.Renamed g g' s s') : readCloseOf name s = readCloseOf name s' := by
  refine Placeholder.eq_of_rel (rel_of_renamed (R := fun _ _ p p' => p = p')
    (fun {h₀ h₀' t t' p} ht hp => ⟨p, ?_, rfl⟩) h)
  have hshape : ∃ u, t = '<' :: '/' :: u := by
    unfold readCloseOf at hp
    split at hp
    · exact ⟨_, rfl⟩
    · simp at hp
  obtain ⟨u, rfl⟩ := hshape
  obtain ⟨t₁, rfl, h₁⟩ := ht.uncons (by decide)
  obtain ⟨u', rfl, hu⟩ := h₁.uncons (by decide)
  rw [readCloseOf_slash] at hp ⊢
  rw [← hp]
  refine Eq.symm (Placeholder.eq_of_rel ?_)
  refine Token.rel_findSome? (fun q q' hq => ?_) (renamed_blankRuns hu)
  rw [hq.1, closeFrom_eq_of_renamed hname q'.1 hq.2]
  cases closeFrom name q'.1 q'.2 with
  | none => exact .none
  | some c => exact .some rfl

end Piece

section Strays

open Attribute

theorem spacedValue_of_run {n r : List Char} (h : nameRun s = (n, '=' :: r)) :
    spacedValue s = if r.takeWhile isBlank = [] ∨ n = [] ∨ endsWithSlash n = true then none
      else some (n.length + 1 + (r.takeWhile isBlank).length) := by
  rw [spacedValue, h]
  simp only [List.span_eq_takeWhile_dropWhile]
  rcases hgap : r.takeWhile isBlank with _ | ⟨c, gap⟩
  · simp
  · simp only [reduceCtorEq, false_or, Bool.or_eq_true, List.isEmpty_iff]

theorem spacedValue_of_ne (h : ∀ r, (nameRun s).2 ≠ '=' :: r) : spacedValue s = none := by
  unfold spacedValue
  split
  · rename_i n r hrun
    rw [hrun] at h
    exact absurd rfl (h r)
  · rfl

theorem spacedValue_eq_of_like (h : Like s s') : spacedValue s = spacedValue s' := by
  obtain ⟨hn, hrest⟩ := Token.like_nameRun h
  by_cases hr : ∃ r, (nameRun s).2 = '=' :: r
  · obtain ⟨r, hr⟩ := hr
    rw [hr] at hrest
    obtain ⟨r', hr', hlike⟩ := hrest.uncons (by decide)
    have hgap := (hlike.span blind_isBlank).1
    rw [spacedValue_of_run (Prod.ext rfl hr), spacedValue_of_run (Prod.ext rfl hr'),
      endsWithSlash_eq_of_like hn, hn.length_eq, hgap.length_eq]
    simp only [hn.eq_nil_iff, hgap.eq_nil_iff]
  · have hr' (r : List Char) : (nameRun s').2 ≠ '=' :: r := by
      intro he
      rw [he] at hrest
      obtain ⟨u, hu, -⟩ := hrest.symm.uncons (by decide)
      exact hr ⟨u, hu⟩
    rw [spacedValue_of_ne fun r he => hr ⟨r, he⟩, spacedValue_of_ne hr']

theorem laterSpacedValue_eq_of_like (h : Like s s') (at_ : Nat) :
    laterSpacedValue at_ s = laterSpacedValue at_ s' := by
  induction h generalizing at_ with
  | nil => rfl
  | cons hc hs ih =>
    rw [laterSpacedValue, laterSpacedValue, ← hc.test blind_isBlank,
      ← hc.test (Placeholder.blind_eq (c := '<') (by decide)),
      ← hc.test (Placeholder.blind_eq (c := '>') (by decide)), spacedValue_eq_of_like hs, ih]

theorem gluedSpacedValue_eq_of_like (h : Like s s') : gluedSpacedValue s = gluedSpacedValue s' := by
  cases h with
  | nil => rfl
  | cons _ hs => rw [gluedSpacedValue, gluedSpacedValue, spacedValue_eq_of_like hs]

theorem readSpacedAttribute_angle (s : List Char) :
    readSpacedAttribute ('<' :: s) =
      if s.takeWhile isWord = [] then none
      else
        match laterSpacedValue ((s.takeWhile isWord).length + 1) (s.dropWhile isWord) with
        | some n => some ((), n)
        | none => (gluedSpacedValue s).map fun n => ((), n + 1) := by
  rw [readSpacedAttribute, List.span_eq_takeWhile_dropWhile]
  generalize s.takeWhile isWord = n
  cases n <;> rfl

theorem readSpacedAttribute_of_ne {c : Char} (hc : c ≠ '<') (s : List Char) :
    readSpacedAttribute (c :: s) = none := by
  unfold readSpacedAttribute
  split
  · rename_i he
    exact absurd (List.cons.inj he).1 hc
  · rfl

theorem readTagStart_of_ne {c : Char} (hc : c ≠ '<') (s : List Char) :
    readTagStart (c :: s) = none := by
  unfold readTagStart
  split
  · rename_i he
    exact absurd (List.cons.inj he).1 hc
  · rename_i he
    exact absurd (List.cons.inj he).1 hc
  · rfl

theorem readSpacedAttribute_eq_of_like (h : Like s s') :
    readSpacedAttribute s = readSpacedAttribute s' := by
  refine Placeholder.eq_of_rel (Placeholder.rel_of_like (fun {t t' p} ht hp => ⟨p, ?_, rfl⟩) h)
  cases t with
  | nil => simp [readSpacedAttribute] at hp
  | cons c t =>
    by_cases hc : c = '<'
    · subst hc
      obtain ⟨u, rfl, hu⟩ := ht.uncons (by decide)
      obtain ⟨hname, hrest⟩ := hu.span blind_isWord
      rw [← hp, readSpacedAttribute_angle, readSpacedAttribute_angle, hname.length_eq,
        laterSpacedValue_eq_of_like hrest, gluedSpacedValue_eq_of_like hu]
      simp only [hname.eq_nil_iff]
    · rw [readSpacedAttribute_of_ne hc] at hp
      simp at hp

theorem readTagStart_eq_of_like (h : Like s s') : readTagStart s = readTagStart s' := by
  refine Placeholder.eq_of_rel (Placeholder.rel_of_like (fun {t t' p} ht hp => ⟨p, ?_, rfl⟩) h)
  unfold readTagStart at hp
  split at hp
  · rename_i c r
    obtain ⟨u, rfl, hu⟩ := ht.uncons (by decide)
    obtain ⟨v, rfl, hv⟩ := hu.uncons (by decide)
    cases hv with
    | cons hc _ => rw [readTagStart, ← hc.test blind_isWord, hp]
  · rename_i c r hslash
    obtain ⟨u, rfl, hu⟩ := ht.uncons (by decide)
    cases hu with
    | @cons _ c' _ r' hc hr =>
      rw [readTagStart, ← hc.test blind_isWord, hp]
      rintro d x rfl rfl
      obtain ⟨d', x', -, -, rfl⟩ := List.forall₂_cons_right_iff.1 hr
      exact hslash d' x' (hc.symm.eq (by decide)) rfl
  · simp at hp

theorem find?_eq_of_like {β : Type} {read : Text.Reader β}
    (hread : ∀ {t t' : List Char}, Like t t' → read t = read t') (h : Like s s') (n : Nat) :
    Text.find? read n s = Text.find? read n s' := by
  induction h generalizing n with
  | nil => rfl
  | @cons c c' s s' hc hs ih =>
    rw [Text.find?, Text.find?, hread (.cons hc hs), ih]

end Strays

end ErbLayout.Markup
