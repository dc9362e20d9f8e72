import ErbLayout.Proofs.Erb.Reading
import ErbLayout.Proofs.Placeholder.RenamedLines
/-!
Texts that differ only in their names hold the same ERB tags but for the names, and the tags are
built anew alike.
-/

namespace ErbLayout.Erb

open Placeholder (Free Glossary Renamed free_closer free_of_all free_of_allBlank free_opener
  headFree_cons)
open Text (allBlank)

variable {α : Type} {g g' : Glossary α} {s s' code code' : List Char}

/-- Tags of the same kind with renamed code. -/
structure Tag.Renamed (g g' : Glossary α) (tag tag' : Tag) : Prop where
  opener : tag'.opener = tag.opener
  code : Placeholder.Renamed g g' tag.code tag'.code
  closer : tag'.closer = tag.closer

theorem Opener.renamed_read {o : Opener} {rest : List Char} (h : Renamed g g' s s')
    (hr : Opener.read s = some (o, rest)) :
    ∃ rest', Opener.read s' = some (o, rest') ∧ Renamed g g' rest rest' := by
  obtain rfl := Opener.text_read hr
  obtain ⟨o', rest', rfl, ho, hrest⟩ := h.split (.inl (free_opener o).lastFree)
  rw [ho.like.eq_of_free (free_opener o)]
  exact ⟨rest', Opener.read_of_head_eq hr hrest.head?_eq.symm, hrest⟩

theorem Tag.ofInside_concat (o : Opener) (s : List Char) :
    Tag.ofInside o (s ++ ['-']) = ⟨o, Text.trim s, .trimmed⟩ := by
  simp [Tag.ofInside]

theorem Tag.ofInside_of_ne (o : Opener) (h : ∀ u, s ≠ u ++ ['-']) :
    Tag.ofInside o s = ⟨o, Text.trim s, .plain⟩ := by
  unfold Tag.ofInside
  split
  · rename_i r hr
    refine absurd ?_ (h r.reverse)
    rw [← List.reverse_reverse s, hr, List.reverse_cons]
  · rfl

theorem Tag.renamed_ofInside (o : Opener) (h : Placeholder.Renamed g g' s s') :
    Tag.Renamed g g' (Tag.ofInside o s) (Tag.ofInside o s') := by
  by_cases hs : ∃ u, s = u ++ ['-']
  · obtain ⟨u, rfl⟩ := hs
    obtain ⟨u', v', rfl, hu, hv⟩ := h.split_cons (by decide)
    obtain rfl := hv.like.eq_nil_iff.1 rfl
    rw [Tag.ofInside_concat, Tag.ofInside_concat]
    exact ⟨rfl, hu.trim, rfl⟩
  · have hs' (u : List Char) : s' ≠ u ++ ['-'] := by
      rintro rfl
      obtain ⟨v, w, rfl, -, hw⟩ := h.symm.split_cons (by decide)
      obtain rfl := hw.like.eq_nil_iff.1 rfl
      exact hs ⟨v, rfl⟩
    rw [Tag.ofInside_of_ne o fun u hu => hs ⟨u, hu⟩, Tag.ofInside_of_ne o hs']
    exact ⟨rfl, h.trim, rfl⟩

theorem Tag.renamed_split? {tag : Tag} (h : Placeholder.Renamed g g' s s')
    (ht : Tag.split? s = some tag) :
    ∃ tag', Tag.split? s' = some tag' ∧ Tag.Renamed g g' tag tag' := by
  simp only [Tag.split?, Option.bind_eq_bind, Option.bind_eq_some_iff, Prod.exists] at ht ⊢
  obtain ⟨o, rest, ho, ht⟩ := ht
  obtain ⟨rest', ho', hrest⟩ := Opener.renamed_read h ho
  split at ht
  · rename_i inside hinside
    obtain rfl := Option.some.inj ht
    have hclosing : rest = inside.reverse ++ ['%', '>'] := by
      rw [← List.reverse_reverse rest, hinside]
      simp
    rw [hclosing] at hrest
    obtain ⟨u', v', rfl, hu, hv⟩ := hrest.split_cons (by decide)
    obtain rfl := hv.like.eq_of_free (free_of_all (by decide))
    refine ⟨Tag.ofInside o u', ⟨o, _, ho', ?_⟩, Tag.renamed_ofInside o hu⟩
    simp
  · simp at ht

/-- An ERB tag at the start of a text stands at the start of a renamed one. -/
theorem Tag.renamed_read {tag : Tag} {whole : List Char} {n : Nat}
    (h : Placeholder.Renamed g g' s s') (ht : Tag.read s = some ((tag, whole), n)) :
    ∃ tag' whole', Tag.read s' = some ((tag', whole'), n) ∧
      Placeholder.Renamed g g' whole whole' := by
  simp only [Tag.read, Option.bind_eq_bind, Option.bind_eq_some_iff, Option.pure_def,
    Option.some.injEq, Prod.mk.injEq, Prod.exists] at ht ⊢
  obtain ⟨o, rest, ho, inside, hi, ⟨rfl, rfl⟩, rfl⟩ := ht
  obtain ⟨rest', ho', hrest⟩ := Opener.renamed_read h ho
  obtain ⟨hnone, r, rfl⟩ := body_eq_some hi
  obtain ⟨u', v', rfl, hu, hv⟩ := hrest.split_cons (by decide)
  obtain ⟨w', rfl, -⟩ := hv.uncons (by decide)
  have hnone' : ¬ ['%', '>'] <:+: u' := fun hm =>
    hnone (hu.like.symm.infix_of_free (free_of_all (by decide)) hm)
  refine ⟨_, _, ⟨o, _, ho', u', body_append_closing hnone' w', ⟨rfl, rfl⟩, ?_⟩, ?_⟩
  · simp [hu.like.length_eq]
  · have hopened := (Placeholder.Renamed.of_free (free_opener o)).append hu
      (.inl (free_opener o).lastFree)
    exact hopened.append (.of_free (free_of_all (by decide))) (.inr (headFree_cons (by decide) _))

theorem renamed_reindent {indent : List Char} (hi : allBlank indent = true)
    (h : Renamed g g' s s') :
    Renamed g g' (if allBlank s then [] else Text.trimRight (indent ++ ' ' :: ' ' :: s))
      (if allBlank s' then [] else Text.trimRight (indent ++ ' ' :: ' ' :: s')) := by
  rw [← h.like.allBlank]
  split
  · exact .nil
  · have hfree := free_of_allBlank hi
    exact ((Renamed.of_free hfree).append (.cons (by decide) (.cons (by decide) h))
      (.inl hfree.lastFree)).trimRight

theorem Tag.renamed_build {opener closer indent : List Char} (ho : Free opener) (hc : Free closer)
    (hi : allBlank indent = true) (h : Placeholder.Renamed g g' code code') :
    Placeholder.Renamed g g' (Tag.build opener code closer indent)
      (Tag.build opener code' closer indent) := by
  have hend : Placeholder.Renamed g g' (' ' :: closer) (' ' :: closer) :=
    .cons (by decide) (.of_free hc)
  have hempty : Placeholder.Renamed g g' (opener ++ ' ' :: closer) (opener ++ ' ' :: closer) :=
    (Placeholder.Renamed.of_free ho).append hend (.inl ho.lastFree)
  have hlines := h.trim.splitOn (show Placeholder.isNameChar '\n' = false by decide)
  unfold Tag.build
  rw [← h.like.allBlank]
  split
  · exact hempty
  · generalize Text.splitOn '\n' (Text.trim code) = ls at hlines ⊢
    generalize Text.splitOn '\n' (Text.trim code') = ls' at hlines ⊢
    cases hlines with
    | nil => exact hempty
    | @cons first first' rest rest' hfirst hrest =>
      dsimp only
      rw [hfirst.head?_eq]
      have hbody : Placeholder.Renamed g g'
          (Text.joinLines (Text.trimRight first :: (Text.dedent rest).map fun l =>
            if allBlank l then [] else Text.trimRight (indent ++ ' ' :: ' ' :: l)))
          (Text.joinLines (Text.trimRight first' :: (Text.dedent rest').map fun l =>
            if allBlank l then [] else Text.trimRight (indent ++ ' ' :: ' ' :: l))) := by
        refine .joinLines (.cons hfirst.trimRight ?_)
        rw [List.forall₂_map_left_iff, List.forall₂_map_right_iff]
        exact (Placeholder.Renamed.dedent hrest).imp fun _ _ hl => renamed_reindent hi hl
      have hsep : Free (if first.head? = some '#' then [] else [' ']) := by
        split <;> exact free_of_all (by decide)
      have hstart := ho.append hsep
      exact ((Placeholder.Renamed.of_free hstart).append hbody (.inl hstart.lastFree)).append hend
        (.inr (headFree_cons (by decide) _))

end ErbLayout.Erb
