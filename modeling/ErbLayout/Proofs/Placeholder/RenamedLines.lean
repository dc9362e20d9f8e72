import ErbLayout.Proofs.Placeholder.Renamed
import ErbLayout.Proofs.Text.Split
/-!
Texts that differ only in their names have the same lines but for the names: split at line feeds or
at all line ends, joined, or freed of their margin.
-/

namespace ErbLayout.Placeholder

open Text (splitOn splitLines isLineBreak isIndent isIndentOnly leadingIndent margin)

theorem blind_isLineBreak : Blind isLineBreak := by
  refine blind_of_false fun c hc => ?_
  cases h : isLineBreak c with
  | false => rfl
  | true =>
    rw [isNameChar_of_isBlank (Text.isBlank_of_isLineBreak h)] at hc
    exact absurd hc (by simp)

theorem isNameChar_of_isIndent {c : Char} (h : isIndent c = true) : isNameChar c = false :=
  isNameChar_of_isBlank (Text.isBlank_of_isIndent h)

theorem blind_isIndent : Blind isIndent := by
  refine blind_of_false fun c hc => ?_
  cases h : isIndent c with
  | false => rfl
  | true =>
    rw [isNameChar_of_isIndent h] at hc
    exact absurd hc (by simp)

theorem Like.infix_of_free {s s' w : List Char} (h : Like s s') (hw : Free w) (hs : w <:+: s) :
    w <:+: s' := by
  obtain ⟨u, v, rfl⟩ := hs
  obtain ⟨x, v', rfl, hx, -⟩ := h.split
  obtain ⟨u', w', rfl, -, hw'⟩ := hx.split
  rw [hw'.eq_of_free hw]
  exact ⟨u', v', rfl⟩

namespace Renamed

variable {α : Type} {g g' : Glossary α} {s s' : List Char} {ls ls' : List (List Char)}

/-- All names begin with the same letter. -/
theorem head?_eq (h : Renamed g g' s s') : s'.head? = s.head? := by
  cases h.aligned with
  | nil => rfl
  | char c _ => rfl
  | @name e e' t t' _ _ _ _ =>
    obtain ⟨u, hu, -⟩ := e.1.text_shape
    obtain ⟨u', hu', -⟩ := e'.1.text_shape
    rw [hu, hu']
    rfl

/-- Texts that are renamed to each other begin with renamed texts of one length, if no name reaches
over the end. -/
theorem of_initial {u u' : List Char} (h : Renamed g g' s s') (hu : u <+: s) (hu' : u' <+: s')
    (hlen : u.length = u'.length) (hlast : LastFree u) : Renamed g g' u u' := by
  obtain ⟨v, rfl⟩ := hu
  obtain ⟨v', rfl⟩ := hu'
  obtain ⟨w, x, hsplit, hw, -⟩ := h.split (.inl hlast)
  obtain ⟨rfl, -⟩ := List.append_inj hsplit (hlen.symm.trans hw.like.length_eq)
  exact hw

theorem of_short (h : s.length < Name.size) : Renamed g g' s s :=
  of_namesIn_nil (Entries.namesIn_of_short h) (Entries.namesIn_of_short h)

theorem splitOn {sep : Char} (hsep : isNameChar sep = false) (h : Renamed g g' s s') :
    List.Forall₂ (Renamed g g') (splitOn sep s) (splitOn sep s') := by
  induction hn : s.length using Nat.strong_induction_on generalizing s s' with
  | _ n ih =>
    by_cases hmem : sep ∈ s
    · obtain ⟨l, t, rfl, hl⟩ := List.eq_append_cons_of_mem hmem
      obtain ⟨l', t', rfl, hl', ht⟩ := h.split_cons hsep
      rw [Text.splitOn_append hl, Text.splitOn_append fun hm => hl (hl'.like.symm.mem hsep hm)]
      exact .cons hl' (ih t.length (by simp [← hn]; omega) ht rfl)
    · have hmem' : sep ∉ s' := fun hm => hmem (h.like.symm.mem hsep hm)
      rw [Text.splitOn_of_not_mem hmem, Text.splitOn_of_not_mem hmem']
      exact .cons h .nil

theorem splitLines (h : Renamed g g' s s') :
    List.Forall₂ (Renamed g g') (splitLines s) (splitLines s') := by
  induction hn : s.length using Nat.strong_induction_on generalizing s s' with
  | _ n ih =>
    obtain ⟨hl, ht⟩ := h.span blind_isLineBreak.not
    have hsolid : ∀ c ∈ s.takeWhile fun c => !isLineBreak c, isLineBreak c = false := fun c hc => by
      simpa using List.mem_takeWhile_imp hc
    have hsolid' : ∀ c ∈ s'.takeWhile fun c => !isLineBreak c, isLineBreak c = false :=
      fun c hc => by simpa using List.mem_takeWhile_imp hc
    have hstop := head_dropWhile (fun c => !isLineBreak c) s
    rw [← List.takeWhile_append_dropWhile (p := fun c => !isLineBreak c) (l := s)] at hn ⊢
    rw [← List.takeWhile_append_dropWhile (p := fun c => !isLineBreak c) (l := s')]
    generalize s.takeWhile (fun c => !isLineBreak c) = l at hl hsolid hn ⊢
    generalize s'.takeWhile (fun c => !isLineBreak c) = l' at hl hsolid' ⊢
    generalize s.dropWhile (fun c => !isLineBreak c) = t at ht hstop hn ⊢
    generalize s'.dropWhile (fun c => !isLineBreak c) = t' at ht ⊢
    cases t with
    | nil =>
      obtain rfl := ht.like.eq_nil_iff.1 rfl
      rw [List.append_nil, List.append_nil, Text.splitLines_of_solid hsolid,
        Text.splitLines_of_solid hsolid']
      cases l with
      | nil =>
        obtain rfl := hl.like.eq_nil_iff.1 rfl
        exact .nil
      | cons c l =>
        cases l' with
        | nil => exact absurd (hl.like.eq_nil_iff.2 rfl) (by simp)
        | cons c' l' => exact .cons hl .nil
    | cons c t =>
      have hc : isLineBreak c = true := by simpa using hstop c rfl
      have hfree := isNameChar_of_isBlank (Text.isBlank_of_isLineBreak hc)
      obtain ⟨t', rfl, hrest⟩ := ht.uncons hfree
      by_cases hcrlf : c = '\r' ∧ t.head? = some '\n'
      · obtain ⟨rfl, hhead⟩ := hcrlf
        obtain ⟨u, rfl⟩ := List.head?_eq_some_iff.1 hhead
        obtain ⟨u', rfl, hu⟩ := hrest.uncons (by decide)
        rw [Text.splitLines_crlf hsolid, Text.splitLines_crlf hsolid']
        exact .cons hl (ih u.length (by simp [← hn]; omega) hu rfl)
      · have hnot (hcr : c = '\r') : t.head? ≠ some '\n' := fun he => hcrlf ⟨hcr, he⟩
        have hnot' (hcr : c = '\r') : t'.head? ≠ some '\n' := hrest.head?_eq ▸ hnot hcr
        rw [Text.splitLines_append hsolid hc hnot, Text.splitLines_append hsolid' hc hnot']
        exact .cons hl (ih t.length (by simp [← hn]; omega) hrest rfl)

theorem joinLines (h : List.Forall₂ (Renamed g g') ls ls') :
    Renamed g g' (Text.joinLines ls) (Text.joinLines ls') := by
  induction h with
  | nil => exact nil
  | @cons l l' ms ms' hl hls ih =>
    cases hls with
    | nil => exact hl
    | @cons m m' ms ms' hm hms =>
      have hjoin (a b : List Char) (bs : List (List Char)) :
          Text.joinLines (a :: b :: bs) = a ++ '\n' :: Text.joinLines (b :: bs) := by
        rw [Text.joinLines, Text.joinWith, List.append_assoc]
        · rfl
        · simp
      rw [hjoin, hjoin]
      exact hl.append (cons (by decide) ih) (.inr (headFree_cons (by decide) _))

theorem isIndentOnly_eq (h : Renamed g g' s s') : isIndentOnly s = isIndentOnly s' :=
  h.like.all blind_isIndent

theorem leadingIndent_eq (h : Renamed g g' s s') : leadingIndent s' = leadingIndent s :=
  (h.span blind_isIndent).1.like.eq_of_free fun _ hc =>
    isNameChar_of_isIndent (List.mem_takeWhile_imp hc)

theorem margin_eq (h : List.Forall₂ (Renamed g g') ls ls') : margin ls = margin ls' := by
  induction h with
  | nil => rfl
  | @cons l l' ms ms' hl hls ih =>
    have hall : ms.all isIndentOnly = ms'.all isIndentOnly := by
      clear ih
      induction hls with
      | nil => rfl
      | cons hm _ ih => rw [List.all_cons, List.all_cons, hm.isIndentOnly_eq, ih]
    rw [margin, margin, hl.isIndentOnly_eq, hall, hl.leadingIndent_eq, ih]

theorem dedent (h : List.Forall₂ (Renamed g g') ls ls') :
    List.Forall₂ (Renamed g g') (Text.dedent ls) (Text.dedent ls') := by
  have hmargin : margin ls = margin ls' := margin_eq h
  rw [Text.dedent, Text.dedent, ← hmargin, List.forall₂_map_left_iff, List.forall₂_map_right_iff]
  have hmem : ∀ l ∈ ls, isIndentOnly l = false → margin ls <+: leadingIndent l :=
    fun l hl => Text.margin_initial hl
  generalize margin ls = m at hmem ⊢
  clear hmargin
  induction h with
  | nil => exact .nil
  | @cons l l' ms ms' hl _ ih =>
    obtain ⟨hm, hms⟩ := List.forall_mem_cons.1 hmem
    refine .cons ?_ (ih hms)
    rw [← hl.isIndentOnly_eq]
    cases hi : isIndentOnly l with
    | true => exact nil
    | false =>
      -- the margin of a line is cut off it where no name stands
      have hfree : Free m := fun c hc => isNameChar_of_isIndent
        (List.mem_takeWhile_imp ((hm hi).subset hc))
      obtain ⟨u, rfl⟩ := (hm hi).trans (List.takeWhile_prefix isIndent)
      obtain ⟨m', u', rfl, hm', hu⟩ := hl.split (.inl hfree.lastFree)
      rw [hm'.like.eq_of_free hfree]
      simpa using hu

end Renamed

end ErbLayout.Placeholder
