import ErbLayout.Proofs.Markup.Renamed
import ErbLayout.Proofs.Placeholder.Rename
import ErbLayout.Proofs.Placeholder.RenamedLines
import ErbLayout.Ruby.Fragment
/-!
Fragments that differ only in their names play the same role, and are closed and laid out alike, if
the checker and the reformatter treat consistently renamed code alike.
-/

namespace ErbLayout.Ruby

open Placeholder (Glossary HeadFree Name Renamed isWord_of_isNameChar)

variable {α : Type} {g g' : Glossary α} {checker : Checker} {reformatter : Reformatter}
variable {s s' code code' suffix : List Char}

/-- A checker that finds code whole or not whatever its names are. -/
def Checker.Alike (checker : Checker) : Prop :=
  ∀ ρ code, Name.Consistent ρ code → checker (Name.rename ρ code) = checker code

/-- A reformatter that makes of renamed code, renamed, what it makes of the code. -/
def Reformatter.Alike (reformatter : Reformatter) : Prop :=
  ∀ ρ code width, Name.Consistent ρ code →
    (reformatter (Name.rename ρ code) width).result =
      (reformatter code width).result.map (Name.rename ρ)

/-- What looks at no letter of a name treats renamed code alike. -/
theorem alike_of_like (h : ∀ s s', Placeholder.Like s s' → checker s = checker s') :
    checker.Alike := fun ρ code _ => (h _ _ (Name.like_rename ρ code)).symm

theorem alike_passThrough : Reformatter.Alike passThrough := fun _ _ _ _ => rfl

section Alike

variable (hg : g.Distinct) (hg' : g'.Distinct)
include hg hg'

theorem Checker.Alike.eq_of_renamed (hc : checker.Alike) (h : Renamed g g' s s') :
    checker s = checker s' := by
  obtain ⟨rfl, hshared⟩ := h.exists_renaming hg hg'
  exact (hc _ s (Glossary.consistent_partner hg hg' hshared)).symm

theorem Reformatter.Alike.renamed {result : List Char} {width : Int} (hr : reformatter.Alike)
    (h : Renamed g g' s s') (hs : (reformatter s width).result = .ok result) :
    ∃ result', (reformatter s' width).result = .ok result' ∧ Renamed g g' result result' := by
  obtain ⟨rfl, hshared⟩ := h.exists_renaming hg hg'
  have hrenamed := hr _ s width (Glossary.consistent_partner hg hg' hshared)
  rw [hs] at hrenamed
  refine ⟨_, hrenamed, Renamed.of_shared hg hg' fun n hn => hshared n ?_⟩
  refine Name.mem_spelled_of_follows (fun ρ hρ hkept => ?_) hn
  have hsame := hr ρ s width hρ
  rw [hkept, hs] at hsame
  exact (Except.ok.inj hsame).symm

end Alike

theorem beginsWithWord_of_renamed {word : List Char} (hw : word.length < Name.size)
    (h : Renamed g g' s s') (hs : beginsWithWord word s = true) :
    beginsWithWord word s' = true := by
  rw [beginsWithWord, Bool.and_eq_true, Bool.not_eq_true'] at hs ⊢
  obtain ⟨hword, hnext⟩ := hs
  obtain ⟨t, rfl⟩ := List.isPrefixOf_iff_prefix.1 hword
  rw [List.drop_left] at hnext
  have hfree : HeadFree t := by
    intro c hc
    rw [hc, Option.any_some] at hnext
    cases hname : Placeholder.isNameChar c with
    | false => rfl
    | true =>
      rw [isWord_of_isNameChar hname] at hnext
      exact absurd hnext (by simp)
  obtain ⟨w', t', rfl, hw', ht⟩ := h.split (.inr hfree)
  obtain rfl := hw'.eq_of_short hw
  rw [List.drop_left, ht.head?_eq]
  exact ⟨List.isPrefixOf_iff_prefix.2 (List.prefix_append _ _), hnext⟩

theorem isContinuation_eq_of_renamed (h : Renamed g g' s s') :
    isContinuation s = isContinuation s' := by
  have hshort : ∀ w ∈ openContinuations, w.length < Name.size := by decide
  have hany {h₀ h₀' : Glossary α} {t t' : List Char} (ht : Renamed h₀ h₀' t t') :
      openContinuations.any (beginsWithWord · t) = true →
        openContinuations.any (beginsWithWord · t') = true := by
    intro hw
    obtain ⟨w, hmem, hbegins⟩ := List.any_eq_true.1 hw
    exact List.any_eq_true.2 ⟨w, hmem, beginsWithWord_of_renamed (hshort w hmem) ht hbegins⟩
  rw [isContinuation, isContinuation, Markup.Element.contains_eq_of_renamed (by decide) h,
    Bool.eq_iff_iff.2 ⟨hany h, hany h.symm⟩]

/-- The lines before the closers, or that these are not the last lines, in both texts. -/
theorem renamed_withoutClosers {closing lines lines' : List (List Char)}
    (hclosing : ∀ w ∈ closing, w.length < Name.size)
    (h : List.Forall₂ (Renamed g g') lines lines') :
    Option.Rel (List.Forall₂ (Renamed g g')) (withoutClosers closing lines)
      (withoutClosers closing lines') := by
  have hforth {h₀ h₀' : Glossary α} {ls ls' : List (List Char)}
      (hls : List.Forall₂ (Renamed h₀ h₀') ls ls') {ws : List (List Char)}
      (hws : ∀ w ∈ ws, w.length < Name.size) (he : ls.map Text.trim = ws) :
      ls'.map Text.trim = ws := by
    subst he
    induction hls with
    | nil => rfl
    | cons hl _ ih =>
      obtain ⟨hshort, hrest⟩ := List.forall_mem_cons.1 hws
      rw [List.map_cons, List.map_cons, hl.trim.eq_of_short hshort, ih hrest]
  have hback {ls ls' : List (List Char)} (hls : List.Forall₂ (Renamed g g') ls ls') :
      List.Forall₂ (Renamed g' g) ls' ls := (hls.imp fun _ _ hl => hl.symm).flip
  have hlast := List.forall₂_drop (lines.length - closing.length) h
  have htest : ((lines.drop (lines.length - closing.length)).map Text.trim != closing) =
      ((lines'.drop (lines.length - closing.length)).map Text.trim != closing) := by
    refine congrArg (!·) (Bool.eq_iff_iff.2 ?_)
    rw [beq_iff_eq, beq_iff_eq]
    exact ⟨hforth hlast hclosing, hforth (hback hlast) hclosing⟩
  unfold withoutClosers
  dsimp only
  rw [← h.length_eq, htest]
  split
  · exact .some h
  · split
    · exact .none
    · exact .some (List.forall₂_take _ h)

/-- The closers that may be put behind a fragment. -/
def suffixes : List (List Char) := [[], "\nend".toList, "\n\x7d".toList, "\nend\n\x7d".toList]

theorem autocloseSuffix_eq (checker : Checker) (code : List Char) :
    autocloseSuffix checker code =
      let first := if checker (code ++ "\nend".toList) then "\nend".toList else []
      if checker (code ++ (first ++ "\n\x7d".toList)) then first ++ "\n\x7d".toList else first := rfl

theorem autocloseSuffix_mem (checker : Checker) (code : List Char) :
    autocloseSuffix checker code ∈ suffixes := by
  rw [autocloseSuffix_eq]
  dsimp only
  split <;> split <;> decide

theorem headFree_of_mem_suffixes (h : suffix ∈ suffixes) : HeadFree suffix := by
  have hall : suffixes.all fun s => s.head?.all fun c => !Placeholder.isNameChar c := by decide
  intro c hc
  have hs := List.all_eq_true.1 hall suffix h
  rw [hc] at hs
  simpa using hs

theorem renamed_of_mem_suffixes (h : suffix ∈ suffixes) : Renamed g g' suffix suffix := by
  have hshort : ∀ s ∈ suffixes, s.length < Name.size := by decide
  exact .of_short (hshort suffix h)

/-- A fragment that is renamed is so with closers behind it. -/
theorem renamed_append_suffix (h : Renamed g g' code code') (hs : suffix ∈ suffixes) :
    Renamed g g' (code ++ suffix) (code' ++ suffix) :=
  h.append (renamed_of_mem_suffixes hs) (.inr (headFree_of_mem_suffixes hs))

theorem renamed_ofReformatted {result result' : List Char} (hcode : Renamed g g' code code')
    (hsuffix : suffix ∈ suffixes) (hresult : Renamed g g' result result') :
    Renamed g g' (ofReformatted code suffix result).1 (ofReformatted code' suffix result').1 := by
  have hshort : ∀ s ∈ suffixes, ∀ w ∈ Text.words s, w.length < Name.size := by decide
  have hlines := renamed_withoutClosers (hshort suffix hsuffix) hresult.trim.splitLines
  unfold ofReformatted
  generalize withoutClosers _ (Text.splitLines (Text.trim result)) = ls at hlines ⊢
  generalize withoutClosers _ (Text.splitLines (Text.trim result')) = ls' at hlines ⊢
  cases hlines with
  | none => exact hcode
  | some hls =>
    cases hls with
    | nil => exact hcode
    | cons hl hls => exact .joinLines (.cons hl hls)

section Checked

variable (hg : g.Distinct) (hg' : g'.Distinct) (hc : checker.Alike)
include hg hg' hc

theorem classify_eq_of_renamed (h : Renamed g g' code code') :
    classify checker code = classify checker code' := by
  have hshort : ∀ w ∈ closers, w.length < Name.size := by decide
  have hcloses := Markup.Element.contains_eq_of_renamed hshort h.trim
  unfold classify
  dsimp only
  rw [hcloses,
    isContinuation_eq_of_renamed h.trim, hc.eq_of_renamed hg hg' h.trim]

theorem autocloseSuffix_eq_of_renamed (h : Renamed g g' code code') :
    autocloseSuffix checker code = autocloseSuffix checker code' := by
  have hwhole {suffix : List Char} (hs : suffix ∈ suffixes) :
      checker (code ++ suffix) = checker (code' ++ suffix) :=
    hc.eq_of_renamed hg hg' (renamed_append_suffix h hs)
  rw [autocloseSuffix_eq, autocloseSuffix_eq, hwhole (by decide)]
  dsimp only
  split
  · rw [hwhole (by decide)]
  · rw [hwhole (by decide)]

end Checked

end ErbLayout.Ruby
