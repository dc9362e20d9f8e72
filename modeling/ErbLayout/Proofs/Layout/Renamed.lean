import ErbLayout.Layout.Attributes
import ErbLayout.Proofs.Layout.Sheet
import ErbLayout.Proofs.Layout.Wrap
import ErbLayout.Proofs.Markup.Renamed
/-!
Tags that differ only in their names are laid out alike, when renamed texts are equally wide.
-/

namespace ErbLayout.Layout

open Markup (Attribute Element.isTokenList)
open Placeholder (Glossary HeadFree Renamed headFree_cons headFree_flatMap)
open Text (joinWords words)

variable {α β : Type} {g g' : Glossary α} {len len' : Measure} {lineWidth : Int}
variable {depth column : Nat} {s s' name name' attrs attrs' : List Char}

/-- Measures by which renamed texts are equally wide. -/
def Agree (g g' : Glossary α) (len len' : Measure) : Prop :=
  ∀ s s', Renamed g g' s s' → len s = len' s'

/-- Rows of the same shape, renamed part by part. -/
inductive Row.Renamed (g g' : Glossary α) : Row → Row → Prop
  | whole {t t' : List Char} : Placeholder.Renamed g g' t t' →
    Row.Renamed g g' (.whole t) (.whole t')
  | tokens {n n' : List Char} (q : Markup.Quote) {ts ts' : List (List Char)} :
    Placeholder.Renamed g g' n n' → List.Forall₂ (Placeholder.Renamed g g') ts ts' →
    Row.Renamed g g' (.tokens n q ts) (.tokens n' q ts')

inductive AttributeLayout.Renamed (g g' : Glossary α) : AttributeLayout → AttributeLayout → Prop
  | none : AttributeLayout.Renamed g g' .none .none
  | inline {t t' : List Char} : Placeholder.Renamed g g' t t' →
    AttributeLayout.Renamed g g' (.inline t) (.inline t')
  | rows {rs rs' : List Row} : List.Forall₂ (Row.Renamed g g') rs rs' →
    AttributeLayout.Renamed g g' (.rows rs) (.rows rs')

theorem headFree_indented (depth : Nat) (s : List Char) : HeadFree (indented depth s) :=
  headFree_cons (by decide) _

theorem renamed_lineBreak (depth : Nat) : Renamed g g' ('\n' :: Nesting.indentOf depth)
    ('\n' :: Nesting.indentOf depth) :=
  .of_free (Placeholder.free_of_allBlank (lineBreak_allBlank depth))

theorem renamed_indented (depth : Nat) (h : Renamed g g' s s') :
    Renamed g g' (indented depth s) (indented depth s') :=
  (renamed_lineBreak depth).append h.trim
    (.inl (Placeholder.free_of_allBlank (lineBreak_allBlank depth)).lastFree)

theorem renamed_flatMap {R : β → β → Prop} {f f' : β → List Char}
    (hf : ∀ x x', R x x' → Renamed g g' (f x) (f' x')) (hfree : ∀ x, HeadFree (f x))
    {xs xs' : List β}
    (h : List.Forall₂ R xs xs') : Renamed g g' (xs.flatMap f) (xs'.flatMap f') := by
  induction h with
  | nil => exact .nil
  | cons hx _ ih =>
    rw [List.flatMap_cons, List.flatMap_cons]
    exact (hf _ _ hx).append ih (.inr (headFree_flatMap fun x _ => hfree x))

theorem Row.headFree_text (depth : Nat) (r : Row) : HeadFree (r.text depth) := by
  cases r with
  | whole t => exact headFree_indented depth t
  | tokens n q ts => exact headFree_cons (by decide) _

theorem Row.Renamed.text {r r' : Row} (h : Row.Renamed g g' r r') (depth : Nat) :
    Placeholder.Renamed g g' (r.text depth) (r'.text depth) := by
  cases h with
  | whole ht => exact renamed_indented depth ht
  | @tokens n n' q ts ts' hn hts =>
    have hmark := Attribute.not_isNameChar_quote q
    have hopen : Placeholder.Renamed g g' (n ++ ['=', q.mark]) (n' ++ ['=', q.mark]) :=
      hn.append (.cons (by decide) (.cons hmark .nil)) (.inr (headFree_cons (by decide) _))
    have htokens : Placeholder.Renamed g g' (ts.flatMap (indented (depth + 1)))
        (ts'.flatMap (indented (depth + 1))) :=
      renamed_flatMap (fun _ _ ht => renamed_indented (depth + 1) ht) (headFree_indented _) hts
    have hclose : Placeholder.Renamed g g' (indented depth [q.mark]) (indented depth [q.mark]) :=
      renamed_indented depth (.cons hmark .nil)
    refine ((renamed_indented depth hopen).append htokens ?_).append hclose
      (.inr (headFree_indented _ _))
    exact .inr (headFree_flatMap fun t _ => headFree_indented _ t)

theorem Row.renamed_ofAttribute (hlen : Agree g g' len len') {a a' : Attribute}
    (h : Attribute.Renamed g g' a a') :
    Row.Renamed g g' (ofAttribute len lineWidth depth a) (ofAttribute len' lineWidth depth a') := by
  have htext := h.text
  cases h with
  | name hn | bare hn hv => exact .whole htext
  | quoted q hn hv =>
    rw [ofAttribute, ofAttribute, hlen _ _ htext, Markup.Element.isTokenList_eq_of_renamed hn]
    split
    · exact .tokens q hn hv.words
    · exact .whole htext

theorem renamed_inline (hname : Renamed g g' name name') (hs : Renamed g g' s s')
    {closing : List Char} (hc : Placeholder.Free closing) :
    Renamed g g' ('<' :: name ++ ' ' :: s ++ closing) ('<' :: name' ++ ' ' :: s' ++ closing) := by
  refine Renamed.append (.append (.cons (by decide) hname) (.cons (by decide) hs) ?_)
    (.of_free hc) (.inr hc.headFree)
  exact .inr (headFree_cons (by decide) _)

theorem renamed_of (hlen : Agree g g' len len') (hname : Renamed g g' name name')
    (hattrs : Renamed g g' attrs attrs') {closing : List Char} (hc : Placeholder.Free closing) :
    AttributeLayout.Renamed g g'
      (AttributeLayout.of len lineWidth depth column name attrs closing)
      (AttributeLayout.of len' lineWidth depth column name' attrs' closing) := by
  have hplain := hattrs.normalize
  rw [AttributeLayout.of, AttributeLayout.of, hattrs.like.allBlank]
  split
  · exact .none
  · dsimp only
    rw [hlen _ _ (renamed_inline hname hplain hc)]
    split
    · exact .inline hplain
    · refine .rows ?_
      rw [List.forall₂_map_left_iff, List.forall₂_map_right_iff]
      exact (Attribute.renamed_all hplain).imp fun a a' ha => Row.renamed_ofAttribute hlen ha

theorem AttributeLayout.Renamed.text {l l' : AttributeLayout}
    (h : AttributeLayout.Renamed g g' l l') (depth : Nat) :
    Placeholder.Renamed g g' (l.text depth) (l'.text depth) := by
  cases h with
  | none => exact .nil
  | inline ht => exact .cons (by decide) ht
  | rows hrs =>
    exact (renamed_flatMap (fun _ _ hr => hr.text _) (Row.headFree_text _) hrs).append
      (renamed_indented depth .nil) (.inr (headFree_indented _ _))

theorem AttributeLayout.headFree_text (l : AttributeLayout) (depth : Nat) :
    HeadFree (l.text depth) := by
  cases l with
  | none => simp [AttributeLayout.text, HeadFree]
  | inline t => exact headFree_cons (by decide) _
  | rows rs =>
    exact (headFree_flatMap fun r _ => r.headFree_text _).append (headFree_indented _ _)

theorem AttributeLayout.Renamed.isBroken {l l' : AttributeLayout}
    (h : AttributeLayout.Renamed g g' l l') : l.isBroken = l'.isBroken := by
  cases h <;> rfl

section Wrap

theorem renamed_fillFrom (hlen : Agree g g' len len') {ws ws' line line' : List (List Char)}
    (hws : List.Forall₂ (Renamed g g') ws ws') (hline : List.Forall₂ (Renamed g g') line line')
    (width offset column : Int) :
    List.Forall₂ (Renamed g g') (fillFrom len width offset line column ws)
      (fillFrom len' width offset line' column ws') := by
  have hempty {us us' : List (List Char)} (h : List.Forall₂ (Renamed g g') us us') :
      us.isEmpty = us'.isEmpty := by
    cases h <;> rfl
  have hjoined {us us' : List (List Char)} (h : List.Forall₂ (Renamed g g') us us') :
      Renamed g g' (joinWords us.reverse) (joinWords us'.reverse) :=
    .joinWords (List.rel_reverse h)
  induction hws generalizing line line' column with
  | nil =>
    rw [fillFrom, fillFrom, hempty hline]
    split
    · exact .nil
    · exact .cons (hjoined hline) .nil
  | cons hw _ ih =>
    rw [fillFrom, fillFrom, hempty hline, hlen _ _ hw]
    split
    · exact ih (.cons hw .nil) _
    · split
      · exact ih (.cons hw hline) _
      · exact .cons (hjoined hline) (ih (.cons hw .nil) _)

theorem renamed_wrap (hlen : Agree g g' len len') (h : Renamed g g' s s')
    (width initial offset : Int) :
    List.Forall₂ (Renamed g g') (wrap len s width initial offset)
      (wrap len' s' width initial offset) :=
  renamed_fillFrom hlen h.words .nil _ _ _

/-- The lines of a wrapped text hold words, with no white space around them. -/
theorem solid_lines (len : Measure) (s : List Char) (width initial offset : Int) :
    ∀ l ∈ wrap len s width initial offset,
      Text.trim l = l ∧ l ≠ [] ∧ Text.startsBlank l = false := by
  obtain ⟨groups, hlines, hwords, hne, -⟩ := wrap_groups len s width initial offset
  intro l hl
  rw [hlines] at hl
  obtain ⟨ws, hws, rfl⟩ := List.mem_map.1 hl
  have hall : ∀ w ∈ ws, Text.Word w := fun w hw =>
    Text.word_of_mem_words (hwords ▸ List.mem_flatten_of_mem hws hw)
  refine ⟨trim_joinWords hall, ?_⟩
  cases ws with
  | nil => exact absurd rfl (hne _ hws)
  | cons w ws =>
    have hw := hall w List.mem_cons_self
    refine ⟨?_, startsBlank_joinWords hw⟩
    cases ws with
    | nil => exact hw.ne_nil
    | cons v vs => simp [Text.joinWords_cons_cons]

end Wrap

end ErbLayout.Layout
