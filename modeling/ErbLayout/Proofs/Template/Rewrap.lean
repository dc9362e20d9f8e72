import ErbLayout.Proofs.Layout.Laid
import ErbLayout.Proofs.Layout.Margin
import ErbLayout.Proofs.Template.Output
import ErbLayout.Proofs.Template.Steps
/-!
An open tag that is laid out and read again. It has the attributes it had, with their white space
single-spaced; and laid out once more it stands as if it had never been laid out, unless tokens were
split that stood right at their quotes. At the place where it stood it is laid out as before: only
the values that were split have become wider, and they were too wide already.
-/

namespace ErbLayout.Markup

/-- What an attribute may become: the white space in a quoted value is single-spaced, and in a list
of tokens it may be any. -/
inductive Attribute.Kept : Attribute → Attribute → Prop
  | name (n : List Char) : Kept (.name n) (.name n)
  | bare (n v : List Char) : Kept (.bare n v) (.bare n v)
  | quoted (q : Quote) {n : List Char} (v : List Char) : Element.isTokenList n = false →
    Kept (.quoted n q v) (.quoted n q (Text.collapse v))
  | tokens (q : Quote) {n v v' : List Char} : Element.isTokenList n = true →
    Text.words v' = Text.words v → Kept (.quoted n q v) (.quoted n q v')

theorem Attribute.kept_collapsed (a : Attribute) : a.Kept a.collapsed := by
  cases a with
  | name n => exact .name n
  | bare n v => exact .bare n v
  | quoted n q v =>
    cases h : Element.isTokenList n with
    | false => exact .quoted q v h
    | true => exact .tokens q h (Text.words_collapse v)

theorem Attribute.collapsed_collapsed (a : Attribute) : a.collapsed.collapsed = a.collapsed := by
  cases a with
  | name n => rfl
  | bare n v => rfl
  | quoted n q v => exact congrArg (quoted n q) (Text.collapse_collapse v)

/-- White space stands at both ends of a quoted value. -/
def Attribute.Padded : Attribute → Prop
  | .quoted _ _ v => Text.Padded v
  | _ => False

end ErbLayout.Markup

namespace ErbLayout.Layout.AttributeLayout

open Markup
open Text (Padded allBlank words)

variable {len : Measure} {lineWidth : Int} {depth : Nat} {layout : AttributeLayout}

/-- The layout puts the tokens of an attribute on lines of their own. -/
def Splits (len : Measure) (lineWidth : Int) (depth : Nat) (layout : AttributeLayout)
    (a : Attribute) : Prop :=
  layout.isBroken = true ∧
    ∃ n q ts, Row.ofAttribute len lineWidth (depth + 1) a.collapsed = .tokens n q ts

/-- The layout keeps the single-spaced form of an attribute, or it splits a list of tokens. -/
theorem held_cases (len : Measure) (lineWidth : Int) (depth : Nat) (layout : AttributeLayout)
    (a : Attribute) :
    (layout.held len lineWidth depth a.collapsed = a.collapsed ∧
        ¬ layout.Splits len lineWidth depth a) ∨
      ∃ n q v, a = .quoted n q v ∧ Element.isTokenList n = true ∧
        layout.Splits len lineWidth depth a ∧
        layout.held len lineWidth depth a.collapsed =
          .quoted n q (tokenLines (depth + 1) (words v)) := by
  cases hbroken : layout.isBroken with
  | false => exact .inl ⟨by simp [held, hbroken], fun h => by simp [h.1] at hbroken⟩
  | true =>
    rcases Row.ofAttribute_cases len lineWidth (depth + 1) a.collapsed with hr | ⟨n, q, v, ha, hn, hr⟩
    · refine .inl ⟨by simp [held, hbroken, hr, Row.held], ?_⟩
      rintro ⟨-, n, q, ts, hts⟩
      simp [hr] at hts
    · cases a with
      | name m => simp [Attribute.collapsed] at ha
      | bare m w => simp [Attribute.collapsed] at ha
      | quoted m q' w =>
        have hsplits : layout.Splits len lineWidth depth (.quoted m q' w) :=
          ⟨hbroken, n, q, words v, hr⟩
        simp only [Attribute.collapsed, Attribute.quoted.injEq] at ha
        obtain ⟨rfl, rfl, rfl⟩ := ha
        exact .inr ⟨m, q', w, rfl, hn, hsplits, by simp [held, hbroken, hr, Row.held]⟩

theorem kept_held (len : Measure) (lineWidth : Int) (depth : Nat) (layout : AttributeLayout)
    (a : Attribute) : a.Kept (layout.held len lineWidth depth a.collapsed) := by
  rcases held_cases len lineWidth depth layout a with ⟨h, -⟩ | ⟨n, q, v, rfl, hn, -, h⟩
  · rw [h]
    exact a.kept_collapsed
  · rw [h]
    exact .tokens q hn (words_tokenLines fun t ht => Text.word_of_mem_words ht)

/-- Single-spaced, what the layout made of an attribute is the attribute again, unless the layout put
white space at the ends of its value that was not there. -/
theorem collapsed_held_iff (a : Attribute) :
    (layout.held len lineWidth depth a.collapsed).collapsed = a.collapsed ↔
      (layout.Splits len lineWidth depth a → a.Padded) := by
  rcases held_cases len lineWidth depth layout a with ⟨h, hsplits⟩ | ⟨n, q, v, rfl, -, hsplits, h⟩
  · rw [h, Attribute.collapsed_collapsed]
    exact ⟨fun _ hs => absurd hs hsplits, fun _ => rfl⟩
  · have hwords : words (tokenLines (depth + 1) (words v)) = words v :=
      words_tokenLines fun t ht => Text.word_of_mem_words ht
    rw [h]
    constructor
    · intro he _
      simp only [Attribute.collapsed, Attribute.quoted.injEq, true_and] at he
      exact Text.padded_collapse.1 (he ▸ Text.padded_collapse.2 padded_tokenLines)
    · intro hpadded
      have hv : Padded v := hpadded hsplits
      exact congrArg (Attribute.quoted n q) (padded_tokenLines.collapse_eq hv hwords)

theorem of_inline {attrs : List Char} (h : allBlank attrs = false) {lineWidth : Int}
    {column : Nat} {name closing : List Char}
    (hw : column + len ('<' :: name ++ ' ' :: Text.normalize attrs ++ closing) ≤ lineWidth)
    (depth : Nat) :
    of len lineWidth depth column name attrs closing = .inline (Text.normalize attrs) := by
  rw [of, h, if_neg (by simp)]
  exact if_pos hw

end ErbLayout.Layout.AttributeLayout

namespace ErbLayout.Template

open Layout Markup
open Markup.Token (Clear Spaced spacedText)
open Text (Padded allBlank words)
open Job (inlineClosing openText)

theorem openText_spaced {depth : Nat} {layout : AttributeLayout}
    {bs : List (List Char × Attribute)} {gap : List Char} (h : layout.text depth = spacedText bs ++ gap)
    (hgap : ∀ c ∈ gap, isPlainBlank c = true) (name : List Char) (closing : Closing) :
    ∃ gap', (∀ c ∈ gap', isPlainBlank c = true) ∧
      openText depth name layout closing = '<' :: name ++ spacedText bs ++ gap' ++ closing.text := by
  rw [openText, h]
  split
  · exact ⟨gap, hgap, by simp⟩
  · cases closing with
    | plain => exact ⟨gap, hgap, by simp [inlineClosing, Closing.text]⟩
    | slash =>
      exact ⟨gap ++ [' '], List.forall_mem_append.2 ⟨hgap, List.forall_mem_singleton.2 (by decide)⟩,
        by simp [inlineClosing, Closing.text]⟩

/-- An open tag that is laid out is read with the attributes that the layout made of its own. -/
theorem exists_reread {s text name attrs : List Char} {closing : Closing}
    (hread : Token.readAny s = some (.opening text name attrs closing))
    (hs : ∀ a ∈ Attribute.all attrs, a.Solid) (len : Measure) (lineWidth : Int)
    (depth column : Nat) :
    let layout := AttributeLayout.of len lineWidth depth column name attrs (inlineClosing closing)
    let tag := openText depth name layout closing
    ∃ as bs, attrs = spacedText as ∧ Clear as ∧ Clear bs ∧
      bs.map Prod.snd = as.map (fun p => layout.held len lineWidth depth p.2.collapsed) ∧
      ∀ rest, Token.readAny (tag ++ rest) = some (.opening tag name (spacedText bs) closing) := by
  intro layout tag
  obtain ⟨name', as, gap, closing', he, hne, hname, has, -, -⟩ :=
    Token.readOpening_eq_some (Token.readAny_opening hread)
  simp only [Token.opening.injEq] at he
  obtain ⟨-, rfl, rfl, rfl⟩ := he
  have hclear := Token.clear_of_all has hs
  obtain ⟨bs, gap', htext, hbs, hgap', hheld⟩ :=
    AttributeLayout.exists_spaced len lineWidth depth column hclear name (inlineClosing closing)
  obtain ⟨gap'', hgap'', htag⟩ := openText_spaced htext hgap' name closing
  refine ⟨as, bs, rfl, hclear, hbs, hheld, fun rest => ?_⟩
  have hopen : tag = '<' :: name ++ spacedText bs ++ gap'' ++ closing.text := htag
  rw [hopen]
  exact Token.readAny_clear hne hname hbs hgap'' closing rest

/-- The layout of an open tag keeps its attributes, in order and with their quotes, and nothing that
it opens is left open. -/
theorem layout_keeps_attributes (len : Measure) (lineWidth : Int) (nesting : Nesting) (column : Nat)
    {s text name attrs : List Char} {closing : Closing}
    (hread : Token.readAny s = some (.opening text name attrs closing))
    (hs : ∀ a ∈ Attribute.all attrs, a.Solid) :
    let layout := AttributeLayout.of len lineWidth nesting.depth column name attrs
      (inlineClosing closing)
    let tag := openText nesting.depth name layout closing
    layout.write nesting = (layout.text nesting.depth, nesting) ∧
      ∃ attrs', (∀ rest, Token.readAny (tag ++ rest) = some (.opening tag name attrs' closing)) ∧
        List.Forall₂ Attribute.Kept (Attribute.all attrs) (Attribute.all attrs') := by
  intro layout tag
  obtain ⟨as, bs, rfl, has, hbs, hheld, hreread⟩ :=
    exists_reread hread hs len lineWidth nesting.depth column
  refine ⟨layout.write_eq nesting, spacedText bs, hreread, ?_⟩
  rw [Token.all_spacedText has, Token.all_spacedText hbs, hheld, List.forall₂_map_left_iff,
    List.forall₂_map_right_iff]
  exact List.forall₂_same.2 fun p _ => AttributeLayout.kept_held len lineWidth nesting.depth layout p.2

-- The value of a list is split, one of the others is single-spaced, and slashes stay in names.
theorem layout_keeps_attributes_split :
    let attrs := " class=\"b  c\"\n title='\td \"e\"' id=f/g checked".toList
    let s := '<' :: 'p' :: attrs ++ [' ', '/', '>', 'h']
    let nesting : Nesting := [.element ['u', 'l'] "<ul>".toList]
    let layout := AttributeLayout.of List.length 14 nesting.depth 2 ['p'] attrs (inlineClosing .slash)
    let tag := "<p\n    class=\"\n      b\n      c\n    \"\n    title=' d \"e\"'\n".toList ++
      "    id=f/g\n    checked\n  />".toList
    Token.readAny s = some (.opening ('<' :: 'p' :: attrs ++ [' ', '/', '>']) ['p'] attrs .slash) ∧
      (∀ a ∈ Attribute.all attrs, a.Solid) ∧ openText nesting.depth ['p'] layout .slash = tag ∧
      layout.write nesting = (layout.text nesting.depth, nesting) ∧
      ∃ attrs', (∀ rest, Token.readAny (tag ++ rest) = some (.opening tag ['p'] attrs' .slash)) ∧
        List.Forall₂ Attribute.Kept (Attribute.all attrs) (Attribute.all attrs') := by
  intro attrs s nesting layout tag
  have htag : openText nesting.depth ['p'] layout .slash = tag := by decide +kernel
  have hread : Token.readAny s =
      some (.opening ('<' :: 'p' :: attrs ++ [' ', '/', '>']) ['p'] attrs .slash) := by
    decide +kernel
  have hs : ∀ a ∈ Attribute.all attrs, a.Solid := by decide +kernel
  have hkeeps := layout_keeps_attributes List.length 14 nesting 2 hread hs
  dsimp only at hkeeps
  rw [htag] at hkeeps
  exact ⟨hread, hs, htag, hkeeps⟩

/-- White space within a value is single-spaced, also where the value is no list of tokens. -/
theorem layout_collapses_value :
    let attrs := " title=\"a  b\"".toList
    let attrs' := " title=\"a b\"".toList
    let tag := openText 0 ['p'] (AttributeLayout.of List.length 80 0 0 ['p'] attrs ['>']) .plain
    Token.readAny ('<' :: 'p' :: attrs ++ ['>']) =
        some (.opening ('<' :: 'p' :: attrs ++ ['>']) ['p'] attrs .plain) ∧
      Token.readAny tag = some (.opening tag ['p'] attrs' .plain) ∧
      Attribute.all attrs = [.quoted "title".toList .double "a  b".toList] ∧
      Attribute.all attrs' = [.quoted "title".toList .double "a b".toList] := by
  decide +kernel

section Rewrap

variable {as bs : List (List Char × Attribute)} {len : Measure} {depth column : Nat}

theorem normalize_eq_iff (has : Clear as) (hbs : Clear bs) :
    Text.normalize (spacedText bs) = Text.normalize (spacedText as) ↔
      bs.map (fun p => p.2.collapsed) = as.map fun p => p.2.collapsed := by
  have hsolid {cs : List (List Char × Attribute)} (h : Clear cs) : ∀ p ∈ cs, p.2.Solid :=
    fun p hp => (h p hp).2.2.2
  constructor
  · intro h
    rw [← Token.all_normalize has.spaced (hsolid has), ← Token.all_normalize hbs.spaced (hsolid hbs),
      h]
  · intro h
    rw [Token.normalize_spacedText has.spaced (hsolid has),
      Token.normalize_spacedText hbs.spaced (hsolid hbs), h]

/-- Tags that stand alike at every width stand alike on one line. -/
theorem normalize_eq_of_layouts {attrs attrs' name : List Char} {closing : Closing}
    (h : allBlank attrs = false) (h' : allBlank attrs' = false)
    (hsame : ∀ w, openText depth name
        (AttributeLayout.of len w depth column name attrs' (inlineClosing closing)) closing =
      openText depth name
        (AttributeLayout.of len w depth column name attrs (inlineClosing closing)) closing) :
    Text.normalize attrs' = Text.normalize attrs := by
  have hline := hsame (max
    (column + len ('<' :: name ++ ' ' :: Text.normalize attrs' ++ inlineClosing closing) : Int)
    (column + len ('<' :: name ++ ' ' :: Text.normalize attrs ++ inlineClosing closing)))
  rw [AttributeLayout.of_inline h' (le_max_left _ _), AttributeLayout.of_inline h (le_max_right _ _)]
    at hline
  simpa [openText, AttributeLayout.text, AttributeLayout.isBroken] using hline

/-- An open tag that was laid out at one width and is read again stands at every other width as if it
had not been laid out before, if and only if the tokens that were split had white space at both ends
of their value. -/
theorem rewrap_restores_iff (len : Measure) (depth column : Nat) (w₁ : Int)
    {s text name attrs : List Char} {closing : Closing}
    (hread : Token.readAny s = some (.opening text name attrs closing))
    (hs : ∀ a ∈ Attribute.all attrs, a.Solid) :
    let layout (w : Int) (attrs : List Char) :=
      AttributeLayout.of len w depth column name attrs (inlineClosing closing)
    let tag := openText depth name (layout w₁ attrs) closing
    ∃ attrs', (∀ rest, Token.readAny (tag ++ rest) = some (.opening tag name attrs' closing)) ∧
      ((∀ w₂, openText depth name (layout w₂ attrs') closing =
          openText depth name (layout w₂ attrs) closing) ↔
        ∀ a ∈ Attribute.all attrs, (layout w₁ attrs).Splits len w₁ depth a → a.Padded) := by
  intro layout tag
  obtain ⟨as, bs, rfl, has, hbs, hheld, hreread⟩ := exists_reread hread hs len w₁ depth column
  refine ⟨spacedText bs, hreread, ?_⟩
  have hcollapsed : bs.map (fun p => p.2.collapsed) =
      as.map fun p => ((layout w₁ (spacedText as)).held len w₁ depth p.2.collapsed).collapsed := by
    have hmap := congrArg (List.map Attribute.collapsed) hheld
    rwa [List.map_map, List.map_map] at hmap
  have hsame : Text.normalize (spacedText bs) = Text.normalize (spacedText as) ↔
      ∀ a ∈ Attribute.all (spacedText as),
        (layout w₁ (spacedText as)).Splits len w₁ depth a → a.Padded := by
    rw [normalize_eq_iff has hbs, hcollapsed, List.map_inj_left, Token.all_spacedText has,
      List.forall_mem_map]
    exact forall₂_congr fun p _ => AttributeLayout.collapsed_held_iff p.2
  rw [← hsame]
  constructor
  · intro h
    by_cases hnil : as = []
    · have hbs : bs = [] := by simpa [hnil] using hheld
      rw [hnil, hbs]
    · have hbs' : bs ≠ [] := by
        rintro rfl
        exact hnil (by simpa using hheld.symm)
      exact normalize_eq_of_layouts (AttributeLayout.allBlank_spacedText has hnil)
        (AttributeLayout.allBlank_spacedText hbs hbs') h
  · intro h w₂
    have hwords : words (spacedText bs) = words (spacedText as) := by
      rw [← Text.words_normalize, h, Text.words_normalize]
    exact congrArg (openText depth name · closing) (AttributeLayout.of_congr hwords len w₂ depth
      column name (inlineClosing closing))

-- The one value that is split has white space at both ends; the other need not.
theorem rewrap_restores_iff_padded :
    let attrs := " class=\" b\tc \" title=\"d\"".toList
    let s := '<' :: 'p' :: attrs ++ ['>']
    let layout (w : Int) (attrs : List Char) :=
      AttributeLayout.of List.length w 0 0 ['p'] attrs ['>']
    let tag := "<p\n  class=\"\n    b\n    c\n  \"\n  title=\"d\"\n>".toList
    Token.readAny s = some (.opening s ['p'] attrs .plain) ∧
      (∀ a ∈ Attribute.all attrs, a.Solid) ∧ openText 0 ['p'] (layout 12 attrs) .plain = tag ∧
      ∃ attrs', (∀ rest, Token.readAny (tag ++ rest) = some (.opening tag ['p'] attrs' .plain)) ∧
        ∀ w, openText 0 ['p'] (layout w attrs') .plain = openText 0 ['p'] (layout w attrs) .plain := by
  intro attrs s layout tag
  have hread : Token.readAny s = some (.opening s ['p'] attrs .plain) := by decide +kernel
  have hs : ∀ a ∈ Attribute.all attrs, a.Solid := by decide +kernel
  have htag : openText 0 ['p'] (layout 12 attrs) .plain = tag := by decide +kernel
  have hall : Attribute.all attrs =
      [.quoted "class".toList .double " b\tc ".toList, .quoted "title".toList .double ['d']] := by
    decide +kernel
  obtain ⟨attrs', hreread, hrestores⟩ := rewrap_restores_iff List.length 0 0 12 hread hs
  refine ⟨hread, hs, htag, attrs', fun rest => ?_, hrestores.2 ?_⟩
  · rw [← htag]
    exact hreread rest
  · rw [hall, List.forall_mem_cons, List.forall_mem_singleton]
    refine ⟨fun _ => ⟨by decide, by decide⟩, ?_⟩
    rintro ⟨-, n, q, ts, hts⟩
    exact absurd hts (by simp [Attribute.collapsed, Row.ofAttribute, Element.isTokenList,
      Element.tokenListNames])

/-- Tokens that stood right at their quotes are laid out apart from them for good. -/
theorem rewrap_pads_tokens :
    let attrs := " class=\"alpha beta\"".toList
    let attrs' := "\n  class=\"\n    alpha\n    beta\n  \"".toList
    let layout (w : Int) (attrs : List Char) :=
      AttributeLayout.of List.length w 0 0 ['p'] attrs ['>']
    let tag := openText 0 ['p'] (layout 12 attrs) .plain
    Token.readAny ('<' :: 'p' :: attrs ++ ['>']) =
        some (.opening ('<' :: 'p' :: attrs ++ ['>']) ['p'] attrs .plain) ∧
      Token.readAny tag = some (.opening tag ['p'] attrs' .plain) ∧
      (layout 80 attrs).text 0 = " class=\"alpha beta\"".toList ∧
      (layout 80 attrs').text 0 = " class=\" alpha beta \"".toList := by
  decide +kernel

end Rewrap

end ErbLayout.Template

namespace ErbLayout.Text

theorem collapse_concat_space (s : List Char) :
    ∃ g, collapse (s ++ [' ']) = collapse s ++ g ∧ (g = [] ∨ g = [' ']) := by
  induction s with
  | nil => exact ⟨[' '], rfl, .inr rfl⟩
  | cons c s ih =>
    obtain ⟨g, hg, hgap⟩ := ih
    cases hc : isBlank c with
    | false =>
      refine ⟨g, ?_, hgap⟩
      rw [List.cons_append, collapse_cons_of_solid hc, collapse_cons_of_solid hc, hg]
      rfl
    | true =>
      rw [List.cons_append, collapse_cons_of_blank hc, collapse_cons_of_blank hc]
      by_cases hs : s = []
      · subst hs
        exact ⟨[], rfl, .inl rfl⟩
      · rw [startsBlank_append hs, hg]
        refine ⟨g, ?_, hgap⟩
        split <;> rfl

end ErbLayout.Text

namespace ErbLayout.Layout

open Markup
open Markup.Token (Clear all_normalize normalize_spacedText spacedText)
open Text (Padded allBlank collapse joinWords words)

theorem Row.lt_of_tokens {len : Measure} {lineWidth : Int} {depth : Nat} {a : Attribute}
    {n : List Char} {q : Quote} {ts : List (List Char)}
    (h : Row.ofAttribute len lineWidth depth a = .tokens n q ts) :
    lineWidth < 2 * depth + len a.text := by
  unfold Row.ofAttribute at h
  split at h
  · split at h
    · rename_i hwide
      rw [Bool.and_eq_true, decide_eq_true_eq] at hwide
      exact hwide.1
    · simp at h
  · simp at h

/-- A measure by which every character that no name holds is one column wide. -/
structure Columnar (len : Measure) : Prop where
  nil : len [] = 0
  split : ∀ a c b, Placeholder.isNameChar c = false → len (a ++ c :: b) = len a + 1 + len b

variable {len : Measure} (hlen : Columnar len) {lineWidth : Int} {depth column : Nat}
include hlen

theorem Columnar.cons {c : Char} (hc : Placeholder.isNameChar c = false) (s : List Char) :
    len (c :: s) = 1 + len s := by
  have hsplit := hlen.split [] c s hc
  rw [List.nil_append, hlen.nil] at hsplit
  omega

/-- A value takes no more room than one with the same words between white space. -/
theorem Columnar.collapse_le {s t : List Char} (ht : Padded t) (h : words t = words s) :
    len (collapse s) ≤ len (collapse t) := by
  have hpadded : Padded (' ' :: (s ++ [' '])) :=
    ⟨rfl, by rw [← List.cons_append, Text.endsBlank_append (by simp)]; rfl⟩
  have hwords : words (' ' :: (s ++ [' '])) = words t := by
    rw [Text.words_cons_blank (by decide), Text.words_append_allBlank s (by decide), h]
  obtain ⟨g, hg, hgap⟩ := Text.collapse_concat_space s
  have hend : len (collapse s) ≤ len (collapse (s ++ [' '])) := by
    rw [hg]
    rcases hgap with rfl | rfl
    · simp
    · rw [hlen.split _ _ _ (by decide), hlen.nil]
      omega
  rw [ht.collapse_eq hpadded hwords.symm, Text.collapse_cons_of_blank (by decide)]
  split
  · exact hend
  · rw [hlen.cons (by decide)]
    omega

theorem Columnar.quoted (n : List Char) (q : Quote) (v : List Char) :
    len (Attribute.quoted n q v).text = len n + 3 + len v := by
  have hmark : Placeholder.isNameChar q.mark = false := by cases q <;> decide
  have htext : (Attribute.quoted n q v).text = n ++ '=' :: (q.mark :: (v ++ [q.mark])) := by
    simp [Attribute.text]
  rw [htext, hlen.split _ _ _ (by decide), hlen.cons hmark, hlen.split _ _ _ hmark, hlen.nil]
  omega

theorem Columnar.joinWords_le {ws vs : List (List Char)}
    (h : List.Forall₂ (fun w v => len w ≤ len v) ws vs) :
    len (joinWords ws) ≤ len (joinWords vs) := by
  induction h with
  | nil => exact Nat.le_refl _
  | @cons w v ws vs hw hrest ih =>
    cases hrest with
    | nil => exact hw
    | cons _ _ =>
      rw [Text.joinWords_cons_cons, Text.joinWords_cons_cons, hlen.split _ _ _ (by decide),
        hlen.split _ _ _ (by decide)]
      omega

theorem Columnar.le_joinWords {ws : List (List Char)} {w : List Char} (h : w ∈ ws) :
    len w ≤ len (joinWords ws) := by
  induction ws with
  | nil => simp at h
  | cons v ws ih =>
    cases ws with
    | nil =>
      obtain rfl := List.mem_singleton.1 h
      exact Nat.le_refl _
    | cons u us =>
      rw [Text.joinWords_cons_cons, hlen.split _ _ _ (by decide)]
      rcases List.mem_cons.1 h with rfl | h
      · omega
      · have := ih h
        omega

theorem Columnar.inline (name plain : List Char) {c : Char}
    (hc : Placeholder.isNameChar c = false) (closing : List Char) :
    len ('<' :: name ++ ' ' :: plain ++ c :: closing) = len name + len plain + len closing + 3 := by
  rw [List.append_assoc, List.cons_append, List.cons_append, hlen.cons (by decide),
    hlen.split _ _ _ (by decide), hlen.split _ _ _ hc]
  omega

namespace AttributeLayout

/-- What a layout makes of an attribute, single-spaced, is the attribute, or it is wider. -/
theorem collapsed_held_le (layout : AttributeLayout) (a : Attribute) :
    len a.collapsed.text ≤ len (layout.held len lineWidth depth a.collapsed).collapsed.text := by
  rcases held_cases len lineWidth depth layout a with ⟨h, -⟩ | ⟨n, q, v, rfl, -, -, h⟩
  · rw [h, Attribute.collapsed_collapsed]
  · rw [h]
    simp only [Attribute.collapsed]
    rw [hlen.quoted, hlen.quoted]
    have hwords : words (tokenLines (depth + 1) (words v)) = words v :=
      words_tokenLines fun t ht => Text.word_of_mem_words ht
    have hle := hlen.collapse_le padded_tokenLines hwords
    omega

/-- What a layout made of an attribute has the row that the attribute had. -/
theorem ofAttribute_held (layout : AttributeLayout) (a : Attribute) :
    Row.ofAttribute len lineWidth (depth + 1)
        (layout.held len lineWidth depth a.collapsed).collapsed =
      Row.ofAttribute len lineWidth (depth + 1) a.collapsed := by
  have hle : len a.collapsed.text ≤
      len (layout.held len lineWidth depth a.collapsed).collapsed.text :=
    collapsed_held_le hlen layout a
  rcases held_cases len lineWidth depth layout a with ⟨h, -⟩ | ⟨n, q, v, rfl, -, hsplits, h⟩
  · rw [h, Attribute.collapsed_collapsed]
  · obtain ⟨-, m, q', ts, hrow⟩ := hsplits
    rw [h] at hle ⊢
    simp only [Attribute.collapsed] at hle hrow ⊢
    unfold Row.ofAttribute at hrow ⊢
    dsimp only at hrow ⊢
    have hwide : (decide (2 * ((depth + 1 : Nat) : Int) +
        len (Attribute.quoted n q (collapse v)).text > lineWidth) && Element.isTokenList n) =
          true := by
      by_contra hno
      rw [if_neg hno] at hrow
      simp at hrow
    have hwider := hwide
    rw [Bool.and_eq_true, decide_eq_true_eq] at hwider
    rw [if_pos hwide, if_pos]
    · rw [Text.words_collapse, Text.words_collapse,
        words_tokenLines fun t ht => Text.word_of_mem_words ht]
    · rw [Bool.and_eq_true, decide_eq_true_eq]
      exact ⟨by omega, hwider.2⟩

/-- Attributes that were laid out are laid out as they were: on one line they are the same, unless
some were split, and then the tag was too wide for every line at its depth. -/
theorem of_held {as bs : List (List Char × Attribute)} (has : Clear as) (hbs : Clear bs)
    {name closing : List Char} {c : Char} (hc : Placeholder.isNameChar c = false) :
    let closing := c :: closing
    let layout := of len lineWidth depth column name (spacedText as) closing
    let inline (as : List (List Char × Attribute)) : List Char :=
      '<' :: name ++ ' ' :: Text.normalize (spacedText as) ++ closing
    bs.map Prod.snd = as.map (fun p => layout.held len lineWidth depth p.2.collapsed) →
      of len lineWidth depth column name (spacedText bs) closing = layout ∧
        (words (spacedText bs) = words (spacedText as) ∨
          (allBlank (spacedText as) = false ∧ lineWidth < 2 * depth + len (inline as)) ∧
          allBlank (spacedText bs) = false ∧ lineWidth < 2 * depth + len (inline bs)) := by
  intro closing layout inline hheld
  have hcollapsed : bs.map (fun p => p.2.collapsed) =
      as.map fun p => (layout.held len lineWidth depth p.2.collapsed).collapsed := by
    have hmap := congrArg (List.map Attribute.collapsed) hheld
    simpa only [List.map_map, Function.comp_def] using hmap
  by_cases hsplit : ∃ p ∈ as, layout.Splits len lineWidth depth p.2
  · obtain ⟨p, hp, hbroken, n, q, ts, hrow⟩ := hsplit
    have hne : as ≠ [] := List.ne_nil_of_mem hp
    have hne' : bs ≠ [] := by
      rintro rfl
      exact hne (List.map_eq_nil_iff.1 hheld.symm)
    have hplain : Text.normalize (spacedText as) =
        joinWords ((as.map fun p => p.2.collapsed).map Attribute.text) :=
      normalize_spacedText has.spaced fun p hp => (has p hp).2.2.2
    have hplain' : Text.normalize (spacedText bs) = joinWords ((as.map fun p =>
        (layout.held len lineWidth depth p.2.collapsed).collapsed).map Attribute.text) :=
      hcollapsed ▸ normalize_spacedText hbs.spaced fun p hp => (hbs p hp).2.2.2
    have hle : len (Text.normalize (spacedText as)) ≤ len (Text.normalize (spacedText bs)) := by
      rw [hplain, hplain']
      refine hlen.joinWords_le ?_
      simp only [List.map_map, List.forall₂_map_left_iff, List.forall₂_map_right_iff,
        List.forall₂_same]
      exact fun p _ => collapsed_held_le hlen layout p.2
    have hinline (as : List (List Char × Attribute)) : len (inline as) =
        len name + len (Text.normalize (spacedText as)) + len _ + 3 := hlen.inline name _ hc _
    have hwide : lineWidth < 2 * ((depth + 1 : Nat) : Int) + len p.2.collapsed.text :=
      Row.lt_of_tokens hrow
    have hpart : len p.2.collapsed.text ≤ len (Text.normalize (spacedText as)) := by
      rw [hplain, List.map_map]
      exact hlen.le_joinWords (List.mem_map.2 ⟨p, hp, rfl⟩)
    have hover : ¬ (column : Int) + len (inline as) ≤ lineWidth := by
      intro hfits
      have hlayout : layout = .inline _ := of_inline (allBlank_spacedText has hne) hfits depth
      rw [hlayout] at hbroken
      simp [isBroken] at hbroken
    have hover' : ¬ (column : Int) + len (inline bs) ≤ lineWidth := by
      rw [hinline] at hover ⊢
      omega
    have hrows (as : List (List Char × Attribute)) (has : Clear as) (hne : as ≠ [])
        (hover : ¬ (column : Int) + len (inline as) ≤ lineWidth) :
        of len lineWidth depth column name (spacedText as) closing =
          .rows ((as.map fun p => p.2.collapsed).map
            (Row.ofAttribute len lineWidth (depth + 1))) := by
      rw [of, allBlank_spacedText has hne, if_neg (by simp), if_neg hover,
        all_normalize has.spaced fun p hp => (has p hp).2.2.2]
    refine ⟨?_, .inr ⟨⟨allBlank_spacedText has hne, ?_⟩, allBlank_spacedText hbs hne', ?_⟩⟩
    · rw [hrows bs hbs hne' hover', hcollapsed]
      refine Eq.trans ?_ (hrows as has hne hover).symm
      rw [List.map_map, List.map_map]
      exact congrArg _ (List.map_congr_left fun p _ => ofAttribute_held hlen layout p.2)
    · rw [hinline]
      omega
    · rw [hinline]
      omega
  · have hkept : bs.map (fun p => p.2.collapsed) = as.map fun p => p.2.collapsed := by
      rw [hcollapsed]
      refine List.map_congr_left fun p hp => ?_
      rw [AttributeLayout.collapsed_held_iff]
      exact fun hs => absurd ⟨p, hp, hs⟩ hsplit
    have hwords : words (spacedText bs) = words (spacedText as) := by
      rw [← Text.words_normalize, (Template.normalize_eq_iff has hbs).2 hkept, Text.words_normalize]
    exact ⟨of_congr hwords len lineWidth depth column name closing, .inl hwords⟩

end AttributeLayout

end ErbLayout.Layout

namespace ErbLayout.Template

open Layout Markup Placeholder
open Text (allBlank words)
open Job (inlineClosing openText)

theorem columnar_len (j : Job) : Columnar j.len where
  nil := by
    change (j.table.restore []).length = 0
    rw [Table.restore_nil]
    rfl
  split a c b hc := by
    change (j.table.restore (a ++ c :: b)).length =
      (j.table.restore a).length + 1 + (j.table.restore b).length
    rw [Table.restore_append_cons a hc b, List.length_append, List.length_cons]
    omega

theorem inlineClosing_cons (closing : Closing) :
    ∃ c u, inlineClosing closing = c :: u ∧ Placeholder.isNameChar c = false := by
  cases closing with
  | plain => exact ⟨'>', [], rfl, by decide⟩
  | slash => exact ⟨' ', ['/', '>'], rfl, by decide⟩

/-- Two readings of the attributes of an open tag that are laid out alike. -/
structure Job.Interchanges (j : Job) (depth column : Nat) (name attrs attrs' : List Char)
    (closing : Closing) : Prop where
  layout : AttributeLayout.of j.len j.width depth column name attrs' (inlineClosing closing) =
    AttributeLayout.of j.len j.width depth column name attrs (inlineClosing closing)
  width : ∀ r r' : Run, r.nesting.depth = depth → r'.nesting.depth = depth →
    j.inlineWidth r' name attrs' (inlineClosing closing) =
      j.inlineWidth r name attrs (inlineClosing closing)

/-- An open tag that was laid out is read again, and laid out at the same place as it was. -/
theorem Job.exists_interchange (j : Job) {s text name attrs : List Char} {closing : Closing}
    (hread : Token.readAny s = some (.opening text name attrs closing))
    (hs : ∀ a ∈ Attribute.all attrs, a.Solid) (depth column : Nat) :
    let tag := openText depth name (AttributeLayout.of j.len j.width depth column name attrs
      (inlineClosing closing)) closing
    ∃ attrs', (∀ rest, Token.readAny (tag ++ rest) = some (.opening tag name attrs' closing)) ∧
      j.Interchanges depth column name attrs attrs' closing := by
  intro tag
  obtain ⟨as, bs, rfl, has, hbs, hheld, hback⟩ := exists_reread hread hs j.len j.width depth column
  obtain ⟨c, u, hclosing, hc⟩ := inlineClosing_cons closing
  rw [hclosing] at hheld
  obtain ⟨hlayout, hwidth⟩ := AttributeLayout.of_held (columnar_len j) has hbs hc hheld
  refine ⟨_, hback, hclosing ▸ hlayout, fun r r' hr hr' => ?_⟩
  rw [← hclosing] at hwidth
  have hcode (r : Run) (hr : r.nesting.depth = depth) :
      j.codeWidth r = j.width - (2 * depth : Nat) := by rw [Job.codeWidth, hr]
  unfold Job.inlineWidth
  rw [hcode r hr, hcode r' hr']
  rcases hwidth with hwords | ⟨⟨hsome, hwide⟩, hsome', hwide'⟩
  · have hblank : allBlank (Token.spacedText bs) = allBlank (Token.spacedText as) := by
      rw [Bool.eq_iff_iff, ← Text.words_eq_nil_iff, ← Text.words_eq_nil_iff, hwords]
    rw [hblank, Text.normalize, Text.normalize, hwords]
  · dsimp only at hwide hwide' ⊢
    have hover : ((2 * depth : Nat) : Int) = 2 * depth := by omega
    simp only [hsome, hsome', hover, Bool.false_eq_true, if_false]
    rw [if_pos (Int.sub_left_lt_of_lt_add hwide'), if_pos (Int.sub_left_lt_of_lt_add hwide)]

end ErbLayout.Template
