import ErbLayout.Layout.Attributes
import ErbLayout.Proofs.Markup.Reread
/-!
The layout of attributes is attributes again, behind ASCII white space. Only the tokens of a value
that is split have been moved, onto lines of their own.
-/

namespace ErbLayout.Layout

open Markup (Attribute Element.isTokenList Quote isPlainBlank)
open Markup.Token (Clear spacedText)
open Text (Padded Word allBlank endsBlank startsBlank words)

/-- The lines of the tokens in a value that is split, with the one that its closing quote is on. -/
def tokenLines (depth : Nat) (ts : List (List Char)) : List Char :=
  ts.flatMap (indented (depth + 1)) ++ indented depth []

section Tokens

variable {depth : Nat} {ts : List (List Char)}

theorem indented_eq {t : List Char} (h : Text.trim t = t) (depth : Nat) :
    indented depth t = ('\n' :: Nesting.indentOf depth) ++ t := by
  rw [indented, h]

theorem trim_word {t : List Char} (h : Word t) : Text.trim t = t :=
  Text.trim_eq_self h.startsBlank h.endsBlank

theorem plain_lineBreak (depth : Nat) :
    ∀ c ∈ '\n' :: Nesting.indentOf depth, isPlainBlank c = true := by
  refine List.forall_mem_cons.2 ⟨by decide, fun c hc => ?_⟩
  rw [List.eq_of_mem_replicate hc]
  decide

theorem allBlank_lineBreak (depth : Nat) : allBlank ('\n' :: Nesting.indentOf depth) = true :=
  List.all_eq_true.2 fun c hc => Markup.Token.isBlank_of_isPlainBlank (plain_lineBreak depth c hc)

theorem indented_nil (depth : Nat) : indented depth [] = '\n' :: Nesting.indentOf depth := by
  rw [indented_eq rfl, List.append_nil]

theorem words_tokenLines (h : ∀ t ∈ ts, Word t) : words (tokenLines depth ts) = ts := by
  rw [tokenLines, indented_nil, Text.words_append_allBlank _ (allBlank_lineBreak depth)]
  induction ts with
  | nil => rfl
  | cons t ts ih =>
    obtain ⟨ht, hts⟩ := List.forall_mem_cons.1 h
    rw [List.flatMap_cons, indented_eq (trim_word ht), List.append_assoc,
      Text.words_of_first (allBlank_lineBreak _) ht, ih hts]
    cases ts with
    | nil => exact .inl rfl
    | cons u us => exact .inr rfl

theorem padded_tokenLines : Padded (tokenLines depth ts) := by
  constructor
  · cases ts <;> rfl
  · rw [tokenLines, indented_nil, Text.endsBlank_append (by simp)]
    exact Text.endsBlank_of_allBlank (allBlank_lineBreak depth) (by simp)

theorem mem_tokenLines (h : ∀ t ∈ ts, Word t) {c : Char} (hc : c ∈ tokenLines depth ts) :
    isBlank c = true ∨ ∃ t ∈ ts, c ∈ t := by
  have hbreak {d : Nat} (hc : c ∈ '\n' :: Nesting.indentOf d) : isBlank c = true :=
    Markup.Token.isBlank_of_isPlainBlank (plain_lineBreak d c hc)
  rw [tokenLines, indented_nil, List.mem_append, List.mem_flatMap] at hc
  rcases hc with ⟨t, ht, hc⟩ | hc
  · rw [indented_eq (trim_word (h t ht)), List.mem_append] at hc
    exact hc.elim (fun hc => .inl (hbreak hc)) fun hc => .inr ⟨t, ht, hc⟩
  · exact .inl (hbreak hc)

end Tokens

namespace Row

/-- The attribute in the row of `a`. -/
def held (depth : Nat) (a : Attribute) : Row → Attribute
  | .whole _ => a
  | .tokens n q ts => .quoted n q (tokenLines depth ts)

variable (len : Measure) (lineWidth : Int) (depth : Nat)

/-- A row holds its attribute whole, or it holds a list of tokens split. -/
theorem ofAttribute_cases (a : Attribute) :
    ofAttribute len lineWidth depth a = .whole a.text ∨
      ∃ n q v, a = .quoted n q v ∧ Element.isTokenList n = true ∧
        ofAttribute len lineWidth depth a = .tokens n q (words v) := by
  cases a with
  | name n => exact .inl rfl
  | bare n v => exact .inl rfl
  | quoted n q v =>
    rw [ofAttribute]
    split
    · rename_i h
      exact .inr ⟨n, q, v, rfl, (Bool.and_eq_true_iff.1 h).2, rfl⟩
    · exact .inl rfl

theorem trim_text {a : Attribute} (h : a.WellFormed) (hs : a.Solid) : Text.trim a.text = a.text := by
  refine Text.trim_eq_self ?_ ?_
  · simpa using Markup.Token.startsBlank_text h hs []
  · cases a with
    | name n => exact Word.endsBlank ⟨h.ne_nil, hs⟩
    | bare n v =>
      have hv : Word v := ⟨h.2.ne_nil, fun c hc => hs c (List.mem_append_right n hc)⟩
      rw [Attribute.text, ← List.singleton_append, ← List.append_assoc,
        Text.endsBlank_append hv.ne_nil, hv.endsBlank]
    | quoted n q v =>
      rw [Attribute.text, Text.endsBlank_append (by simp)]
      exact Attribute.not_isBlank_mark q

theorem trim_start {n : List Char} (h : Word n) (q : Quote) :
    Text.trim (n ++ ['=', q.mark]) = n ++ ['=', q.mark] := by
  refine Text.trim_eq_self ?_ ?_
  · rw [Text.startsBlank_append h.ne_nil, h.startsBlank]
  · rw [Text.endsBlank_append (by simp)]
    exact Attribute.not_isBlank_mark q

/-- A row is the attribute in it on a new line. -/
theorem text_ofAttribute {a : Attribute} (h : a.WellFormed) (hs : a.Solid) :
    let r := ofAttribute len lineWidth depth a
    r.text depth = ('\n' :: Nesting.indentOf depth) ++ (r.held depth a).text := by
  intro r
  rcases ofAttribute_cases len lineWidth depth a with hr | ⟨n, q, v, rfl, -, hr⟩
  · rw [show r = _ from hr, text, indented_eq (trim_text h hs)]
    rfl
  · have hn : Word n := ⟨h.1.ne_nil, hs⟩
    have hq : Text.trim [q.mark] = [q.mark] := by cases q <;> decide
    rw [show r = _ from hr, text, held, indented_eq (trim_start hn q), indented_eq hq,
      Attribute.text, tokenLines, indented_nil]
    simp

theorem held_wellFormed {a : Attribute} (h : a.WellFormed) (hs : a.Solid) :
    ((ofAttribute len lineWidth depth a).held depth a).WellFormed ∧
      ((ofAttribute len lineWidth depth a).held depth a).Solid := by
  rcases ofAttribute_cases len lineWidth depth a with hr | ⟨n, q, v, rfl, -, hr⟩
  · rw [hr]
    exact ⟨h, hs⟩
  · rw [hr]
    refine ⟨⟨h.1, fun hq => ?_⟩, hs⟩
    rcases mem_tokenLines (fun t ht => Text.word_of_mem_words ht) hq with hb | ⟨t, ht, hq⟩
    · rw [Attribute.not_isBlank_mark] at hb
      exact absurd hb (by simp)
    · exact h.2 ((Text.infix_of_mem_words ht).subset hq)

theorem rows_eq_spacedText {as : List Attribute} (h : ∀ a ∈ as, a.WellFormed ∧ a.Solid) :
    (as.map (ofAttribute len lineWidth depth)).flatMap (text depth) =
      spacedText (as.map fun a => ('\n' :: Nesting.indentOf depth,
        (ofAttribute len lineWidth depth a).held depth a)) := by
  rw [spacedText, List.flatMap_map, List.flatMap_map]
  exact List.flatMap_congr fun a ha =>
    text_ofAttribute len lineWidth depth (h a ha).1 (h a ha).2

end Row

namespace AttributeLayout

section

variable (len : Measure) (lineWidth : Int) (depth column : Nat)

/-- What the layout makes of an attribute. -/
def held (layout : AttributeLayout) (a : Attribute) : Attribute :=
  if layout.isBroken then
    (Row.ofAttribute len lineWidth (depth + 1) a).held (depth + 1) a
  else a

theorem allBlank_spacedText {as : List (List Char × Attribute)} (h : Clear as) (hne : as ≠ []) :
    allBlank (spacedText as) = false := by
  obtain ⟨p, as, rfl⟩ := List.exists_cons_of_ne_nil hne
  obtain ⟨-, -, hwell, hsolid⟩ := h p List.mem_cons_self
  rw [Bool.eq_false_iff]
  intro hblank
  rw [← Text.words_eq_nil_iff, Markup.Token.words_spacedText h.spaced, List.flatMap_cons,
    List.append_eq_nil_iff] at hblank
  exact Attribute.words_text_ne_nil hwell hsolid hblank.1

/-- The layout of attributes is attributes behind ASCII white space, which may stand behind them
too. -/
theorem exists_spaced {as : List (List Char × Attribute)} (h : Clear as) (name closing : List Char) :
    let layout := of len lineWidth depth column name (spacedText as) closing
    ∃ bs gap, layout.text depth = spacedText bs ++ gap ∧ Clear bs ∧
      (∀ c ∈ gap, isPlainBlank c = true) ∧
      bs.map Prod.snd = as.map fun p => layout.held len lineWidth depth p.2.collapsed := by
  intro layout
  have hsolid : ∀ p ∈ as, p.2.Solid := fun p hp => (h p hp).2.2.2
  have hwell := Markup.Token.collapsed_wellFormed h.spaced hsolid
  have hall := Markup.Token.all_normalize h.spaced hsolid
  by_cases hnil : as = []
  · subst hnil
    exact ⟨[], [], rfl, by simp [Clear], by simp, rfl⟩
  · have hlayout : layout = of len lineWidth depth column name (spacedText as) closing := rfl
    rw [of, allBlank_spacedText h hnil, if_neg (by simp)] at hlayout
    dsimp only at hlayout
    split at hlayout
    · refine ⟨(as.map fun p => p.2.collapsed).map fun a => ([' '], a), [], ?_,
        Markup.Token.clear_spaces hwell, by simp, ?_⟩
      · rw [hlayout, text, Markup.Token.spacedText_spaces (by simpa using hnil),
          Markup.Token.normalize_spacedText h.spaced hsolid, List.append_nil]
      · rw [hlayout, List.map_map, List.map_map]
        rfl
    · rw [hall] at hlayout
      refine ⟨(as.map fun p => p.2.collapsed).map fun a => ('\n' :: Nesting.indentOf (depth + 1),
        (Row.ofAttribute len lineWidth (depth + 1) a).held (depth + 1) a),
        '\n' :: Nesting.indentOf depth, ?_, ?_, plain_lineBreak depth, ?_⟩
      · rw [hlayout, text, indented_nil, Row.rows_eq_spacedText len lineWidth (depth + 1) hwell]
      · intro p hp
        obtain ⟨a, ha, rfl⟩ := List.mem_map.1 hp
        exact ⟨by simp, plain_lineBreak (depth + 1),
          Row.held_wellFormed len lineWidth (depth + 1) (hwell a ha).1 (hwell a ha).2⟩
      · rw [hlayout, List.map_map, List.map_map]
        rfl

end

/-- The layout looks at the words of the attributes only. -/
theorem of_congr {attrs attrs' : List Char} (h : words attrs = words attrs') (len : Measure)
    (lineWidth : Int) (depth column : Nat) (name closing : List Char) :
    of len lineWidth depth column name attrs closing =
      of len lineWidth depth column name attrs' closing := by
  have hblank : allBlank attrs = allBlank attrs' := by
    rw [Bool.eq_iff_iff, ← Text.words_eq_nil_iff, ← Text.words_eq_nil_iff, h]
  have hnormal : Text.normalize attrs = Text.normalize attrs' := congrArg Text.joinWords h
  rw [of, of, hblank, hnormal]

end AttributeLayout

end ErbLayout.Layout
