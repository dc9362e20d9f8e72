import ErbLayout.Proofs.Erb.Kind
import ErbLayout.Proofs.Layout.Renamed
import ErbLayout.Proofs.Markup.Attributes
import ErbLayout.Proofs.Placeholder.Plain
import ErbLayout.Proofs.Ruby.Fragment
import ErbLayout.Proofs.Template.Stretches
/-!
A layout has all that its template has, in order, and nothing else, white space apart. Only the name
in the close tag of a raw text is spelled as its open tag has it.
-/

namespace ErbLayout.Template

open Layout Markup Placeholder
open Markup.Attribute (WellFormed)
open Markup.Token (Spaced spacedText)
open Text (Stands allBlank solid spread words)
open Job (closes codeFrom codeGiven inlineClosing openText)

section Attributes

theorem free_closing (c : Closing) : Free c.text := free_of_all (by cases c <;> decide)

theorem free_inlineClosing (c : Closing) : Free (inlineClosing c) :=
  free_of_all (by cases c <;> decide)

end Attributes

end ErbLayout.Template

namespace ErbLayout.Placeholder.Seamwise

open Layout Markup Template
open Text (allBlank)
open Job (inlineClosing openText)

variable {α : Type} {f : List Char → List α} (hf : Seamwise f)
include hf

theorem indented (depth : Nat) (s : List Char) : f (indented depth s) = f s := by
  refine hf.congr ?_
  rw [Layout.indented, List.cons_append, Text.words_cons_blank (by decide),
    Text.words_allBlank_append (indentOf_allBlank depth), Text.words_trim]

theorem row (len : Measure) (lineWidth : Int) (depth depth' : Nat) (a : Attribute) :
    f (Row.text depth' (Row.ofAttribute len lineWidth depth a)) = f a.text := by
  cases a with
  | name n => exact hf.indented _ _
  | bare n v => exact hf.indented _ _
  | quoted n q v =>
    unfold Row.ofAttribute
    dsimp only
    split
    · have hmark : Free [q.mark] := List.forall_mem_singleton.2 (Attribute.not_isNameChar_quote q)
      have hequals : Free ['=', q.mark] := List.forall_mem_cons.2 ⟨by decide, hmark⟩
      have htokens : f ((Text.words v).flatMap (Layout.indented (depth' + 1))) = f v := by
        rw [hf.flatMap fun w _ => headFree_indented _ w, hf.words v]
        exact List.flatMap_congr fun w _ => hf.indented _ w
      have htext : Attribute.text (.quoted n q v) = n ++ (['=', q.mark] ++ (v ++ [q.mark])) := by
        simp [Attribute.text]
      have hvalue : HeadFree (['=', q.mark] ++ (v ++ [q.mark])) := fun c hc => hequals c (by
        obtain rfl : '=' = c := by simpa using hc
        simp)
      rw [Row.text, hf.append (headFree_indented _ _),
        hf.append (headFree_flatMap fun w _ => headFree_indented _ w), htokens, hf.indented,
        hf.indented, hf.append hequals.headFree, htext, hf.append hvalue, hf.between hequals hmark]
      simp
    · exact hf.indented _ _

theorem rows (len : Measure) (lineWidth : Int) (depth : Nat) (as : List Attribute) :
    f (AttributeLayout.text depth (.rows (as.map (Row.ofAttribute len lineWidth (depth + 1))))) =
      as.flatMap fun a => f a.text := by
  rw [AttributeLayout.text, hf.append (headFree_indented _ _), hf.indented, hf.nil, List.append_nil,
    List.flatMap_map, hf.flatMap fun a _ => Row.headFree_text _ _]
  exact List.flatMap_congr fun a _ => hf.row _ _ _ _ a

theorem spacedText {as : List (List Char × Attribute)} (h : Token.Spaced as) :
    f (Token.spacedText as) = as.flatMap fun p => f p.2.text := by
  rw [Token.spacedText, hf.flatMap fun p hp => Token.headFree_spaced (h p hp)]
  refine List.flatMap_congr fun p hp => hf.congr ?_
  exact Text.words_allBlank_append (h p hp).2.1 _

/-- The layout of attributes has what the attributes have, if the attributes on lines of their own
are all there is in the normalized text. -/
theorem layout (len : Measure) (lineWidth : Int) (depth column : Nat)
    (name closing attrs : List Char)
    (h : (Attribute.all (Text.normalize attrs)).flatMap (fun a => f a.text) = f attrs) :
    f ((AttributeLayout.of len lineWidth depth column name attrs closing).text depth) =
      f attrs := by
  unfold AttributeLayout.of
  split
  · rename_i hblank
    exact (hf.congr (Text.words_of_allBlank hblank)).symm
  · dsimp only
    split
    · refine hf.congr ?_
      rw [AttributeLayout.text, Text.words_cons_blank Text.isBlank_space, Text.words_normalize]
    · rw [hf.rows, h]

theorem closeTag {before after : List Char} (hb : allBlank before = true)
    (ha : allBlank after = true) (name : List Char) :
    f ('<' :: '/' :: before ++ name ++ after ++ ['>']) = f ('<' :: '/' :: name ++ ['>']) := by
  have hname : f (before ++ name ++ after) = f name := by
    refine hf.congr ?_
    rw [Text.words_append_allBlank _ ha, Text.words_allBlank_append hb]
  have hbetween (s : List Char) := hf.between
    (free_of_all (s := ['<', '/']) (by decide)) (free_of_all (s := ['>']) (by decide)) s
  have hleft := hbetween (before ++ name ++ after)
  rw [hname, ← hbetween name] at hleft
  simpa using hleft

theorem openTag {attrs closing : List Char} (name : List Char) (ha : HeadFree attrs)
    (hc : Free closing) :
    f ('<' :: name ++ attrs ++ closing) = f ['<'] ++ f name ++ f attrs ++ f closing := by
  have hstart := hf.between (free_of_all (s := ['<']) (by decide)) hc (name ++ attrs)
  rw [hf.append ha] at hstart
  simpa using hstart

theorem openText {depth : Nat} {name : List Char} {layout : AttributeLayout} {closing : Closing}
    {attrs gap : List Char} (hlayout : f (layout.text depth) = f attrs)
    (hclosing : f (inlineClosing closing) = f closing.text) (ha : HeadFree attrs)
    (hg : allBlank gap = true) :
    f (openText depth name layout closing) =
      f ('<' :: name ++ attrs ++ gap ++ closing.text) := by
  have hends : Free (gap ++ closing.text) := (free_of_allBlank hg).append (free_closing closing)
  have hgap : f (gap ++ closing.text) = f closing.text :=
    hf.congr (Text.words_allBlank_append hg _)
  have hright := hf.openTag name ha hends
  rw [hgap, ← List.append_assoc] at hright
  rw [hright]
  unfold Job.openText
  split
  · rw [hf.openTag name (AttributeLayout.headFree_text _ _) (free_closing closing), hlayout]
  · rw [hf.openTag name (AttributeLayout.headFree_text _ _) (free_inlineClosing closing), hlayout, hclosing]

theorem build {text code indent : List Char} {tag : Erb.Tag}
    (ht : Erb.Tag.split? text = some tag) (hcode : Text.words code = Text.words tag.code)
    (hi : allBlank indent = true) :
    f (Erb.Tag.build tag.opener.text code tag.closer.text indent) = f text := by
  obtain ⟨inside, hbuild, hwords⟩ := Erb.Tag.exists_build tag.opener.text code tag.closer.text hi
  obtain ⟨inside', rfl, hwords'⟩ := Erb.Tag.split?_eq_some ht
  have hinside : f (inside ++ [' ']) = f inside' := by
    refine hf.congr ?_
    rw [Text.words_append_allBlank _ (by decide), hwords, hwords', hcode]
  rw [hbuild, show inside ++ ' ' :: tag.closer.text = inside ++ [' '] ++ tag.closer.text by simp,
    hf.between (free_opener _) (free_closer _), hf.between (free_opener _) (free_closer _), hinside]

end ErbLayout.Placeholder.Seamwise

namespace ErbLayout.Template

open Layout Markup Placeholder
open Markup.Token (Spaced spacedText)
open Text (Stands allBlank solid spread words)
open Job (closes codeFrom codeGiven inlineClosing openText)

section Items

variable {t : Table}

theorem solidRestored_layout (len : Measure) (lineWidth : Int) (depth column : Nat)
    (name closing : List Char) {as : List (List Char × Attribute)} (h : Spaced as)
    (hp : PlainBlanks (spacedText as)) :
    t.solidRestored ((AttributeLayout.of len lineWidth depth column name (spacedText as)
      closing).text depth) = t.solidRestored (spacedText as) := by
  have hf := t.seamwise_solidRestored
  refine hf.layout len lineWidth depth column name closing _ ?_
  rw [← List.flatMap_map, Token.map_text_all_normalize h hp, List.flatMap_map, hf.spacedText h]
  exact List.flatMap_congr fun p _ => hf.congr (Text.words_normalize _)

theorem words_laidCode (checker : Ruby.Checker) (code : List Char) :
    words (laidCode checker code) = words code := by
  unfold laidCode
  split
  · rfl
  · cases hk : Ruby.classify checker code with
    | blockOpen =>
      simp only [codeFrom, codeGiven, hk]
      exact Ruby.words_ofReformatted code (Ruby.autocloseSuffix_start checker code)
    | close | elseLike | standalone =>
      simp only [codeFrom, codeGiven, hk]
      exact Ruby.words_ofReformatted code (.inl rfl)

theorem solidRestored_build {text : List Char} {tag : Erb.Tag} {indent : List Char}
    (checker : Ruby.Checker) (ht : Erb.Tag.split? text = some tag) (hi : allBlank indent = true) :
    t.solidRestored (Erb.Tag.build tag.opener.text (laidCode checker tag.code) tag.closer.text
      indent) = t.solidRestored text :=
  t.seamwise_solidRestored.build ht (words_laidCode checker tag.code) hi

theorem solidRestored_openText (len : Measure) (lineWidth : Int) (depth column : Nat)
    (name : List Char) (closing : Closing) {as : List (List Char × Attribute)} {gap : List Char}
    (h : Spaced as) (hp : PlainBlanks (spacedText as)) (hg : allBlank gap = true) :
    t.solidRestored (openText depth name (AttributeLayout.of len lineWidth depth column name
        (spacedText as) (inlineClosing closing)) closing) =
      t.solidRestored ('<' :: name ++ spacedText as ++ gap ++ closing.text) := by
  have hsolid {s : List Char} (hs : Free s) : t.solidRestored s = solid s := by
    rw [Table.solidRestored, ← List.append_nil s, Table.restore_free_append hs]
    rfl
  refine t.seamwise_solidRestored.openText (solidRestored_layout _ _ _ _ _ _ h hp) ?_
    (Token.headFree_spacedText h) hg
  rw [hsolid (free_inlineClosing closing), hsolid (free_closing closing)]
  cases closing <;> decide

end Items

/-- No open tag holds other white space than ends names. -/
def Item.PlainBlanks : Item → Prop
  | .token (.opening text _ _ _) => Markup.PlainBlanks text
  | _ => True

variable {j : Job}

theorem Written.solidRestored {i : Item} {x : List Char} (h : Written j i x) (ht : j.table.Proper)
    (hs : i.Sound j.table) (hp : i.PlainBlanks) :
    j.table.solidRestored x = j.table.solidRestored (i.textBy asOpened) := by
  cases h with
  | word w => rfl
  | body b => rfl
  | comment text => rfl
  | rawClose name closeTag => rfl
  | code hsplit hindent =>
    rename_i n text tag indent
    rw [solidRestored_build j.style.checker hsplit hindent]
    exact congrArg Text.solid (Table.restore_name ht hs).symm
  | close text name =>
    obtain ⟨s, hr⟩ := hs
    obtain ⟨before, name', after, he, hbefore, hafter, -⟩ :=
      Token.readClose_eq_some (Token.readAny_close hr)
    simp only [Token.close.injEq] at he
    obtain ⟨rfl, rfl⟩ := he
    exact (j.table.seamwise_solidRestored.closeTag hbefore hafter name).symm
  | opening text name attrs closing depth column =>
    obtain ⟨s, hr⟩ := hs
    obtain ⟨name', as, gap, closing', he, -, -, has, hgap, -⟩ :=
      Token.readOpening_eq_some (Token.readAny_opening hr)
    simp only [Token.opening.injEq] at he
    obtain ⟨rfl, rfl, rfl, rfl⟩ := he
    exact solidRestored_openText _ _ _ _ name closing has
      (PlainBlanks.of_subset hp fun c hc => by simp [hc]) hgap

theorem solid_spread {t : Table} {ps : List (List Char × List Char)} {tail : List Char}
    (hps : ∀ p ∈ ps, allBlank p.1 = true) (htail : allBlank tail = true) :
    solid (spread (ps.map (restored t)) ++ tail) = ps.flatMap fun p => t.solidRestored p.2 := by
  rw [Text.solid_append, Text.solid_of_allBlank htail, List.append_nil]
  induction ps with
  | nil => rfl
  | cons p ps ih =>
    rw [List.map_cons, Text.spread_cons, Text.solid_append, Text.solid_append,
      ih fun q hq => hps q (List.mem_cons_of_mem p hq)]
    simp [restored, Text.solid_of_allBlank (hps p List.mem_cons_self), Table.solidRestored]

theorem flatMap_of_forall₂ {α β γ : Type} {R : α → β → Prop} {f : α → List γ} {g : β → List γ}
    {as : List α} {bs : List β} (h : List.Forall₂ R as bs)
    (hfg : ∀ a ∈ as, ∀ b, R a b → f a = g b) : as.flatMap f = bs.flatMap g := by
  induction h with
  | nil => rfl
  | cons hr _ ih =>
    rw [List.flatMap_cons, List.flatMap_cons, hfg _ List.mem_cons_self _ hr,
      ih fun a ha => hfg a (List.mem_cons_of_mem _ ha)]

/-- A template with its raw text close tags in a spelling is the items in that spelling, white space
apart. -/
theorem solid_pieces {t : Table} (ht : t.Proper) {spelling : Spelling}
    (hspelling : spelling.Framing) {ps : List Piece} (ho : Piece.Ordered none ps)
    (hs : ∀ c ∈ Cell.ofPieces t false ps, c.item.Sound t) :
    solid (t.restore (ps.flatMap (pieceText spelling))) =
      (Cell.ofPieces t false ps).flatMap fun c => t.solidRestored (c.item.textBy spelling) := by
  obtain ⟨apart, src, tail, hstands, htext, htail, -⟩ := reads_ofPieces t spelling ho
  rw [htext, restore_spread ht (blank_of_stands hstands) htail
    (seams_of_stands hspelling hs (joins_ofPieces ho) hstands),
    solid_spread (blank_of_stands hstands) htail]
  rw [List.forall₂_map_left_iff] at hstands
  refine (flatMap_of_forall₂ hstands fun c hc p hp => ?_).symm
  rw [hp.text]
  rfl

/-- No open tag of a protected template holds other white space than ends names. -/
def PlainTags (p : Protected) : Prop :=
  ∀ text name attrs closing, .token (.opening text name attrs closing) ∈ Piece.cut p.working →
    PlainBlanks text

theorem plainTags_of_pieces {p : Protected} (h : ((Piece.cut p.working).all fun piece =>
    piece.text.all fun c => !isBlank c || isPlainBlank c) = true) : PlainTags p := by
  intro text name attrs closing hm c hc hb
  have hpiece := List.all_eq_true.1 (List.all_eq_true.1 h _ hm) c hc
  simpa [hb] using hpiece

theorem plain_ofPieces {table : Table} {apart : Bool} {ps : List Piece}
    (h : ∀ text name attrs closing, .token (.opening text name attrs closing) ∈ ps →
      PlainBlanks text) : ∀ c ∈ Cell.ofPieces table apart ps, c.item.PlainBlanks := by
  intro c hc
  cases hi : c.item with
  | word w | code n text | body b | rawClose name closeTag => trivial
  | token t =>
    cases t with
    | comment text | close text name => trivial
    | opening text name attrs closing => exact h _ _ _ _ (token_mem_of_mem hc hi)

/-- No content is lost, added, repeated or moved: but for white space the layout is the template in
which the close tags of raw text are spelled as their open tags. -/
theorem format_keeps_content (style : Style) (names : Names) (source t : List Char)
    (hp : style.reformatter = Ruby.passThrough) (ha : names.Ample (3 * source.length))
    (hplain : PlainTags (protect names source)) (h : format style names source = .ok t) :
    let p := protect names source
    let pieces := Piece.cut p.working
    source = p.table.restore (pieces.flatMap (pieceText asWritten)) ∧
      solid t = solid (p.table.restore (pieces.flatMap (pieceText asOpened))) ∧
      ∀ name content closeTag, .rawText name content closeTag ∈ pieces → closeTag ≠ [] →
        Element.isRawText name = true ∧ ∃ before spelled after,
          closeTag = '<' :: '/' :: before ++ spelled ++ after ++ ['>'] ∧
          allBlank before = true ∧ allBlank after = true ∧ sameLetters name spelled = true := by
  intro p pieces
  obtain ⟨ws, ts, hm⟩ := exists_marking ha
  obtain ⟨src, out, hmatch⟩ := exists_matches hp ha h
  have hsound := sound_ofProtected hm.proper
  have hcells : ∀ c ∈ Cell.ofProtected p, c.item.PlainBlanks := plain_ofPieces hplain
  refine ⟨?_, ?_, fun name content closeTag hraw hne => ?_⟩
  · rw [flatMap_pieceText, hm.restore_working]
  · rw [solid_pieces hm.proper framing_asOpened (Piece.cut_ordered _) hsound, hmatch.output,
      solid_spread (blank_of_placed hmatch.placed) (by decide)]
    conv_rhs => rw [← follow_snd none (Cell.ofPieces p.table false pieces), List.flatMap_map]
    refine (flatMap_of_forall₂ hmatch.placed fun pc hpc q hq => ?_).symm
    have hc : pc.2 ∈ Cell.ofProtected p := follow_snd none (Cell.ofProtected p) ▸
      List.mem_map_of_mem hpc
    exact (hq.written.solidRestored hm.proper (hsound pc.2 hc) (hcells pc.2 hc)).symm
  · obtain ⟨hname, hclose⟩ := Piece.mem_cut_rawText hraw
    obtain ⟨s, n, hread⟩ := hclose hne
    obtain ⟨before, spelled, after, he, hb, ha, hsame, -⟩ := Piece.readCloseOf_eq_some hread
    exact ⟨hname, before, spelled, after, he, hb, ha, hsame⟩

theorem format_keeps_content_script :
    let style : Style := { width := 10, checker := fun code => code != "if x".toList }
    let source := "<p class=\"a  b\" id=c>d<% if x %>e<% end %></p><script>f</SCRIPT >".toList
    let t := "<p\n  class=\"\n    a\n    b\n  \"\n  id=c\n>d\n  <% if x %>\n    e\n".toList ++
      "  <% end %>\n</p>\n<script>f</script>\n".toList
    let p := protect (Names.counting 256) source
    format style (Names.counting 256) source = .ok t ∧ PlainTags p ∧
      solid t = solid (p.table.restore ((Piece.cut p.working).flatMap (pieceText asOpened))) := by
  intro style source t p
  have hf : format style (Names.counting 256) source = .ok t := by decide +kernel
  have ha : (Names.counting 256).Ample (3 * source.length) :=
    Names.ample_counting (by decide) (by decide)
  have hplain : PlainTags p := plainTags_of_pieces (by decide +kernel)
  exact ⟨hf, hplain, (format_keeps_content style (Names.counting 256) source t rfl ha hplain hf).2.1⟩

-- The content is the same, and yet it may read differently: here the white space that is gone kept
-- the dashes from ending a comment.
theorem format_not_stable :
    let style : Style := { checker := fun _ => true }
    let t := "<!--\n<p a=-->\n</p>\n".toList
    format style (Names.counting 64) "<!-- <p a=-- ></p>".toList = .ok t ∧
      format style (Names.counting 64) t ≠ .ok t := by
  decide +kernel

end ErbLayout.Template
