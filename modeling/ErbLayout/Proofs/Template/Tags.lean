import ErbLayout.Proofs.Erb.Shape
import ErbLayout.Proofs.Markup.Passed
import ErbLayout.Proofs.Placeholder.Coded
import ErbLayout.Proofs.Placeholder.Inverse
import ErbLayout.Proofs.Template.Content
import ErbLayout.Proofs.Template.Spacing
/-!
The ERB tags of a template and those of its layout: wherever they stand, they are the same tags in
the same order, white space in their code apart, as long as every `<%` of the template begins a tag.
-/

namespace ErbLayout.Template

open Layout Markup Placeholder
open Text (Framed allBlank spread words)
open Job (inlineClosing openText)

/-- A text that holds a `<%`. -/
def Opens (s : List Char) : Prop := ['<', '%'] <:+: s

section Opens

theorem Opens.within {s t : List Char} (h : Opens s) (hs : s <:+: t) : Opens t := h.trans hs

theorem not_opens_of_not_mem {s : List Char} (h : '<' ∉ s) : ¬ Opens s := fun hi =>
  h (hi.subset (by simp))

theorem opens_of_words {s t : List Char} (h : Opens s) (hw : words s ⊆ words t) : Opens t := by
  have hsolid : ∀ c ∈ ['<', '%'], isBlank c = false :=
    List.forall_mem_cons.2 ⟨rfl, List.forall_mem_singleton.2 rfl⟩
  obtain ⟨w, hmem, hi⟩ := Text.exists_word_around (by simp) hsolid h
  exact hi.trans (Text.infix_of_mem_words (hw hmem))

/-- A `<%` lies on one side of a place behind which no `%` stands. -/
theorem opens_append {a b : List Char} (h : Opens (a ++ b)) (hb : b.head? ≠ some '%') :
    Opens a ∨ Opens b := by
  induction a with
  | nil => exact .inr h
  | cons c a ih =>
    rcases List.infix_cons_iff.1 h with hp | hi
    · obtain ⟨rfl, hnext⟩ := List.cons_prefix_cons.1 hp
      cases a with
      | nil =>
        obtain ⟨r, hr⟩ := hnext
        exact absurd (congrArg List.head? hr).symm hb
      | cons d a =>
        obtain ⟨rfl, -⟩ := List.cons_prefix_cons.1 hnext
        exact .inl ⟨[], a, rfl⟩
    · exact (ih hi).imp_left fun ha => ha.trans (List.suffix_cons c a).isInfix

theorem head_append_ne {a b : List Char} (ha : a.head? ≠ some '%') (hb : b.head? ≠ some '%') :
    (a ++ b).head? ≠ some '%' := by
  cases a with
  | nil => exact hb
  | cons c a => exact ha

theorem head_flatMap_ne {α : Type} {g : α → List Char} {as : List α}
    (h : ∀ a ∈ as, (g a).head? ≠ some '%') : (as.flatMap g).head? ≠ some '%' := by
  induction as with
  | nil => simp
  | cons a as ih =>
    exact head_append_ne (h a List.mem_cons_self) (ih fun b hb => h b (List.mem_cons_of_mem a hb))

theorem opens_flatMap {α : Type} {g : α → List Char} {as : List α}
    (hg : ∀ a ∈ as, (g a).head? ≠ some '%') (h : Opens (as.flatMap g)) : ∃ a ∈ as, Opens (g a) := by
  induction as with
  | nil => simp [Opens] at h
  | cons a as ih =>
    have has : ∀ b ∈ as, (g b).head? ≠ some '%' := fun b hb => hg b (List.mem_cons_of_mem a hb)
    rcases opens_append h (head_flatMap_ne has) with ha | hrest
    · exact ⟨a, List.mem_cons_self, ha⟩
    · obtain ⟨b, hb, hopens⟩ := ih has hrest
      exact ⟨b, List.mem_cons_of_mem a hb, hopens⟩

theorem head_indented (depth : Nat) (s : List Char) : (indented depth s).head? ≠ some '%' := by
  simp [indented]

theorem opens_of_indented {depth : Nat} {s : List Char} (h : Opens (indented depth s)) :
    Opens s := by
  refine opens_of_words h fun w hw => ?_
  rwa [indented, List.cons_append, Text.words_cons_blank (by decide),
    Text.words_allBlank_append (indentOf_allBlank depth), Text.words_trim] at hw

theorem head_row (depth : Nat) (r : Layout.Row) : (Layout.Row.text depth r).head? ≠ some '%' := by
  cases r with
  | whole text => exact head_indented depth text
  | tokens name quote ts => simp [Layout.Row.text, indented]

theorem opens_of_row {len : Measure} {lineWidth : Int} {depth depth' : Nat} {a : Attribute}
    (h : Opens (Layout.Row.text depth (Layout.Row.ofAttribute len lineWidth depth' a))) :
    Opens a.text := by
  cases a with
  | name n => exact opens_of_indented h
  | bare n v => exact opens_of_indented h
  | quoted n q v =>
    unfold Layout.Row.ofAttribute at h
    dsimp only at h
    split at h
    · rw [Layout.Row.text] at h
      rcases opens_append h (head_indented _ _) with h | h
      · rcases opens_append h (head_flatMap_ne fun w _ => head_indented _ w) with h | h
        · exact (opens_of_indented h).within ⟨[], v ++ [q.mark], by simp [Attribute.text]⟩
        · obtain ⟨w, hw, h⟩ := opens_flatMap (fun w _ => head_indented _ w) h
          exact ((opens_of_indented h).within (Text.infix_of_mem_words hw)).within
            ⟨n ++ ['=', q.mark], [q.mark], by simp [Attribute.text]⟩
      · exact absurd (opens_of_indented h) (not_opens_of_not_mem (by cases q <;> decide))
    · exact opens_of_indented h

theorem text_infix_of_mem_all {s : List Char} {a : Attribute} (h : a ∈ Attribute.all s) :
    a.text <:+: s := by
  obtain ⟨f, hf, hv⟩ := List.mem_filterMap.1 h
  cases f with
  | char c => simp at hv
  | value b =>
    obtain rfl : b = a := by simpa using hv
    obtain ⟨t, n, ht, hr⟩ := Text.mem_scan hf
    obtain ⟨a, ha, he⟩ := Option.map_eq_some_iff.1 hr
    obtain ⟨rfl, -⟩ := Prod.mk.inj he
    obtain ⟨rest, hs⟩ := Attribute.starts_of_readAny ha
    rw [hs.text] at ht
    exact (List.prefix_append _ rest).isInfix.trans ht.isInfix

theorem head_layout (depth : Nat) (layout : AttributeLayout) :
    (layout.text depth).head? ≠ some '%' := by
  cases layout with
  | none => simp [AttributeLayout.text]
  | inline text => simp [AttributeLayout.text]
  | rows rows => exact head_append_ne (head_flatMap_ne fun r _ => head_row _ r) (head_indented _ _)

theorem opens_of_layout {len : Measure} {lineWidth : Int} {depth column : Nat}
    {name closing attrs : List Char}
    (h : Opens ((AttributeLayout.of len lineWidth depth column name attrs closing).text depth)) :
    Opens attrs := by
  have hnormal : words (Text.normalize attrs) ⊆ words attrs := by
    rw [Text.words_normalize]
    exact List.Subset.refl _
  unfold AttributeLayout.of at h
  split at h
  · exact absurd h (not_opens_of_not_mem (by simp [AttributeLayout.text]))
  · dsimp only at h
    split at h
    · refine opens_of_words h ?_
      rwa [AttributeLayout.text, Text.words_cons_blank Text.isBlank_space]
    · rw [AttributeLayout.text, List.flatMap_map] at h
      rcases opens_append h (head_indented _ _) with h | h
      · obtain ⟨a, ha, h⟩ := opens_flatMap (fun a _ => head_row _ _) h
        exact opens_of_words ((opens_of_row h).within (text_infix_of_mem_all ha)) hnormal
      · exact absurd (opens_of_indented h) (not_opens_of_not_mem (by simp))

theorem opens_of_openText {depth : Nat} {name attrs : List Char} {layout : AttributeLayout}
    {closing : Closing} (hlayout : Opens (layout.text depth) → Opens attrs)
    (h : Opens (openText depth name layout closing)) (rest : List Char) :
    Opens ('<' :: name ++ attrs ++ rest) := by
  have hplain : Opens ('<' :: name ++ layout.text depth) := by
    unfold openText at h
    generalize hend : (if layout.isBroken then closing.text else inlineClosing closing) = last at h
    have hlast : '<' ∉ last ∧ last.head? ≠ some '%' := by
      rw [← hend]
      cases layout.isBroken <;> cases closing <;> decide
    exact (opens_append h hlast.2).resolve_right (not_opens_of_not_mem hlast.1)
  rcases opens_append hplain (head_layout depth layout) with h | h
  · exact h.within ⟨[], attrs ++ rest, by simp⟩
  · exact (hlayout h).within ⟨'<' :: name, rest, by simp⟩

end Opens

variable {j : Job}

theorem not_opens_closeText {name : List Char} (h : '<' ∉ name) :
    ¬ Opens ('<' :: '/' :: name ++ ['>']) := by
  rw [Opens, List.cons_append, List.infix_cons_iff]
  rintro (hp | hi)
  · exact absurd (List.cons_prefix_cons.1 hp).2 (by simp)
  · exact not_opens_of_not_mem (by simp [h]) hi

theorem angle_not_mem_of_word {name : List Char} (h : ∀ c ∈ name, isWord c = true) :
    '<' ∉ name := fun hmem => absurd (h '<' hmem) (by decide)

theorem angle_not_mem_of_rawText {name : List Char} (h : Element.isRawText name = true) :
    '<' ∉ name := by
  have hall : ∀ n ∈ Element.rawTextNames, '<' ∉ n := by decide
  exact hall name (by simpa [Element.isRawText] using h)

/-- No unit but a code tag gets a `<%` that it did not have. -/
theorem Written.opens {i : Item} {x : List Char} (h : Written j i x) (hs : i.Sound j.table)
    (hcode : ∀ n text, i ≠ .code n text) (ho : Opens x) : Opens i.text := by
  cases h with
  | word w => exact ho
  | body b => exact ho
  | comment text => exact ho
  | code hsplit hindent => exact absurd rfl (hcode _ _)
  | close text name =>
    obtain ⟨s, hr⟩ := hs
    obtain ⟨before, name', after, he, -, -, -, hword, -⟩ :=
      Token.readClose_eq_some (Token.readAny_close hr)
    simp only [Token.close.injEq] at he
    obtain ⟨-, rfl⟩ := he
    exact absurd ho (not_opens_closeText (angle_not_mem_of_word hword))
  | rawClose name closeTag =>
    exact absurd ho (not_opens_closeText (angle_not_mem_of_rawText hs.1))
  | opening text name attrs closing depth column =>
    obtain ⟨s, hr⟩ := hs
    obtain ⟨name', as, gap, closing', he, -⟩ := Token.readOpening_eq_some (Token.readAny_opening hr)
    simp only [Token.opening.injEq] at he
    obtain ⟨rfl, rfl, rfl, rfl⟩ := he
    have hopens := opens_of_openText opens_of_layout ho (gap ++ closing.text)
    rw [← List.append_assoc] at hopens
    exact hopens

theorem length_of_rawText {name : List Char} (h : Element.isRawText name = true) :
    name.length < 20 := by
  have hall : ∀ n ∈ Element.rawTextNames, n.length < 20 := by decide
  exact hall name (by simpa [Element.isRawText] using h)

/-- No name of a raw text has an `erb` in it, however it is spelled. -/
theorem opening_not_infix_of_sameLetters {name spelled : List Char}
    (hraw : Element.isRawText name = true) (h : sameLetters name spelled = true) :
    ¬ Placeholder.opening <:+: spelled := by
  have hletters : ∀ m ∈ Element.rawTextNames, (m.all fun a => !sameLetter a 'b') = true := by
    decide +kernel
  exact fun hi => Piece.not_mem_of_sameLetters h
    (hletters name (by simpa [Element.isRawText] using hraw))
    (hi.subset (by simp [Placeholder.opening]))

section Seamwise

variable {α : Type} {f : List Char → List α} (hf : Seamwise f)
variable (hnil : ∀ u, ¬ Placeholder.opening <:+: u → f u = [])
include hf hnil

omit hf in
theorem seamwise_singleton (c : Char) : f [c] = [] := hnil _ fun hi => by
  have hlen := hi.length_le
  simp [Placeholder.opening] at hlen

theorem seamwise_closeText {name spelled : List Char} (hraw : Element.isRawText name = true)
    (h : sameLetters name spelled = true) : f ('<' :: '/' :: spelled ++ ['>']) = [] := by
  have hparts := hf.between (free_of_all (s := ['<', '/']) (by decide))
    (free_of_all (s := ['>']) (by decide)) spelled
  rw [hnil spelled (opening_not_infix_of_sameLetters hraw h),
    hnil ['<', '/'] (by decide), hnil ['>'] (by decide)] at hparts
  simpa using hparts

/-- What can be read in a unit is read in what it is written as. -/
theorem Written.seamwise {i : Item} {x : List Char} (h : Written j i x) (hs : i.Sound j.table)
    (hcode : ∀ n text, i ≠ .code n text) : f x = f i.text := by
  cases h with
  | word w => rfl
  | body b => rfl
  | comment text => rfl
  | code hsplit hindent => exact absurd rfl (hcode _ _)
  | close text name =>
    obtain ⟨s, hr⟩ := hs
    obtain ⟨before, name', after, he, hbefore, hafter, -⟩ :=
      Token.readClose_eq_some (Token.readAny_close hr)
    simp only [Token.close.injEq] at he
    obtain ⟨rfl, rfl⟩ := he
    exact (hf.closeTag hbefore hafter name).symm
  | rawClose name closeTag =>
    obtain ⟨hraw, s, n, hread⟩ := hs
    obtain ⟨before, spelled, after, rfl, hbefore, hafter, hsame, -⟩ :=
      Piece.readCloseOf_eq_some hread
    rw [seamwise_closeText hf hnil hraw (sameLetters_refl name)]
    exact ((hf.closeTag hbefore hafter spelled).trans
      (seamwise_closeText hf hnil hraw hsame)).symm
  | opening text name attrs closing depth column =>
    obtain ⟨s, hr⟩ := hs
    obtain ⟨name', as, gap, closing', he, -, -, has, hgap, -⟩ :=
      Token.readOpening_eq_some (Token.readAny_opening hr)
    simp only [Token.opening.injEq] at he
    obtain ⟨rfl, rfl, rfl, rfl⟩ := he
    have hlayout := hf.layout j.len j.width depth column name (inlineClosing closing)
      (Token.spacedText as) <| by
        rw [Attribute.flatMap_all hf fun c _ => seamwise_singleton hnil c]
        exact hf.congr (Text.words_normalize _)
    refine hf.openText hlayout ?_ (Token.headFree_spacedText has) hgap
    cases closing with
    | plain => rfl
    | slash => exact hf.congr rfl

end Seamwise

/-- The code tags inside a unit are those inside what it is written as. -/
theorem Written.namesIn {i : Item} {x : List Char} (h : Written j i x) (hs : i.Sound j.table)
    (hcode : ∀ n text, i ≠ .code n text) (es : Entries) : es.namesIn x = es.namesIn i.text :=
  h.seamwise es.seamwise_namesIn (fun _ hu => Entries.namesIn_of_no_opening hu) hs hcode

/-- Texts that are settled, with tags of the same shapes. -/
structure Alike (s s' : List Char) : Prop where
  left : Erb.Settled s
  right : Erb.Settled s'
  shapes : Erb.shapesIn s' = Erb.shapesIn s

theorem alike_of_read {s s' whole whole' : List Char} {tag tag' : Erb.Tag} {n n' : Nat}
    (h : Erb.Tag.read s = some ((tag, whole), n)) (h' : Erb.Tag.read s' = some ((tag', whole'), n'))
    (hshape : tag'.shape = tag.shape) : Alike whole whole' := by
  refine ⟨List.append_nil whole ▸ .tag h .nil, List.append_nil whole' ▸ .tag h' .nil, ?_⟩
  rw [Erb.shapesIn_of_read h, Erb.shapesIn_of_read h', hshape]

theorem Alike.restore {es : Entries} {s s' : List Char} (hs : Alike s s') (h : es.Plain) :
    Alike (es.restore s) (es.restore s') := by
  have hshape (p : Erb.Tag × List Char) : (es.restoreTag p.1).shape =
      (p.1.shape.1, p.1.shape.2.1.map es.restore, p.1.shape.2.2) := by
    rw [Erb.Tag.shape, Entries.restoreTag, h.words_restore]
    rfl
  have hmap (s : List Char) : Erb.shapesIn (es.restore s) = (Erb.shapesIn s).map
      fun x => (x.1, x.2.1.map es.restore, x.2.2) := by
    rw [Erb.shapesIn, Erb.shapesIn, h.tagsIn_restore, List.map_map, List.map_map]
    exact List.map_congr_left fun p _ => hshape p
  refine ⟨(h.settled_restore_iff s).2 hs.left, (h.settled_restore_iff s').2 hs.right, ?_⟩
  rw [hmap, hmap, hs.shapes]

theorem alike_code {es : Entries} (hcoded : es.Coded)
    (hfresh : ∀ e ∈ es, ∀ e' ∈ es, ¬ e.1.text <:+: e'.2) {e : Name × List Char} (he : e ∈ es)
    {code indent : List Char} {tag : Erb.Tag} (ht : Erb.Tag.split? e.2 = some tag)
    (hcode : words code = words tag.code) (hi : allBlank indent = true) :
    Alike e.2 (es.restore (Erb.Tag.build tag.opener.text code tag.closer.text indent)) := by
  obtain ⟨tag', s, k, hr⟩ := hcoded e he
  obtain rfl : tag' = tag := Option.some.inj ((Erb.Tag.split?_of_read hr).symm.trans ht)
  obtain ⟨built, k', hr', hshape⟩ := Erb.Tag.read_build hr hcode hi
  have hnames : es.namesIn (Erb.Tag.build tag'.opener.text code tag'.closer.text indent) = [] := by
    rw [es.seamwise_namesIn.build ht hcode hi]
    exact Entries.namesIn_of_free fun e' he' => hfresh e' he' e he
  rw [Entries.restore_of_namesIn_nil hnames]
  exact alike_of_read hr hr' hshape

/-- What a unit is written as has the tags of the unit. -/
theorem Written.alike {i : Item} {x : List Char} (h : Written j i x) (hs : i.Sound j.table)
    (ht : j.table.Proper) (hcoded : j.table.codeTags.Coded) (hopens : ¬ Opens i.text) :
    Alike (j.table.restoreCodeTags i.text) (j.table.restoreCodeTags x) := by
  by_cases hcode : ∃ n text, i = .code n text
  · obtain ⟨n, text, rfl⟩ := hcode
    cases h with
    | code hsplit hindent =>
      have hmem : (n, text) ∈ j.table.codeTags := hs
      have hname : j.table.restoreCodeTags (Item.code n text).text = text :=
        Table.restoreCodeTags_name (e := (n, text)) ht hmem
      rw [hname]
      exact alike_code hcoded ht.fresh hmem hsplit (words_laidCode _ _) hindent
  · have hne : ∀ n text, i ≠ .code n text := fun n text hitem => hcode ⟨n, text, hitem⟩
    have hx : ¬ Opens x := fun ho => hopens (h.opens hs hne ho)
    refine ⟨hcoded.settled_restore hopens, hcoded.settled_restore hx, ?_⟩
    rw [Erb.shapesIn, Erb.shapesIn, Table.restoreCodeTags, Table.restoreCodeTags,
      hcoded.tagsIn_restore hx, hcoded.tagsIn_restore hopens, h.namesIn hs hne]

theorem text_infix_of_mem {p : Protected} {row : Row} {rows : List Row}
    (hcells : rows.map Row.cell = Cell.ofProtected p) (hrow : row ∈ rows) :
    row.item.text <:+: p.working := by
  obtain ⟨apart, src, tail, hstands, hwork, -⟩ := reads_ofProtected p
  have hmem : Cell.entry asWritten row.cell ∈
      (Cell.ofProtected p).map (Cell.entry asWritten) := by
    rw [← hcells]
    exact List.mem_map_of_mem (List.mem_map_of_mem hrow)
  obtain ⟨q, hq, hs⟩ := Text.exists_mem_of_forall₂ hstands hmem
  obtain ⟨qs, qs', rfl⟩ := List.append_of_mem hq
  refine ⟨spread qs ++ q.1, spread qs' ++ tail, ?_⟩
  rw [hwork, Text.spread_append, Text.spread_cons, hs.text]
  simp only [List.append_assoc]
  rfl

/-- Two units between which no `<%` is split. -/
theorem meets_of_joins {a b : Row} (ht : j.table.Proper) (ha : a.Shows j) (hb : b.Shows j)
    (hjoins : a.cell.Joins b.cell) (hspaced : Row.Spaced j.style.checker a b) :
    Erb.Meets a.before b.before ∧ Erb.Meets a.after b.after := by
  have hlast {s : List Char} (h : Framed s) : s.getLast? ≠ some '<' := by
    obtain ⟨u, rfl⟩ := h
    rw [List.getLast?_concat]
    decide
  have hhead {s : List Char} (h : Framed s) : s.head? = some '<' := by
    obtain ⟨u, rfl⟩ := h
    rfl
  have hframed {r : Row} (hr : r.Shows j) (hfirm : r.item.isFirm = true) :
      Framed r.before.2 ∧ Framed r.after.2 := by
    obtain ⟨x, hw, hafter⟩ := hr.after
    rw [hr.before, hafter]
    exact ⟨framed_restore_text ht hr.sound hfirm,
      Table.framed_restore (framed_of_written hw hr.sound hfirm)⟩
  rcases hjoins with hfirm | hapart | hfirm
  · obtain ⟨h, h'⟩ := hframed ha hfirm
    exact ⟨.inl (hlast h), .inl (hlast h')⟩
  · have hne : b.before.1 ≠ [] := by simpa [Row.cell] using hapart
    exact ⟨.inr (.inl hne), .inr (.inl (hspaced.2 (.inl hne)))⟩
  · obtain ⟨h, h'⟩ := hframed hb hfirm
    exact ⟨.inr (.inr (hhead h)), .inr (.inr (hhead h'))⟩

/-- Wherever they stand, the tags of a template and those of its layout are the same in the same
order: they have the same openers, the same closers and the same words of code. -/
theorem format_keeps_tags (style : Style) (names : Names) (source t : List Char)
    (hp : style.reformatter = Ruby.passThrough) (ha : names.Ample (3 * source.length))
    (hs : Erb.Settled source) (h : format style names source = .ok t) :
    Erb.shapesIn t = Erb.shapesIn source := by
  obtain ⟨ws, ts, hm⟩ := exists_marking ha
  obtain ⟨src, out, hmatch⟩ := exists_matches hp ha h
  obtain ⟨rows, hrows, -, hspaced⟩ := exists_paired ha hmatch
  obtain ⟨tail, hsource, htail⟩ := hrows.input
  have hproper : (Job.mk style (protect names source)).table.Proper := hm.proper
  have halike : ∀ row ∈ rows, Alike row.before.2 row.after.2 := by
    intro row hrow
    have hshows := hrows.shows row hrow
    obtain ⟨x, hw, hafter⟩ := hshows.after
    have hopens : ¬ Opens row.item.text := fun ho =>
      hm.not_opening hs (ho.trans (text_infix_of_mem hrows.cells hrow))
    rw [hshows.before, hafter]
    exact (hw.alike hshows.sound hproper (coded_codeTags names source) hopens).restore
      (plain_lookalikes names source)
  have hjoins : rows.IsChain fun a b => a.cell.Joins b.cell := by
    rw [← List.isChain_map, hrows.cells]
    exact joins_ofPieces (Piece.cut_ordered _)
  have hmeets : rows.IsChain fun a b => Erb.Meets a.before b.before ∧ Erb.Meets a.after b.after := by
    rw [List.isChain_iff_forall_rel_of_append_cons_cons] at hspaced hjoins ⊢
    intro a b pre post he
    exact meets_of_joins hproper (hrows.shows a (by simp [he])) (hrows.shows b (by simp [he]))
      (hjoins he) (hspaced he)
  have hbefore : Erb.tagsIn source = rows.flatMap fun row => Erb.tagsIn row.before.2 := by
    rw [hsource, Erb.tagsIn_spread
      (List.forall_mem_map.2 fun row hrow => (hrows.shows row hrow).blankBefore)
      (List.forall_mem_map.2 fun row hrow => (halike row hrow).left)
      (List.isChain_map_of_isChain _ (fun a b hab => hab.1) hmeets) htail, List.flatMap_map]
  have hafter : Erb.tagsIn t = rows.flatMap fun row => Erb.tagsIn row.after.2 := by
    rw [hrows.output, Erb.tagsIn_spread
      (List.forall_mem_map.2 fun row hrow => (hrows.shows row hrow).blankAfter)
      (List.forall_mem_map.2 fun row hrow => (halike row hrow).right)
      (List.isChain_map_of_isChain _ (fun a b hab => hab.2) hmeets) (by decide), List.flatMap_map]
  rw [Erb.shapesIn, Erb.shapesIn, hbefore, hafter, List.map_flatMap, List.map_flatMap]
  exact List.flatMap_congr fun row hrow => (halike row hrow).shapes

theorem format_keeps_tags_everywhere :
    let style : Style := { width := 30, checker := fun _ => true }
    let source := "<p id=\"<%= a %>\"  x>b<%-  c\n d -%><!-- <%=e%> --></p>".toList
    let t := "<p id=\"<%= a %>\" x>b<%- c\n    d -%><!-- <%=e%> -->\n</p>\n".toList
    Erb.Settled source ∧ format style (Names.counting 256) source = .ok t ∧
      (Erb.shapesIn source).length = 3 ∧ Erb.shapesIn t = Erb.shapesIn source := by
  intro style source t
  have hs : Erb.Settled source := by decide +kernel
  have hf : format style (Names.counting 256) source = .ok t := by decide +kernel
  have ha : (Names.counting 256).Ample (3 * source.length) :=
    Names.ample_counting (by decide) (by decide)
  exact ⟨hs, hf, by decide +kernel,
    format_keeps_tags style (Names.counting 256) source t rfl ha hs hf⟩

-- The stray `<%` finds a `%>` where the white space between the two is gone.
theorem format_closes_stray :
    let style : Style := { checker := fun _ => true }
    let source := "<% <p a=% ></p>".toList
    let t := "<%\n<p a=%>\n</p>\n".toList
    format style (Names.counting 64) source = .ok t ∧ Erb.tagsIn source = [] ∧
      (Erb.tagsIn t).map Prod.snd = ["<%\n<p a=%>".toList] := by
  decide +kernel

end ErbLayout.Template
