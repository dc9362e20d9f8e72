import ErbLayout.Proofs.Template.Indentation
import ErbLayout.Proofs.Template.Tags
/-!
What stands in a layout as it stood in the template: the bodies of raw text but for the white space
that ends them, comments and declarations, and the ERB tags inside of markup.
-/

namespace ErbLayout.Text

/-- Texts that stand in a text one behind the other. -/
inductive InOrder : List (List Char) → List Char → Prop
  | nil (s : List Char) : InOrder [] s
  | cons {x : List Char} {xs : List (List Char)} (a : List Char) {s : List Char} :
    InOrder xs s → InOrder (x :: xs) (a ++ (x ++ s))

theorem InOrder.append_left {xs : List (List Char)} {s : List Char} (h : InOrder xs s)
    (a : List Char) : InOrder xs (a ++ s) := by
  cases h with
  | nil s => exact .nil _
  | cons b h =>
    rw [← List.append_assoc]
    exact .cons (a ++ b) h

end ErbLayout.Text

namespace ErbLayout.Placeholder

open Text (Found Framed InOrder)

theorem seam_of_begins {t : Table} {b : List Char} (h : t.Begins b) (a : List Char) : Seam a b := by
  rcases h with ⟨c, r, rfl, hc⟩ | ⟨e, -, r, rfl⟩
  · exact seam_of_head hc a
  · exact seam_of_name_right a e.1 r

theorem seam_of_ends {t : Table} {a : List Char} (h : t.Ends a) (b : List Char) : Seam a b := by
  rcases h with ⟨r, c, rfl, hc⟩ | ⟨e, -, r, rfl⟩
  · exact seam_of_last r hc b
  · exact seam_of_name_left r e.1 b

theorem seam_nil (a : List Char) : Seam a [] := by
  intro n u v hn hu hv hua hvb
  exact hv (List.prefix_nil.1 hvb)

namespace Entries

variable {es : Entries}

/-- What the names in a text stand for stands in the restored text, in order. -/
theorem inOrder_restore (s : List Char) : InOrder ((es.namesIn s).map Prod.snd) (es.restore s) := by
  induction s using scan_induction es with
  | nil => exact .nil _
  | char c s hx ih =>
    have hr : es.restore (c :: s) = [c] ++ es.restore s := congrArg (Found.fill Prod.snd) hx
    rw [namesIn_char hx, hr]
    exact ih.append_left [c]
  | name e he s hx ih =>
    have hr : es.restore (e.1.text ++ s) = [] ++ (e.2 ++ es.restore s) :=
      congrArg (Found.fill Prod.snd) hx
    rw [namesIn_name hx, hr, List.map_cons]
    exact .cons [] ih

/-- Framed texts are restored one by one. -/
theorem inOrder_restored {xs : List (List Char)} {s : List Char} (h : InOrder xs s)
    (hx : ∀ x ∈ xs, Framed x) : InOrder (xs.map es.restore) (es.restore s) := by
  induction h with
  | nil s => exact .nil _
  | cons a h ih =>
    rename_i x xs s
    obtain ⟨⟨u, rfl⟩, hxs⟩ := List.forall_mem_cons.1 hx
    have hstart : es.restore (a ++ ('<' :: u ++ ['>'] ++ s)) =
        es.restore a ++ es.restore ('<' :: u ++ ['>'] ++ s) :=
      restore_append (seam_of_head (by decide) a)
    have hend : es.restore ('<' :: u ++ ['>'] ++ s) =
        es.restore ('<' :: u ++ ['>']) ++ es.restore s :=
      restore_append (seam_of_last ('<' :: u) (by decide) s)
    rw [hstart, hend, List.map_cons]
    exact .cons _ (ih hxs)

end Entries

/-- The ERB tags inside a text of a protected template, as they stand in the template. -/
def Table.tagsWithin (t : Table) (s : List Char) : List (List Char) :=
  (t.codeTags.namesIn s).map fun e => t.lookalikes.restore e.2

theorem Table.inOrder_tagsWithin {t : Table} (h : t.Proper) (s : List Char) :
    InOrder (t.tagsWithin s) (t.restore s) := by
  have hcode : InOrder ((t.codeTags.namesIn s).map Prod.snd) (t.restoreCodeTags s) :=
    Entries.inOrder_restore s
  have hframed : ∀ x ∈ (t.codeTags.namesIn s).map Prod.snd, Framed x := by
    intro x hx
    obtain ⟨e, he, rfl⟩ := List.mem_map.1 hx
    exact h.framed e (Entries.namesIn_mem e he)
  have hall : InOrder (((t.codeTags.namesIn s).map Prod.snd).map t.lookalikes.restore)
      (t.restore s) := Entries.inOrder_restored hcode hframed
  rwa [List.map_map] at hall

theorem Table.tagsWithin_name {t : Table} (h : t.Proper) {e : Name × List Char}
    (he : e ∈ t.codeTags) : t.tagsWithin e.1.text = [t.restore e.1.text] := by
  rw [tagsWithin, Entries.namesIn_text h.distinct he, Table.restore_code h he, List.map_singleton]

theorem Table.restore_append_blank {t : Table} (s : List Char) {g : List Char}
    (hg : Text.allBlank g = true) : t.restore (s ++ g) = t.restore s ++ g := by
  cases g with
  | nil => rw [List.append_nil, List.append_nil]
  | cons c g =>
    rw [Text.allBlank, List.all_cons, Bool.and_eq_true] at hg
    rw [restore_append_cons s (isNameChar_of_isBlank hg.1), restore_allBlank hg.2]

/-- The names in a protected template are those of its tags, in order. -/
theorem Marking.namesIn_working {names : Names} {source : List Char} {ws ts : Marked}
    (h : Marking names source ws ts) :
    (protect names source).table.codeTags.namesIn (protect names source).working =
      (protect names source).table.codeTags := by
  rw [h.working, h.codeTags, Entries.namesIn, h.tags.scan_part List.infix_rfl]

end ErbLayout.Placeholder

namespace ErbLayout.Template

open Layout Markup Placeholder
open Text (InOrder Stands spread allBlank)

theorem namesIn_spread {t : Table} {ps : List (List Char × List Char)} {tail : List Char}
    (es : Entries) (hblank : ∀ p ∈ ps, allBlank p.1 = true) (htail : allBlank tail = true)
    (hseams : ps.IsChain (Seamed t)) :
    es.namesIn (spread ps ++ tail) = ps.flatMap fun p => es.namesIn p.2 := by
  have hf := es.seamwise_namesIn
  induction ps with
  | nil => exact hf.congr ((Text.words_of_allBlank htail).trans Text.words_nil.symm)
  | cons p ps ih =>
    obtain ⟨hp, hps⟩ := List.forall_mem_cons.1 hblank
    have hseam : Seam p.2 (spread ps ++ tail) := by
      rcases seamed_spread hps htail hseams with hnil | he | hb
      · rw [hnil]
        exact seam_nil p.2
      · exact seam_of_ends he _
      · exact seam_of_begins hb p.2
    rw [Text.spread_cons, List.append_assoc, List.append_assoc,
      hf.congr (Text.words_allBlank_append hp _), Entries.namesIn_append hseam,
      ih hps (List.isChain_cons.1 hseams).2, List.flatMap_cons]

/-- The names in a protected template are those in its units. -/
theorem namesIn_ofProtected {p : Protected} (ht : p.table.Proper) (es : Entries) :
    es.namesIn p.working = (Cell.ofProtected p).flatMap fun c => es.namesIn c.item.text := by
  obtain ⟨apart, src, tail, hstands, hwork, htail, -⟩ := reads_ofProtected p
  have hseams := seams_of_stands framing_asWritten (sound_ofProtected ht)
    (joins_ofPieces (Piece.cut_ordered p.working)) hstands
  rw [hwork, namesIn_spread es (blank_of_stands hstands) htail hseams]
  rw [List.forall₂_map_left_iff] at hstands
  refine (flatMap_of_forall₂ hstands fun c _ q hq => ?_).symm
  rw [hq.text]
  rfl

theorem Drawn.tagsWithin {style : Style} {names : Names} {source t : List Char}
    {rows : List Row} (h : Drawn style names source t rows)
    (ha : names.Ample (3 * source.length)) :
    (rows.flatMap fun row => (protect names source).table.tagsWithin row.item.text) =
      (Erb.tagsIn source).map Prod.snd := by
  obtain ⟨ws, ts, hm⟩ := exists_marking ha
  have hnames := namesIn_ofProtected hm.proper (protect names source).table.codeTags
  rw [hm.namesIn_working, ← h.cells, List.flatMap_map] at hnames
  rw [← hm.restore_codeTags, hnames, List.map_flatMap]
  rfl

/-- The tags inside a unit that is no code stand in it as they stand in the template. -/
theorem Row.Fits.tagsWithin {j : Job} {stack : List Opened} {row : Row} (h : row.Fits j stack)
    (ht : j.table.Proper) (hcode : ∀ n text, row.item ≠ .code n text) :
    InOrder (j.table.tagsWithin row.item.text) row.before.2 ∧
      InOrder (j.table.tagsWithin row.item.text) row.after.2 := by
  obtain ⟨x, hset, hx⟩ := h.after
  have hnames : j.table.codeTags.namesIn x = j.table.codeTags.namesIn row.item.text :=
    (hset.written_of_not_code hcode).namesIn h.sound hcode _
  have hsame : j.table.tagsWithin x = j.table.tagsWithin row.item.text :=
    congrArg (List.map _) hnames
  constructor
  · rw [h.before]
    exact Table.inOrder_tagsWithin ht _
  · rw [hx, ← hsame]
    exact Table.inOrder_tagsWithin ht x

theorem Row.Fits.tagsWithin_code {j : Job} {stack : List Opened} {row : Row}
    (h : row.Fits j stack) (ht : j.table.Proper) {n : Name} {text : List Char}
    (hcode : row.item = .code n text) : j.table.tagsWithin row.item.text = [row.before.2] := by
  have hsound := h.sound
  rw [hcode] at hsound
  have hname := Table.tagsWithin_name ht hsound
  rw [h.before, hcode]
  exact hname

theorem Row.Fits.comment {j : Job} {stack : List Opened} {row : Row} (h : row.Fits j stack)
    {text : List Char} (hitem : row.item = .token (.comment text)) :
    row.after.2 = row.before.2 := by
  obtain ⟨x, hset, hx⟩ := h.after
  rw [hitem] at hset
  cases hset with
  | comment => rw [hx, h.before, hitem]; rfl

theorem Row.Fits.body {j : Job} {stack : List Opened} {row : Row} (h : row.Fits j stack)
    {text : List Char} (hitem : row.item = .body text) :
    row.after = ([], j.table.restore text) := by
  obtain ⟨x, hset, hx⟩ := h.after
  have hflush : row.after.1 = [] := h.flush (by rw [hitem]; rfl)
  rw [hitem] at hset
  cases hset with
  | body => exact Prod.ext hflush hx

theorem ofPieces_append_rawText (table : Table) (apart : Bool) (ps ps' : List Piece)
    (name content closeTag : List Char) :
    Cell.ofPieces table apart (ps ++ .rawText name content closeTag :: ps') =
      Cell.ofPieces table apart ps ++
        (Cell.ofRawText name content closeTag ++ Cell.ofPieces table false ps') := by
  induction ps generalizing apart with
  | nil => rw [List.nil_append, Cell.ofPieces, Cell.ofPieces, List.nil_append]
  | cons p ps ih =>
    cases p with
    | gap text => rw [List.cons_append, Cell.ofPieces, Cell.ofPieces, ih, List.append_assoc]
    | token t => rw [List.cons_append, Cell.ofPieces, Cell.ofPieces, ih, List.cons_append]
    | rawText n c ct => rw [List.cons_append, Cell.ofPieces, Cell.ofPieces, ih, List.append_assoc]

/-- A body without the white space that ends it is what is left of the restored body without such
white space. -/
theorem restore_trimRight {names : Names} {source : List Char}
    (ht : (protect names source).table.Proper) (content : List Char) :
    (protect names source).table.restore (Text.trimRight content) =
      Text.trimRight ((protect names source).table.restore content) := by
  obtain ⟨g, hg, hblank, -⟩ := Text.trimRight_append content
  have hend : Text.endsBlank ((protect names source).table.restore (Text.trimRight content)) =
      false :=
    Table.endsBlank_restore ht (plain_lookalikes names source) (Text.endsBlank_trimRight content)
  conv_rhs => rw [hg]
  rw [Table.restore_append_blank _ hblank, Text.trimRight_append_blank hend hblank]

/-- Bodies of raw text stand in a layout as they stand in the template, but for the white space that
ends them; comments and declarations stand there as they are. So do the ERB tags inside of any unit
that is no code, in order; these and the tags that are units are all tags of the template. -/
theorem format_keeps_verbatim (style : Style) (names : Names) (source t : List Char)
    (ha : names.Ample (3 * source.length)) (h : format style names source = .ok t) :
    let p := protect names source
    ∃ rows, Drawn style names source t rows ∧
      (∀ ps name content closeTag ps',
        Piece.cut p.working = ps ++ .rawText name content closeTag :: ps' →
        Piece.Enclosed ps name content closeTag ps' ∧ closeTag ≠ [] ∧
        ∃ pre body close post, rows = pre ++ body :: close :: post ∧
          pre.map Row.cell = Cell.ofPieces p.table false ps ∧
          body.item = .body (Text.trimRight content) ∧ close.item = .rawClose name closeTag ∧
          body.after = ([], Text.trimRight (p.table.restore content))) ∧
      (∀ row ∈ rows, ∀ text, row.item = .token (.comment text) → row.after.2 = row.before.2) ∧
      (rows.flatMap fun row => p.table.tagsWithin row.item.text) =
        (Erb.tagsIn source).map Prod.snd ∧
      (∀ row ∈ rows, ∀ n text, row.item = .code n text →
        p.table.tagsWithin row.item.text = [row.before.2]) ∧
      ∀ row ∈ rows, (∀ n text, row.item ≠ .code n text) →
        InOrder (p.table.tagsWithin row.item.text) row.before.2 ∧
        InOrder (p.table.tagsWithin row.item.text) row.after.2 := by
  intro p
  obtain ⟨ws, ts, hm⟩ := exists_marking ha
  have ht : p.table.Proper := hm.proper
  obtain ⟨rows, hrows⟩ := exists_drawn ha h
  have hfits : ∀ row ∈ rows, ∃ stack, row.Fits ⟨style, p⟩ stack := by
    intro row hrow
    obtain ⟨pre, post, he⟩ := List.append_of_mem hrow
    exact ⟨_, hrows.fits pre row post he⟩
  refine ⟨rows, hrows, ?_, ?_, hrows.tagsWithin ha, ?_, ?_⟩
  · intro ps name content closeTag ps' hcut
    obtain ⟨r, -, -, -, -, hclosed⟩ := printed_of_format h
    have hne : closeTag ≠ [] := by
      rintro rfl
      refine hclosed name content ?_
      rw [hcut]
      exact List.mem_append_right ps List.mem_cons_self
    have hcells := hrows.cells
    rw [Cell.ofProtected, hcut, ofPieces_append_rawText, Cell.ofRawText, if_neg (by simpa using hne),
      List.map_eq_append_iff] at hcells
    obtain ⟨pre, rest, rfl, hpre, hrest⟩ := hcells
    obtain ⟨body, rest, rfl, hbody, hrest⟩ := List.map_eq_cons_iff.1 hrest
    obtain ⟨close, post, rfl, hclose, -⟩ := List.map_eq_cons_iff.1 hrest
    have hitem : body.item = .body (Text.trimRight content) := congrArg Cell.item hbody
    refine ⟨Piece.cut_rawText hcut, hne, pre, body, close, post, rfl, hpre, hitem,
      congrArg Cell.item hclose, ?_⟩
    obtain ⟨stack, hfit⟩ := hfits body (by simp)
    rw [hfit.body hitem]
    exact congrArg (Prod.mk []) (restore_trimRight ht content)
  · intro row hrow text hitem
    obtain ⟨stack, hfit⟩ := hfits row hrow
    exact hfit.comment hitem
  · intro row hrow n text hitem
    obtain ⟨stack, hfit⟩ := hfits row hrow
    exact hfit.tagsWithin_code ht hitem
  · intro row hrow hcode
    obtain ⟨stack, hfit⟩ := hfits row hrow
    exact hfit.tagsWithin ht hcode

theorem format_keeps_verbatim_script :
    let style : Style := { width := 20, checker := fun _ => true }
    let source := "<p id=\"<%=  a %>\"><!-- <%b%>\n  c --> <script>\n  if (<%=\nd%>) \n".toList ++
      "</SCRIPT >e</p>".toList
    let t := "<p id=\"<%=  a %>\">\n  <!-- <%b%>\n  c -->\n  <script>\n  if (<%=\nd%>)\n".toList ++
      "  </script>e</p>\n".toList
    let p := protect (Names.counting 256) source
    format style (Names.counting 256) source = .ok t ∧
      ∃ rows, Drawn style (Names.counting 256) source t rows ∧
        (∀ row ∈ rows, ∀ text, row.item = .token (.comment text) →
          row.after.2 = row.before.2) ∧
        (rows.flatMap fun row => p.table.tagsWithin row.item.text) =
          ["<%=  a %>".toList, "<%b%>".toList, "<%=\nd%>".toList] := by
  intro style source t p
  have hf : format style (Names.counting 256) source = .ok t := by decide +kernel
  have ha : (Names.counting 256).Ample (3 * source.length) :=
    Names.ample_counting (by decide) (by decide)
  obtain ⟨rows, hrows, -, hcomment, htags, -⟩ :=
    format_keeps_verbatim style (Names.counting 256) source t ha hf
  refine ⟨hf, rows, hrows, hcomment, htags.trans ?_⟩
  decide +kernel

end ErbLayout.Template
