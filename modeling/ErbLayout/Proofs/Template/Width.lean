import ErbLayout.Proofs.Template.Spacing
/-!
The width of the layout: as long as there is room for text, a line with white space between two
words of text ends inside the margin, unless the body of a raw text begins on it. A longer line is
one run without such a space.
-/

namespace ErbLayout.Template

open Layout Markup Placeholder
open Text (firstLine lastLine spread allBlank)

theorem newline_mem_restore {t : Table} {s : List Char} (h : '\n' ∈ s) : '\n' ∈ t.restore s := by
  obtain ⟨a, b, rfl⟩ := List.append_of_mem h
  rw [Table.restore_append_cons a (by decide) b]
  simp

theorem length_lastLine_restore {t : Table} {s : List Char} (h : '\n' ∈ s) :
    (lastLine (t.restore s)).length ≤ t.restoredLength (lastLine s) := by
  obtain ⟨b, hb⟩ := Text.exists_lastLine h
  conv_lhs => rw [hb, Table.restore_append_cons b (by decide), List.append_cons]
  have hle := Text.length_lastLine_append_le (t.restore b ++ ['\n']) (t.restore (lastLine s))
  rwa [Text.lastLine_append_of_mem (t.restore b) List.mem_cons_self,
    show (lastLine ['\n']).length = 0 from rfl, Nat.zero_add] at hle

theorem length_firstLine_restore {t : Table} {s : List Char} (h : '\n' ∈ s) :
    (firstLine (t.restore s)).length ≤ t.restoredLength (firstLine s) := by
  obtain ⟨b, hb⟩ := Text.exists_firstLine h
  conv_lhs => rw [hb, Table.restore_append_cons (firstLine s) (by decide)]
  have hle := Text.length_firstLine_append_le (t.restore (firstLine s)) ('\n' :: t.restore b)
  rwa [show firstLine ('\n' :: t.restore b) = [] from rfl, List.length_nil] at hle

theorem firstLine_restore_entries {es : Entries} (hes : ∀ e ∈ es, firstLine e.2 ≠ [])
    {s : List Char} (hs : firstLine s ≠ []) : firstLine (es.restore s) ≠ [] := by
  cases s with
  | nil => exact absurd rfl hs
  | cons c s =>
    cases hr : es.read (c :: s) with
    | none =>
      have hc : c ≠ '\n' := by
        rintro rfl
        exact hs rfl
      rw [Entries.restore, Text.scan_cons_of_none hr]
      simp [firstLine, hc]
    | some p =>
      rw [Entries.restore, Text.scan_of_some (by rw [Entries.read_size hr]; decide) hr (by simp),
        Text.Found.fill_value]
      exact Text.firstLine_append_ne_nil (hes p.1 (Entries.read_mem hr)) _

theorem firstLine_restore {t : Table} (h : t.Proper) {s : List Char} (hs : firstLine s ≠ []) :
    firstLine (t.restore s) ≠ [] := by
  refine firstLine_restore_entries (fun e he => ?_) (firstLine_restore_entries (fun e he => ?_) hs)
  · have hw := h.solid e he
    rw [Text.firstLine_of_not_mem (newline_not_mem_of_word hw)]
    exact hw.ne_nil
  · obtain ⟨u, hu⟩ := h.framed e he
    rw [hu]
    simp [firstLine]

variable {j : Job}

/-- The text of leaves in the end. -/
def shown (t : Table) (ls : List Leaf) : List Char :=
  spread ((ls.map Leaf.stretch).map (restored t))

theorem shown_cons (t : Table) (l : Leaf) (ls : List Leaf) :
    shown t (l :: ls) = l.gap ++ (t.restore l.text ++ shown t ls) := by
  simp [shown, restored, Leaf.stretch]

/-- Behind some text, leaves end no further right than they were measured. -/
theorem length_lastLine_shown {ls : List Leaf} (hblank : ∀ l ∈ ls, allBlank l.gap = true)
    {before : List Char} {column : Nat} (h : (lastLine before).length ≤ column) :
    (lastLine (before ++ shown j.table ls)).length ≤ reach j.len column ls := by
  induction ls generalizing before column with
  | nil => simpa [shown, reach] using h
  | cons l ls ih =>
    have hgap := len_of_allBlank (j := j) (hblank l List.mem_cons_self)
    rw [shown_cons, ← List.append_assoc, ← List.append_assoc]
    refine ih (fun m hm => hblank m (List.mem_cons_of_mem l hm)) ?_
    unfold advance
    by_cases htext : '\n' ∈ l.text
    · rw [if_pos htext, Text.lastLine_append_of_mem _ (newline_mem_restore htext)]
      exact length_lastLine_restore htext
    · rw [if_neg htext]
      refine (Text.length_lastLine_append_le _ _).trans ?_
      change (lastLine (before ++ l.gap)).length + j.len l.text ≤ _
      by_cases hbreak : '\n' ∈ l.gap
      · have hlast : allBlank (lastLine l.gap) = true := by
          obtain ⟨b, hb⟩ := Text.exists_lastLine hbreak
          have hall := hblank l List.mem_cons_self
          rw [hb, List.append_cons, Text.allBlank_append, Bool.and_eq_true] at hall
          exact hall.2
        rw [if_pos hbreak, Text.lastLine_append_of_mem _ hbreak, len_of_allBlank hlast]
      · have hle := Text.length_lastLine_append_le before l.gap
        rw [if_neg hbreak, hgap]
        omega

/-- The line on which leaves begin ends no further right than it was measured. -/
theorem length_firstLine_shown {ls : List Leaf} (hblank : ∀ l ∈ ls, allBlank l.gap = true)
    (column : Nat) : column + (firstLine (shown j.table ls)).length ≤ lineEnd j.len column ls := by
  induction ls generalizing column with
  | nil => exact le_rfl
  | cons l ls ih =>
    have hrest := ih fun m hm => hblank m (List.mem_cons_of_mem l hm)
    have hgap := len_of_allBlank (j := j) (hblank l List.mem_cons_self)
    have hflush := Text.length_firstLine_append_le l.gap
      (j.table.restore l.text ++ shown j.table ls)
    rw [shown_cons, lineEnd]
    by_cases hbreak : '\n' ∈ l.gap
    · have hfirst : allBlank (firstLine l.gap) = true := by
        obtain ⟨b, hb⟩ := Text.exists_firstLine hbreak
        have hall := hblank l List.mem_cons_self
        rw [hb, Text.allBlank_append, Bool.and_eq_true] at hall
        exact hall.1
      rw [if_pos hbreak, Text.firstLine_append_of_mem hbreak, len_of_allBlank hfirst]
    · rw [if_neg hbreak]
      by_cases htext : '\n' ∈ l.text
      · have hline := length_firstLine_restore (t := j.table) htext
        rw [Text.firstLine_append_of_mem (newline_mem_restore htext)] at hflush
        rw [if_pos htext, Nat.add_assoc, hgap]
        change _ ≤ j.len (firstLine l.text) at hline
        omega
      · have hline := Text.length_firstLine_append_le (j.table.restore l.text) (shown j.table ls)
        have hnext := hrest (column + j.len l.gap + j.len l.text)
        change _ ≤ j.len l.text + _ at hline
        rw [if_neg htext, advance, if_neg htext, if_neg hbreak]
        omega

/-- A line of leaves that fit stays inside the margin if it has a space between words, unless copied
text begins behind the space. -/
theorem length_line_shown {width : Int} {pre post : List Leaf} {l : Leaf} (ht : j.table.Proper)
    (hblank : ∀ m ∈ pre ++ l :: post, allBlank m.gap = true) (hl : l.Spaced)
    (h : Fitting j.len width 0 (pre ++ l :: post)) :
    ((lastLine (shown j.table pre) ++ firstLine (shown j.table (l :: post))).length : Int) ≤ width ∨
      ∃ mid m post', l :: post = mid ++ m :: post' ∧ m.copied = true ∧
        '\n' ∉ shown j.table mid ∧ '\n' ∉ m.gap ∧ firstLine (j.table.restore m.text) ≠ [] := by
  obtain ⟨hpre, hpost⟩ := List.forall_mem_append.1 hblank
  have hbefore := length_lastLine_shown (j := j) hpre (show (lastLine []).length ≤ 0 from le_rfl)
  rw [List.nil_append] at hbefore
  rw [List.length_append]
  rcases (h.at_spaced pre hl).2 with
    hend | ⟨mid, m, post', he, hflat, hreach, hcopied, hgap, hfirst⟩
  · have hafter := length_firstLine_shown (j := j) hpost (reach j.len 0 pre)
    exact .inl (by omega)
  · -- A line feed that was measured as a column, in a tag of several lines, ends the line early.
    by_cases hbreak : '\n' ∈ shown j.table mid
    · rw [he] at hpost ⊢
      have hmid := length_spread_restored (j := j) (List.forall_mem_append.1 hpost).1 hflat
        (reach j.len 0 pre)
      have hline : firstLine (shown j.table (mid ++ m :: post')) =
          firstLine (shown j.table mid) := by
        rw [shown, List.map_append, List.map_append, Text.spread_append]
        exact Text.firstLine_append_of_mem hbreak _
      have hle : (firstLine (shown j.table mid)).length ≤ (shown j.table mid).length :=
        (List.takeWhile_prefix _).length_le
      rw [hline]
      change _ + (shown j.table mid).length = _ at hmid
      exact .inl (by omega)
    · exact .inr ⟨mid, m, post', he, hcopied, hbreak, hgap, firstLine_restore ht hfirst⟩

/-- The line of the layout on which units stand before and behind a place. -/
def Row.line (before after : List Row) : List Char :=
  lastLine (spread (before.map Row.after)) ++ firstLine (spread (after.map Row.after))

/-- The body of a raw text begins on the line on which units begin. -/
def Row.BodyBegins (rows : List Row) : Prop :=
  ∃ mid body rest, rows = mid ++ body :: rest ∧ body.item.isBody = true ∧
    '\n' ∉ spread (mid.map Row.after) ++ body.after.1 ∧ firstLine body.after.2 ≠ []

/-- A leaf as it is shown, with its mark. -/
def mark (t : Table) (l : Leaf) : Bool × List Char × List Char := (l.copied, restored t l.stretch)

def Row.mark (row : Row) : Bool × List Char × List Char := (row.item.isBody, row.after)

theorem map_mark_leaves {t : Table} {cells : List Cell} {out : List (List Char × List Char)}
    {rows : List Row} (hcells : rows.map Row.item = cells.map Cell.item)
    (hafter : rows.map Row.after = out.map (restored t)) :
    (leaves (marks cells) out).map (mark t) = rows.map Row.mark := by
  have hmarks : marks cells = rows.map (·.item.isBody) := by
    have hbodies := congrArg (List.map Item.isBody) hcells.symm
    rwa [List.map_map, List.map_map] at hbodies
  have hrows : rows.map Row.mark = List.zip (marks cells) (out.map (restored t)) := by
    rw [hmarks, ← hafter, List.zip_map']
    rfl
  rw [hrows, leaves, List.map_zipWith, List.zip_map_right, List.zip, List.map_zipWith]
  rfl

theorem shown_eq {t : Table} {ls : List Leaf} {rows : List Row}
    (h : ls.map (mark t) = rows.map Row.mark) : shown t ls = spread (rows.map Row.after) := by
  have hsnd := congrArg (List.map Prod.snd) h
  rw [List.map_map, List.map_map] at hsnd
  rw [shown, List.map_map]
  exact congrArg spread hsnd

theorem bodyBegins_of_marks {t : Table} {mid post : List Leaf} {m : Leaf} {rows : List Row}
    (h : (mid ++ m :: post).map (mark t) = rows.map Row.mark) (hcopied : m.copied = true)
    (hmid : '\n' ∉ shown t mid) (hgap : '\n' ∉ m.gap) (hfirst : firstLine (t.restore m.text) ≠ []) :
    Row.BodyBegins rows := by
  rw [List.map_append, List.map_cons] at h
  obtain ⟨mid', rest, rfl, hmid', hrest⟩ := List.map_eq_append_iff.1 h.symm
  obtain ⟨body, rest', rfl, hbody, -⟩ := List.map_eq_cons_iff.1 hrest
  have hmark : body.item.isBody = m.copied := congrArg Prod.fst hbody
  have hbodygap : body.after.1 = m.gap := congrArg (·.2.1) hbody
  have hbodytext : body.after.2 = t.restore m.text := congrArg (·.2.2) hbody
  refine ⟨mid', body, rest', rfl, hmark.trans hcopied, ?_, hbodytext ▸ hfirst⟩
  rw [← shown_eq hmid'.symm, hbodygap, List.mem_append]
  exact not_or.2 ⟨hmid, hgap⟩

theorem length_line_of_marks {width : Int} {ls : List Leaf} {before after : List Row} {b : Row}
    (ht : j.table.Proper) (hblank : ∀ l ∈ ls, allBlank l.gap = true)
    (hmarks : ls.map (mark j.table) = (before ++ b :: after).map Row.mark)
    (hfits : Fitting j.len width 0 ls) (hapart : b.after.1 ≠ []) (hflat : '\n' ∉ b.after.1) :
    ((Row.line before (b :: after)).length : Int) ≤ width ∨ Row.BodyBegins (b :: after) := by
  rw [List.map_append] at hmarks
  obtain ⟨pre, ls', rfl, hpre, hpost⟩ := List.map_eq_append_iff.1 hmarks
  obtain ⟨l, post, rfl, hl, -⟩ := List.map_eq_cons_iff.1 (hpost.trans List.map_cons)
  have hgap : l.gap = b.after.1 := congrArg (·.2.1) hl
  have hspaced : l.Spaced := by
    rw [Leaf.Spaced, hgap]
    exact ⟨hapart, hflat⟩
  rcases length_line_shown ht hblank hspaced hfits with
    hline | ⟨mid, m, rest, he, hcopied, hmid, hflush, hfirst⟩
  · left
    rwa [Row.line, ← shown_eq hpre, ← shown_eq hpost]
  · exact .inr (bodyBegins_of_marks (he ▸ hpost) hcopied hmid hflush hfirst)

theorem line_mem_output {style : Style} {names : Names} {source t : List Char}
    {before after : List Row} (h : Paired style names source t (before ++ after)) :
    Row.line before after ∈ Text.splitOn '\n' t := by
  have hline := Text.line_mem_splitOn (spread (before.map Row.after))
    (spread (after.map Row.after) ++ ['\n'])
  rw [← List.append_assoc, ← Text.spread_append, ← List.map_append, ← h.output] at hline
  have hfirst : firstLine (spread (after.map Row.after) ++ ['\n']) =
      firstLine (spread (after.map Row.after)) := by
    by_cases hbreak : '\n' ∈ spread (after.map Row.after)
    · rw [Text.firstLine_append_of_mem hbreak]
    · rw [Text.firstLine_append_cons hbreak, Text.firstLine_of_not_mem hbreak]
  rwa [hfirst] at hline

/-- The layout keeps the width: if more columns than the readability floor are left wherever text is
written, then every line with white space between two units, such as two words of text, stays inside
the width, unless the body of a raw text begins on it behind the white space. -/
theorem format_keeps_width (style : Style) (names : Names) (source t : List Char)
    (hp : style.reformatter = Ruby.passThrough) (ha : names.Ample (3 * source.length))
    (hroomy : Roomy style (Cell.ofProtected (protect names source)))
    (h : format style names source = .ok t) :
    ∃ rows, Paired style names source t rows ∧
      ∀ before after a b, rows = before ++ a :: b :: after → b.after.1 ≠ [] → '\n' ∉ b.after.1 →
        Row.line (before ++ [a]) (b :: after) ∈ Text.splitOn '\n' t ∧
          (((Row.line (before ++ [a]) (b :: after)).length : Int) ≤ style.width ∨
            Row.BodyBegins (b :: after)) := by
  obtain ⟨src, out, hmatch⟩ := exists_matches hp ha h
  obtain ⟨rows, hrows, hafter, -⟩ := exists_paired ha hmatch
  obtain ⟨_, _, hm⟩ := exists_marking ha
  refine ⟨rows, hrows, ?_⟩
  rintro before after a b rfl hapart hflat
  have hmarks := map_mark_leaves hrows.items hafter
  rw [List.append_cons] at hrows hmarks
  have hblank : ∀ l ∈ leaves (marks (Cell.ofProtected (protect names source))) out,
      allBlank l.gap = true := by
    intro l hl
    refine blank_of_placed hmatch.placed l.stretch ?_
    rw [← map_stretch_leaves (length_marks hmatch.placed)]
    exact List.mem_map_of_mem hl
  exact ⟨line_mem_output hrows, length_line_of_marks (j := ⟨style, protect names source⟩) hm.proper
    hblank hmarks (hmatch.fits hroomy) hapart hflat⟩

theorem format_keeps_width_glued :
    let style : Style := { width := 46, checker := fun _ => true }
    let source := "<p>Words are wrapped here, and room (<b>glued</b><i>on</i>) is made.</p>".toList
    let t := "<p>Words are wrapped here, and room\n  (<b>glued</b><i>on</i>) is made.</p>\n".toList
    format style (Names.counting 256) source = .ok t ∧
      Roomy style (Cell.ofProtected (protect (Names.counting 256) source)) ∧
      ∃ rows, Paired style (Names.counting 256) source t rows ∧
        ∀ before after a b, rows = before ++ a :: b :: after → b.after.1 ≠ [] → '\n' ∉ b.after.1 →
          Row.line (before ++ [a]) (b :: after) ∈ Text.splitOn '\n' t ∧
            (((Row.line (before ++ [a]) (b :: after)).length : Int) ≤ style.width ∨
              Row.BodyBegins (b :: after)) := by
  intro style source t
  have hf : format style (Names.counting 256) source = .ok t := by decide +kernel
  have hroomy : Roomy style (Cell.ofProtected (protect (Names.counting 256) source)) := by
    decide +kernel
  have ha : (Names.counting 256).Ample (3 * source.length) :=
    Names.ample_counting (by decide) (by decide)
  exact ⟨hf, hroomy, format_keeps_width style (Names.counting 256) source t rfl ha hroomy hf⟩

end ErbLayout.Template
