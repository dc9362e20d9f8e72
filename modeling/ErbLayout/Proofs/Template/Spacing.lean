import ErbLayout.Proofs.Template.Stretches
/-!
White space is only introduced where it does not show: between two units of a template the layout
has white space exactly when the template has some there, when one of the units is control flow, or
when both are markup and one of them is block-level. The body of a raw text stands between its tags
as a unit of its own, which is neither.
-/

namespace ErbLayout.Template

open Layout Markup Placeholder
open Text (Stands spread allBlank)

/-- A unit with the white space before it and its text, in the template and in the layout. -/
structure Row where
  item : Item
  before : List Char × List Char
  after : List Char × List Char

namespace Row

/-- The unit and whether white space stands before it in the template. -/
def cell (row : Row) : Cell := ⟨!row.before.1.isEmpty, row.item⟩

/-- A row tells the text of a unit and what the layout makes of it. No unit but the body of a raw
text has white space at its ends. -/
structure Shows (j : Job) (row : Row) : Prop where
  sound : row.item.Sound j.table
  before : row.before.2 = j.table.restore row.item.text
  after : ∃ x, Written j row.item x ∧ row.after.2 = j.table.restore x
  blankBefore : allBlank row.before.1 = true
  blankAfter : allBlank row.after.1 = true
  tight : row.item.isBody = false → Tight row.before.2 ∧ Tight row.after.2

/-- Where white space stands between two units of the layout. -/
def Spaced (checker : Ruby.Checker) (a b : Row) : Prop :=
  b.after.1 ≠ [] ↔ b.before.1 ≠ [] ∨ a.item.isControl checker = true ∨
    b.item.isControl checker = true ∨ (a.item.isStructural = true ∧ b.item.isStructural = true ∧
      (a.item.isBlockLevel = true ∨ b.item.isBlockLevel = true))

end Row

variable {j : Job}

theorem exists_rows (ht : j.table.Proper) {cells : List Cell} {src out : List (List Char × List Char)}
    {prev : Option Item} (hs : ∀ c ∈ cells, c.item.Sound j.table)
    (hsrc : List.Forall₂ Stands (cells.map (Cell.entry asWritten)) src)
    (hout : List.Forall₂ (Placed j) (follow prev cells) out) :
    ∃ rows : List Row, rows.map Row.cell = cells ∧
      rows.map Row.before = src.map (restored j.table) ∧
      rows.map Row.after = out.map (restored j.table) ∧ (∀ row ∈ rows, row.Shows j) ∧
      (∀ u ∈ prev, ∀ row ∈ rows.head?, ∀ b a, Row.Spaced j.style.checker ⟨u, b, a⟩ row) ∧
      rows.IsChain (Row.Spaced j.style.checker) := by
  induction cells generalizing prev src out with
  | nil =>
    cases hsrc
    cases hout
    exact ⟨[], rfl, rfl, rfl, by simp, by simp, .nil⟩
  | cons c cs ih =>
    cases hsrc with
    | cons hp hps =>
      cases hout with
      | cons hq hqs =>
        rename_i p ps q qs
        obtain ⟨rows, hcells, hbefore, hafter, hshows, hhead, hchain⟩ :=
          ih (fun c hc => hs c (List.mem_cons_of_mem _ hc)) hps hqs
        have hsound := hs c List.mem_cons_self
        have htext : p.2 = c.item.text := hp.text
        have hrow : (Row.mk c.item (restored j.table p) (restored j.table q)).Shows j := by
          refine ⟨hsound, congrArg j.table.restore htext, ⟨q.2, hq.written, rfl⟩, hp.blank,
            hq.blank, fun hbody => ⟨?_, tight_of_written hq.written hsound hbody⟩⟩
          rw [restored, htext]
          exact tight_restore_text ht hsound hbody
        refine ⟨⟨c.item, restored j.table p, restored j.table q⟩ :: rows, ?_, ?_, ?_, ?_, ?_, ?_⟩
        · rw [List.map_cons, hcells]
          refine congrArg (· :: cs) ?_
          have happart : c.apart = !p.1.isEmpty := by
            rw [Bool.eq_iff_iff]
            simpa [Cell.entry] using hp.apart
          rw [Row.cell, restored, ← happart]
        · rw [List.map_cons, hbefore, List.map_cons]
        · rw [List.map_cons, hafter, List.map_cons]
        · exact List.forall_mem_cons.2 ⟨hrow, hshows⟩
        · intro u hu row hr b a
          obtain rfl : _ = row := by simpa using hr
          have hsep := hq.apart u hu
          have hapart := hp.apart
          rw [Row.Spaced]
          simp only [separated, Cell.entry, restored, Bool.or_eq_true, Bool.and_eq_true] at *
          rw [hsep, hapart, or_assoc, or_assoc, and_assoc]
        · rw [List.isChain_cons]
          exact ⟨fun row hr => hhead c.item rfl row hr _ _, hchain⟩

/-- The units of a template and of its layout, in order. -/
structure Paired (style : Style) (names : Names) (source t : List Char) (rows : List Row) : Prop where
  cells : rows.map Row.cell = Cell.ofProtected (protect names source)
  input : ∃ tail, source = spread (rows.map Row.before) ++ tail ∧ allBlank tail = true
  output : t = spread (rows.map Row.after) ++ ['\n']
  start : ∀ row ∈ rows.head?, row.after.1 = []
  shows : ∀ row ∈ rows, row.Shows ⟨style, protect names source⟩

theorem Paired.items {style : Style} {names : Names} {source t : List Char} {rows : List Row}
    (h : Paired style names source t rows) :
    rows.map Row.item = (Cell.ofProtected (protect names source)).map Cell.item := by
  rw [← h.cells, List.map_map]
  rfl

theorem exists_paired {style : Style} {names : Names} {source t : List Char}
    {src out : List (List Char × List Char)} (ha : names.Ample (3 * source.length))
    (h : Matches style names source t src out) : ∃ rows, Paired style names source t rows ∧
      rows.map Row.after = out.map (restored (protect names source).table) ∧
      rows.IsChain (Row.Spaced style.checker) := by
  obtain ⟨ws, ts, hm⟩ := exists_marking ha
  obtain ⟨tail, htail, hsource⟩ := h.input
  have hproper : (Job.mk style (protect names source)).table.Proper := hm.proper
  obtain ⟨rows, hcells, hbefore, hafter, hshows, -, hchain⟩ :=
    exists_rows hproper (sound_ofProtected hm.proper) h.stands h.placed
  refine ⟨rows, ⟨hcells, ⟨tail, ?_, htail⟩, ?_, ?_, hshows⟩, hafter, hchain⟩
  · rw [hbefore]
    exact hsource
  · rw [hafter]
    exact h.output
  · intro row hr
    cases rows with
    | nil => simp at hr
    | cons r rows =>
      obtain rfl : r = row := by simpa using hr
      cases out with
      | nil => simp at hafter
      | cons q qs =>
        rw [List.map_cons, List.map_cons, List.cons.injEq] at hafter
        rw [hafter.1]
        exact h.start q rfl

/-- The units of a template, in order, are those of its layout. White space stands between two of
them in the layout exactly where the rule has it. -/
theorem format_separates (style : Style) (names : Names) (source t : List Char)
    (hp : style.reformatter = Ruby.passThrough) (ha : names.Ample (3 * source.length))
    (h : format style names source = .ok t) :
    let p := protect names source
    ∃ rows : List Row, ∃ tail, rows.map Row.item = (Cell.ofProtected p).map Cell.item ∧
      source = spread (rows.map Row.before) ++ tail ∧ allBlank tail = true ∧
      t = spread (rows.map Row.after) ++ ['\n'] ∧ (∀ row ∈ rows.head?, row.after.1 = []) ∧
      (∀ row ∈ rows, row.Shows ⟨style, p⟩) ∧ rows.IsChain (Row.Spaced style.checker) := by
  intro p
  obtain ⟨src, out, hmatch⟩ := exists_matches hp ha h
  obtain ⟨rows, hrows, -, hchain⟩ := exists_paired ha hmatch
  obtain ⟨tail, hsource, htail⟩ := hrows.input
  exact ⟨rows, tail, hrows.items, hsource, htail, hrows.output, hrows.start, hrows.shows, hchain⟩

theorem format_separates_inline :
    let style : Style := { checker := fun code => code != "if x".toList }
    let source := "a<b>c </b><% if x %>d<% end %>e".toList
    let t := "a<b>c\n</b>\n<% if x %>\n  d\n<% end %>\ne\n".toList
    format style (Names.counting 128) source = .ok t ∧
      ∃ rows : List Row, t = spread (rows.map Row.after) ++ ['\n'] ∧
        rows.IsChain (Row.Spaced style.checker) := by
  intro style source t
  have hf : format style (Names.counting 128) source = .ok t := by decide +kernel
  have ha : (Names.counting 128).Ample (3 * source.length) :=
    Names.ample_counting (by decide) (by decide)
  obtain ⟨rows, -, -, -, -, hout, -, -, hchain⟩ :=
    format_separates style (Names.counting 128) source t rfl ha hf
  exact ⟨hf, rows, hout, hchain⟩

end ErbLayout.Template
