import ErbLayout.Proofs.Template.Printing
import ErbLayout.Proofs.Template.Spacing
/-!
A template and its layout unit by unit, whatever reformats its code: what is open around each unit,
what the unit is written as, and the white space before it.
-/

namespace ErbLayout.Template

open Layout Markup Placeholder
open Text (Stands spread allBlank startsBlank endsBlank)

/-- What is open around a unit behind other units. -/
def Row.around (checker : Ruby.Checker) (pre : List Row) (row : Row) : List Opened :=
  row.item.around checker (openedBy checker [] (pre.map Row.item))

/-- A row tells the text of a unit and what the layout makes of it where so much is open around it.
No unit but the body of a raw text has white space at its ends, and such a body stands behind
none. -/
structure Row.Fits (j : Job) (stack : List Opened) (row : Row) : Prop where
  sound : row.item.Sound j.table
  before : row.before.2 = j.table.restore row.item.text
  after : ∃ x, Typeset j stack.length row.item x ∧ row.after.2 = j.table.restore x
  blankBefore : allBlank row.before.1 = true
  margin : Margin stack.length row.after.1
  flush : row.item.isBody = true → row.after.1 = []
  tight : row.item.isBody = false → Tight row.before.2 ∧ Tight row.after.2

/-- The units of a template and of its layout, in order. Each finds open what it ends, and nothing
is open behind the last. -/
structure Drawn (style : Style) (names : Names) (source t : List Char) (rows : List Row) :
    Prop where
  cells : rows.map Row.cell = Cell.ofProtected (protect names source)
  input : ∃ tail, source = spread (rows.map Row.before) ++ tail ∧ allBlank tail = true
  output : t = spread (rows.map Row.after) ++ ['\n']
  start : ∀ row ∈ rows.head?, row.after.1 = []
  fits : ∀ pre row post, rows = pre ++ row :: post →
    row.Fits ⟨style, protect names source⟩ (row.around style.checker pre)
  matched : Matched style.checker [] (rows.map Row.item)
  closed : openedBy style.checker [] (rows.map Row.item) = []

/-- A row behind another one: white space stands between them in the layout where the rule has it, and
a space alone only between words. -/
structure Row.Follows (checker : Ruby.Checker) (a b : Row) : Prop where
  spaced : Row.Spaced checker a b
  space : b.after.1 = [' '] → a.item.isWord = true ∧ b.item.isWord = true

theorem Drawn.items {style : Style} {names : Names} {source t : List Char} {rows : List Row}
    (h : Drawn style names source t rows) :
    rows.map Row.item = (Cell.ofProtected (protect names source)).map Cell.item := by
  rw [← h.cells, List.map_map]
  rfl

variable {j : Job}

theorem trim_spread_of_tight {ps : List (List Char × List Char)} {tail : List Char}
    (hblank : ∀ p ∈ ps, allBlank p.1 = true) (htail : allBlank tail = true)
    (hhead : ∀ p ∈ (flush ps).head?, Tight p.2) (hlast : ∀ p ∈ (flush ps).getLast?, Tight p.2) :
    Text.trim (spread ps ++ tail) = spread (flush ps) := by
  cases ps with
  | nil => exact Text.trim_between (g := []) (m := []) rfl htail rfl rfl
  | cons p ps =>
    have htight : Tight p.2 := hhead ([], p.2) rfl
    have hend : endsBlank (p.2 ++ spread ps) = false := by
      rcases List.eq_nil_or_concat ps with rfl | ⟨qs, q, rfl⟩
      · simpa using htight.finish
      · have hq : Tight q.2 := hlast q (by simp [flush, List.getLast?_cons])
        rw [List.concat_eq_append, Text.spread_append, Text.spread_cons, Text.spread_nil,
          List.append_nil, ← List.append_assoc, ← List.append_assoc]
        exact (Text.endsBlank_append hq.ne_nil).trans hq.finish
    have htrim := Text.trim_between (g := p.1) (hblank p List.mem_cons_self) htail
      ((Text.startsBlank_append htight.ne_nil).trans htight.start) hend
    simpa [flush] using htrim

theorem flush_restored (t : Table) (ps : List (List Char × List Char)) :
    flush (ps.map (restored t)) = (flush ps).map (restored t) := by
  cases ps <;> rfl

theorem exists_fitting (ht : j.table.Proper) {cells : List Cell} {stack : List Opened}
    {src out : List (List Char × List Char)} (hs : ∀ c ∈ cells, c.item.Sound j.table)
    (hsrc : List.Forall₂ Stands (cells.map (Cell.entry asWritten)) src)
    (hout : List.Forall₂ (Lain j) (surround j.style.checker stack cells) out) :
    ∃ rows : List Row, rows.map Row.cell = cells ∧
      rows.map Row.before = src.map (restored j.table) ∧
      rows.map Row.after = out.map (restored j.table) ∧
      ∀ pre row post, rows = pre ++ row :: post → row.Fits j
        (row.item.around j.style.checker (openedBy j.style.checker stack (pre.map Row.item))) := by
  induction cells generalizing stack src out with
  | nil =>
    cases hsrc
    cases hout
    exact ⟨[], rfl, rfl, rfl, by simp⟩
  | cons c cs ih =>
    cases hsrc with
    | cons hp hps =>
      cases hout with
      | cons hq hqs =>
        rename_i p ps q qs
        obtain ⟨rows, hcells, hbefore, hafter, hfits⟩ :=
          ih (fun c hc => hs c (List.mem_cons_of_mem _ hc)) hps hqs
        have hsound := hs c List.mem_cons_self
        have htext : p.2 = c.item.text := hp.text
        have hrow : (Row.mk c.item (restored j.table p) (restored j.table q)).Fits j
            (c.item.around j.style.checker stack) := by
          refine ⟨hsound, congrArg j.table.restore htext, ⟨q.2, hq.typeset, rfl⟩, hp.blank,
            hq.margin, hq.flush, fun hbody => ⟨?_, tight_of_typeset hq.typeset hsound hbody⟩⟩
          rw [restored, htext]
          exact tight_restore_text ht hsound hbody
        refine ⟨⟨c.item, restored j.table p, restored j.table q⟩ :: rows, ?_, ?_, ?_, ?_⟩
        · have happart : c.apart = !p.1.isEmpty := by
            rw [Bool.eq_iff_iff]
            simpa [Cell.entry] using hp.apart
          rw [List.map_cons, hcells, Row.cell, restored, ← happart]
        · rw [List.map_cons, hbefore, List.map_cons]
        · rw [List.map_cons, hafter, List.map_cons]
        · intro pre row post he
          cases pre with
          | nil =>
            obtain ⟨rfl, -⟩ := List.cons.inj he
            exact hrow
          | cons r pre =>
            obtain ⟨rfl, hrest⟩ := List.cons.inj he
            exact hfits pre row post hrest

theorem lain_flush {checker : Ruby.Checker} {stack : List Opened} {cells : List Cell}
    {ps : List (List Char × List Char)}
    (h : List.Forall₂ (Lies j) (surround checker stack cells) ps) :
    List.Forall₂ (Lain j) (surround checker stack cells) (flush ps) := by
  cases cells with
  | nil =>
    cases h
    exact .nil
  | cons c cs =>
    cases h with
    | cons hp hps =>
      exact .cons ⟨hp.typeset, .none, plain_nil, fun _ => rfl⟩ (hps.imp fun _ _ hq => hq.toLain)

theorem parted_flush {checker : Ruby.Checker} {cells : List Cell}
    {ps : List (List Char × List Char)}
    (h : List.Forall₂ (Parted checker) (follow none cells) ps) :
    List.Forall₂ (Parted checker) (follow none cells) (flush ps) := by
  cases cells with
  | nil =>
    cases h
    exact .nil
  | cons c cs =>
    cases h with
    | cons hp hps => exact .cons ⟨by simp, by simp⟩ hps

theorem Row.spaced_iff {checker : Ruby.Checker} {a b : Row} :
    Row.Spaced checker a b ↔ (b.after.1 ≠ [] ↔ separated checker a.item b.cell = true) := by
  simp [Row.Spaced, separated, Row.cell, or_assoc, and_assoc]

theorem follows_of_parted {checker : Ruby.Checker} {t : Table} {rows : List Row}
    {ps : List (List Char × List Char)} (prev : Option Row)
    (h : List.Forall₂ (Parted checker) (follow (prev.map Row.item) (rows.map Row.cell)) ps)
    (hafter : rows.map Row.after = ps.map (restored t)) :
    (prev.toList ++ rows).IsChain (Row.Follows checker) := by
  induction rows generalizing prev ps with
  | nil => cases prev <;> simp
  | cons row rows ih =>
    cases h with
    | cons hp hps =>
      rename_i p ps
      obtain ⟨hrow, hrows⟩ := List.cons.inj hafter
      have hgap : row.after.1 = p.1 := by rw [hrow, restored]
      have hrest := ih (some row) hps hrows
      cases prev with
      | none => exact hrest
      | some u =>
        refine .cons_cons ⟨Row.spaced_iff.2 (hgap ▸ hp.apart u.item rfl), fun hspace => ?_⟩ hrest
        obtain ⟨⟨i, hi, hword⟩, hcell⟩ := hp.space (hgap ▸ hspace)
        exact ⟨(Option.some.inj hi).symm ▸ hword, hcell⟩

theorem rows_ends {rows : List Row} {cells : List Cell}
    (hcells : rows.map Row.cell = cells)
    (hfits : ∀ row ∈ rows, row.item.isBody = false → Tight row.after.2)
    (hhead : ∀ c ∈ cells.head?, c.item.isBody = false)
    (hlast : ∀ i ∈ lastItem none cells, i.isBody = false) :
    (∀ p ∈ (rows.map Row.after).head?, Tight p.2) ∧
      ∀ p ∈ (rows.map Row.after).getLast?, Tight p.2 := by
  subst hcells
  constructor
  · intro p hp
    rw [List.head?_map, Option.mem_map] at hp
    obtain ⟨row, hrow, rfl⟩ := hp
    refine hfits row (List.mem_of_mem_head? hrow) (hhead row.cell ?_)
    rw [List.head?_map, Option.mem_map]
    exact ⟨row, hrow, rfl⟩
  · intro p hp
    rw [List.getLast?_map, Option.mem_map] at hp
    obtain ⟨row, hrow, rfl⟩ := hp
    obtain ⟨rs, rfl⟩ := List.getLast?_eq_some_iff.1 hrow
    refine hfits row (by simp) (hlast row.item ?_)
    rw [List.map_append, lastItem_append]
    rfl

/-- A template that is laid out was printed to its end: what it opens is closed, its raw texts
too. -/
theorem printed_of_format {style : Style} {names : Names} {source t : List Char}
    (h : format style names source = .ok t) :
    let j : Job := ⟨style, protect names source⟩
    let cells := Cell.ofProtected (protect names source)
    ∃ r, t = Job.finish j r ∧ (∃ out tail, Print j r.buffer cells out tail) ∧
      stackOf j cells = [] ∧ Matched style.checker [] (cells.map Cell.item) ∧
      ∀ name content, .rawText name content [] ∉ Piece.cut (protect names source).working := by
  intro j cells
  obtain ⟨r, hrun, rfl⟩ := run_of_format h
  have hframed : ∀ t, .token t ∈ Piece.cut (protect names source).working →
      Text.Framed t.text := by
    intro t ht
    obtain ⟨s, hr⟩ := Piece.mem_cut_token ht
    exact Token.readAny_framed hr
  obtain ⟨_, rfl, hprint, hclosed, hmatched, hraw⟩ := (past_start j).pieces
    (Piece.cut_ordered (protect names source).working) hframed (holding_none _) hrun
  exact ⟨r, rfl, hprint, hclosed, hmatched, hraw⟩

/-- A template that is laid out has its units. All white space between those of the layout is plain,
and it stands where the rule has it. -/
theorem exists_spaced_drawn {style : Style} {names : Names} {source t : List Char}
    (ha : names.Ample (3 * source.length)) (h : format style names source = .ok t) :
    ∃ rows, Drawn style names source t rows ∧ (∀ row ∈ rows, Plain row.after.1) ∧
      rows.IsChain (Row.Follows style.checker) := by
  obtain ⟨ws, ts, hm⟩ := exists_marking ha
  have hproper : (Job.mk style (protect names source)).table.Proper := hm.proper
  have hsound := sound_ofProtected hm.proper
  have hordered := Piece.cut_ordered (protect names source).working
  have hjoins : (Cell.ofProtected (protect names source)).IsChain Cell.Joins :=
    joins_ofPieces hordered
  -- the source
  obtain ⟨apart, src, tail, hstands, hwork, htail, -⟩ := reads_ofProtected (protect names source)
  have hsource : source = spread (src.map (restored (protect names source).table)) ++ tail := by
    rw [← restore_spread hm.proper (blank_of_stands hstands) htail
      (seams_of_stands framing_asWritten hsound hjoins hstands), ← hwork, hm.restore_working]
  -- the layout
  obtain ⟨r, rfl, ⟨out, tail', hprint⟩, hclosed, hmatched, hraw⟩ := printed_of_format h
  -- The white space before the first unit is trimmed off, and so is what stands behind the last.
  have hlain := lain_flush hprint.lies
  obtain ⟨rows, hcells, hbefore, hafter, hfits⟩ := exists_fitting hproper hsound hstands hlain
  change rows.map Row.after = (flush out).map (restored (protect names source).table) at hafter
  have hitems : rows.map Row.item = (Cell.ofProtected (protect names source)).map Cell.item := by
    rw [← hcells, List.map_map]
    rfl
  have htight : ∀ row ∈ rows, row.item.isBody = false → Tight row.after.2 := by
    intro row hrow hbody
    obtain ⟨pre, post, he⟩ := List.append_of_mem hrow
    exact ((hfits pre row post he).tight hbody).2
  obtain ⟨hhead, hlast⟩ := rows_ends hcells htight
    (head_ofPieces (protect names source).table hordered)
    (lastItem_ofPieces (protect names source).table hordered hraw none (by simp))
  have htrim : Text.trim (spread (out.map (restored (protect names source).table)) ++ tail') =
      spread (rows.map Row.after) := by
    rw [hafter] at hhead hlast ⊢
    rw [← flush_restored] at hhead hlast ⊢
    refine trim_spread_of_tight ?_ hprint.blank hhead hlast
    intro p hp
    obtain ⟨q, hq, rfl⟩ := List.mem_map.1 hp
    exact blank_of_lies hprint.lies q hq
  have hplain : ∀ row ∈ rows, Plain row.after.1 := by
    intro row hrow
    have hmem := List.mem_map_of_mem (f := Row.after) hrow
    rw [hafter] at hmem
    obtain ⟨p, hp, he⟩ := List.mem_map.1 hmem
    obtain ⟨sc, -, hsc⟩ := Text.exists_mem_of_forall₂ hlain.flip hp
    rw [← he]
    exact hsc.plain
  refine ⟨rows, ⟨hcells, ⟨tail, ?_, htail⟩, ?_, ?_, hfits, hitems ▸ hmatched, hitems ▸ hclosed⟩,
    hplain, ?_⟩
  · rw [hbefore]
    exact hsource
  · rw [Job.finish, hprint.holds.text]
    change Text.trim ((protect names source).table.restore (spread out ++ tail')) ++ ['\n'] = _
    rw [restore_spread hm.proper (blank_of_lies hprint.lies) hprint.blank
      (seams_of_lies hsound hjoins hprint.lies), htrim]
  · intro row hrow
    have hfirst : row.after ∈ ((flush out).map (restored (protect names source).table)).head? := by
      rw [← hafter, List.head?_map]
      exact Option.mem_map_of_mem Row.after hrow
    cases out with
    | nil => simp [flush] at hfirst
    | cons p ps =>
      rw [show row.after = restored _ ([], p.2) from Option.some.inj hfirst.symm]
      rfl
  · exact follows_of_parted none (hcells ▸ parted_flush hprint.parted) hafter

theorem exists_drawn {style : Style} {names : Names} {source t : List Char}
    (ha : names.Ample (3 * source.length)) (h : format style names source = .ok t) :
    ∃ rows, Drawn style names source t rows := by
  obtain ⟨rows, hrows, -⟩ := exists_spaced_drawn ha h
  exact ⟨rows, hrows⟩

end ErbLayout.Template
