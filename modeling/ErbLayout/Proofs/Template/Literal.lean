import ErbLayout.Proofs.Markup.Attributes
import ErbLayout.Proofs.Template.Drawn
/-!
The literal text of a template: what stands outside of its tags, comments, ERB tags and raw texts.
The layout keeps all of it but the white space, of which it makes spaces and line feeds, whatever it
was before. So all white space is lost that is not ASCII.
-/

namespace ErbLayout.Template

open Layout Markup Placeholder
open Text (spread allBlank solid)

/-- What of a unit and of the white space before it is literal text. The white space in front of the
close tag of a raw text is the end of that text. -/
def Item.literal : Item → List Char × List Char → List Char
  | .word _, p => p.1 ++ p.2
  | .body _, _ => []
  | .rawClose _ _, _ => []
  | .code _ _, p => p.1
  | .token _, p => p.1

/-- The literal text of the units, in the template or in the layout. -/
def literalText (side : Row → List Char × List Char) (rows : List Row) : List Char :=
  rows.flatMap fun row => row.item.literal (side row)

/-- A text without its plain white space. -/
def unspaced (s : List Char) : List Char := s.filter (!isPlainBlank ·)

/-- Nothing is left of white space, unless some of it is not plain. -/
theorem unspaced_eq_solid_iff {s : List Char} : unspaced s = solid s ↔ PlainBlanks s := by
  constructor
  · intro h c hc hb
    by_contra hplain
    have hleft : c ∈ unspaced s := List.mem_filter.2 ⟨hc, by simpa using hplain⟩
    rw [h, solid, List.mem_filter, hb] at hleft
    simp at hleft
  · intro h
    refine List.filter_congr fun c hc => ?_
    cases hb : isBlank c with
    | true => rw [h c hc hb]
    | false =>
      cases hplain : isPlainBlank c with
      | false => rfl
      | true => simp [Token.isBlank_of_isPlainBlank hplain] at hb

section Rows

variable {j : Job} {stack : List Opened} {row : Row} {rows : List Row}

/-- A word is laid out as it is, and it holds no white space. -/
theorem Row.Fits.word (h : row.Fits j stack) {w : List Char} (hw : row.item = .word w) :
    row.after.2 = row.before.2 ∧ ∀ c ∈ row.after.2, isBlank c = false := by
  obtain ⟨x, hx, hafter⟩ := h.after
  have hsound := h.sound
  have hbefore := h.before
  rw [hw] at hx hsound hbefore
  cases hx
  refine ⟨hafter.trans hbefore.symm, ?_⟩
  rw [hafter]
  exact hsound.2.2

theorem Row.Fits.solid_literal (h : row.Fits j stack) :
    solid (row.item.literal row.after) = solid (row.item.literal row.before) := by
  have hbefore : solid row.before.1 = [] := Text.solid_of_allBlank h.blankBefore
  have hafter : solid row.after.1 = [] := Text.solid_of_allBlank h.margin.blank
  cases hi : row.item with
  | word w => simp only [Item.literal, Text.solid_append, hbefore, hafter, (h.word hi).1]
  | body b => rfl
  | rawClose name closeTag => rfl
  | code n text => exact hafter.trans hbefore.symm
  | token t => exact hafter.trans hbefore.symm

theorem Row.Fits.blank_literal (h : row.Fits j stack) (hplain : Plain row.after.1) :
    ∀ c ∈ row.item.literal row.after, isBlank c = true → c = ' ' ∨ c = '\n' := by
  intro c hc hb
  cases hi : row.item with
  | word w =>
    rw [hi, Item.literal, List.mem_append] at hc
    rcases hc with hc | hc
    · exact hplain c hc
    · rw [(h.word hi).2 c hc] at hb
      exact absurd hb (by simp)
  | body b => simp [hi, Item.literal] at hc
  | rawClose name closeTag => simp [hi, Item.literal] at hc
  | code n text => exact hplain c (by rwa [hi] at hc)
  | token t => exact hplain c (by rwa [hi] at hc)

theorem solid_literalText (h : ∀ row ∈ rows, ∃ stack, row.Fits j stack) :
    solid (literalText Row.after rows) = solid (literalText Row.before rows) := by
  induction rows with
  | nil => rfl
  | cons row rows ih =>
    obtain ⟨⟨stack, hrow⟩, hrows⟩ := List.forall_mem_cons.1 h
    simp only [literalText, List.flatMap_cons, Text.solid_append] at ih ⊢
    rw [hrow.solid_literal, ih hrows]

theorem blank_literalText (h : ∀ row ∈ rows, (∃ stack, row.Fits j stack) ∧ Plain row.after.1) :
    ∀ c ∈ literalText Row.after rows, isBlank c = true → c = ' ' ∨ c = '\n' := by
  intro c hc
  obtain ⟨row, hrow, hc⟩ := List.mem_flatMap.1 hc
  obtain ⟨⟨stack, hfits⟩, hplain⟩ := h row hrow
  exact hfits.blank_literal hplain c hc

end Rows

theorem Drawn.exists_fits {style : Style} {names : Names} {source t : List Char} {rows : List Row}
    (h : Drawn style names source t rows) :
    ∀ row ∈ rows, ∃ stack, row.Fits ⟨style, protect names source⟩ stack := by
  intro row hrow
  obtain ⟨pre, post, rfl⟩ := List.append_of_mem hrow
  exact ⟨_, h.fits pre row post rfl⟩

/-- The layout keeps the literal text of a template apart from its white space, and the white space
of its own literal text is spaces and line feeds alone. So the two texts agree apart from plain white
space exactly when the template has no other white space in its literal text. -/
theorem format_keeps_literal (style : Style) (names : Names) (source t : List Char)
    (ha : names.Ample (3 * source.length)) (h : format style names source = .ok t) :
    ∃ rows tail, Drawn style names source t rows ∧
      source = spread (rows.map Row.before) ++ tail ∧ allBlank tail = true ∧
      let written := literalText Row.before rows ++ tail
      let laid := literalText Row.after rows ++ ['\n']
      solid laid = solid written ∧ (∀ c ∈ laid, isBlank c = true → c = ' ' ∨ c = '\n') ∧
      (unspaced laid = unspaced written ↔ PlainBlanks written) := by
  obtain ⟨rows, hrows, hplain, -⟩ := exists_spaced_drawn ha h
  obtain ⟨tail, hsource, htail⟩ := hrows.input
  refine ⟨rows, tail, hrows, hsource, htail, ?_⟩
  intro written laid
  have hsolid : solid laid = solid written := by
    rw [Text.solid_append, Text.solid_append, Text.solid_of_allBlank htail,
      solid_literalText hrows.exists_fits]
    rfl
  have hblank : ∀ c ∈ laid, isBlank c = true → c = ' ' ∨ c = '\n' := by
    intro c hc hb
    rcases List.mem_append.1 hc with hc | hc
    · exact blank_literalText (fun row hrow => ⟨hrows.exists_fits row hrow, hplain row hrow⟩) c hc hb
    · exact .inr (by simpa using hc)
  have hlaid : PlainBlanks laid := by
    intro c hc hb
    rcases hblank c hc hb with rfl | rfl <;> decide
  refine ⟨hsolid, hblank, ?_⟩
  rw [unspaced_eq_solid_iff.2 hlaid, hsolid, eq_comm]
  exact unspaced_eq_solid_iff

theorem format_keeps_literal_spaced :
    let style : Style := { checker := fun _ => true }
    let source := "a \t b<p> c</p>\n\n\x0c".toList
    let t := "a b<p>\n  c</p>\n".toList
    format style (Names.counting 128) source = .ok t ∧
      ∃ rows tail, source = spread (rows.map Row.before) ++ tail ∧
        t = spread (rows.map Row.after) ++ ['\n'] ∧
        solid (literalText Row.after rows ++ ['\n']) = solid (literalText Row.before rows ++ tail) := by
  intro style source t
  have hf : format style (Names.counting 128) source = .ok t := by decide +kernel
  have ha : (Names.counting 128).Ample (3 * source.length) :=
    Names.ample_counting (by decide) (by decide)
  obtain ⟨rows, tail, hrows, hsource, -, hsolid, -, -⟩ :=
    format_keeps_literal style (Names.counting 128) source t ha hf
  exact ⟨hf, rows, tail, hsource, hrows.output, hsolid⟩

/-- A no-break space becomes a space or a line break. -/
theorem format_loses_no_break_space :
    let style : Style := { checker := fun _ => true }
    let source := "a\u00a0b\u00a0<i>c</i>".toList
    let t := "a b\n<i>c</i>\n".toList
    format style (Names.counting 128) source = .ok t ∧
      unspaced source = "a\u00a0b\u00a0<i>c</i>".toList ∧ unspaced t = "ab<i>c</i>".toList := by
  decide +kernel

end ErbLayout.Template
