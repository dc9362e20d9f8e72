import ErbLayout.Proofs.Erb.Kind
import ErbLayout.Proofs.Placeholder.Coded
import ErbLayout.Proofs.Template.Content
import ErbLayout.Proofs.Template.Spacing
/-!
The kinds of the ERB tags in the text of a template. A tag is laid out as a tag of its kind, except
that a literal `<%%` becomes code and that code behind white space that begins with a number sign
becomes a comment.
-/

namespace ErbLayout.Placeholder

open Erb (Kind Shifts)
open Text (allBlank solid)

namespace Entries.Plain

variable {es : Entries} (h : es.Plain)
include h

theorem restore_eq_append {g r s : List Char} (hg : Free g) (hs : es.restore s = g ++ r) :
    ∃ t, s = g ++ t ∧ r = es.restore t := by
  induction g generalizing s with
  | nil => exact ⟨s, rfl, hs.symm⟩
  | cons c g ih =>
    obtain ⟨t, rfl, ht⟩ := h.restore_eq_cons (hg c List.mem_cons_self) hs
    obtain ⟨t', rfl, hr⟩ := ih (fun d hd => hg d (List.mem_cons_of_mem c hd)) ht.symm
    exact ⟨t', rfl, hr⟩

theorem head_solid_restore {c : Char} (hc : isNameChar c = false) (s : List Char) :
    (solid (es.restore s)).head? = some c ↔ (solid s).head? = some c := by
  rw [Erb.head_solid_eq_some, Erb.head_solid_eq_some]
  refine and_congr_right fun _ => ⟨?_, ?_⟩
  · rintro ⟨g, r, hg, hs⟩
    obtain ⟨t, rfl, ht⟩ := h.restore_eq_append (free_of_allBlank hg) hs
    obtain ⟨r', rfl, -⟩ := h.restore_eq_cons hc ht.symm
    exact ⟨g, r', hg, rfl⟩
  · rintro ⟨g, r, hg, rfl⟩
    exact ⟨g, es.restore r, hg,
      by rw [restore_free_append (free_of_allBlank hg), restore_cons hc]⟩

/-- A text that begins with a character of a name is restored to another such. -/
theorem exists_restore_cons {c : Char} (hc : isNameChar c = true) (s : List Char) :
    ∃ d r, es.restore (c :: s) = d :: r ∧ isNameChar d = true := by
  rcases hr : es.restore (c :: s) with _ | ⟨d, r⟩
  · exact absurd (h.restore_eq_nil hr) (by simp)
  · refine ⟨d, r, rfl, ?_⟩
    cases hd : isNameChar d with
    | true => rfl
    | false =>
      obtain ⟨t, ht, -⟩ := h.restore_eq_cons hd hr
      rw [(List.cons.inj ht).1, hd] at hc
      exact absurd hc (by simp)

end Entries.Plain

theorem ofChar_of_isNameChar {c : Char} (h : isNameChar c = true) : Kind.ofChar c = .code := by
  have hne (d : Char) (hd : isNameChar d = false) : c ≠ d := by
    rintro rfl
    rw [h] at hd
    exact absurd hd (by simp)
  simp [Kind.ofChar, hne '#' (by decide), hne '%' (by decide), hne '=' (by decide)]

theorem not_shifts_of_isNameChar {c : Char} (h : isNameChar c = true) (s : List Char) :
    ¬ Shifts ('<' :: '%' :: c :: s) := by
  rw [Erb.shifts_cons_iff]
  rintro (rfl | ⟨hc, -⟩)
  · exact absurd h (by decide)
  · rw [isBlank_of_isNameChar h] at hc
    exact absurd hc (by simp)

theorem Entries.Plain.kind_restore {es : Entries} (h : es.Plain) (s : List Char) :
    Kind.of (es.restore ('<' :: '%' :: s)) = Kind.of ('<' :: '%' :: s) := by
  rw [restore_cons (by decide), restore_cons (by decide)]
  cases s with
  | nil => rfl
  | cons c s =>
    cases hc : isNameChar c with
    | false => rw [restore_cons hc, Kind.of_cons, Kind.of_cons]
    | true =>
      obtain ⟨d, r, hr, hd⟩ := h.exists_restore_cons hc s
      rw [hr, Kind.of_cons, Kind.of_cons, ofChar_of_isNameChar hc, ofChar_of_isNameChar hd]

theorem Entries.Plain.shifts_restore {es : Entries} (h : es.Plain) (s : List Char) :
    Shifts (es.restore ('<' :: '%' :: s)) ↔ Shifts ('<' :: '%' :: s) := by
  rw [restore_cons (by decide), restore_cons (by decide)]
  cases s with
  | nil => rfl
  | cons c s =>
    cases hc : isNameChar c with
    | false =>
      rw [restore_cons hc, Erb.shifts_cons_iff, Erb.shifts_cons_iff,
        h.head_solid_restore (by decide)]
    | true =>
      obtain ⟨d, r, hr, hd⟩ := h.exists_restore_cons hc s
      rw [hr]
      exact iff_of_false (not_shifts_of_isNameChar hd r) (not_shifts_of_isNameChar hc s)

end ErbLayout.Placeholder

namespace ErbLayout.Template

open Layout Placeholder
open Erb (Kind Shifts)
open Text (allBlank spread)

theorem exists_openerText (o : Erb.Opener) : ∃ s, o.text = '<' :: '%' :: s := by
  cases o <;> exact ⟨_, rfl⟩

theorem kind_restore_build {t : Table} (tag : Erb.Tag) (code indent : List Char) :
    Kind.of (t.restore (Erb.Tag.build tag.opener.text code tag.closer.text indent)) =
      Kind.of (Erb.Tag.build tag.opener.text code tag.closer.text indent) := by
  obtain ⟨r, hr⟩ := Erb.Tag.build_head tag.opener.text code tag.closer.text indent
  rw [hr, Table.restore_free_append (free_opener tag.opener)]
  have hfree : isNameChar (if (Text.solid code).head? = some '#' then '#' else ' ') = false := by
    split <;> decide
  rw [Table.restore_cons hfree]
  cases tag.opener <;> exact (Kind.of_cons _ _).trans (Kind.of_cons _ _).symm

theorem Row.Shows.kind_iff {j : Job} (ht : j.table.Proper) (hplain : j.table.lookalikes.Plain)
    (hcoded : j.table.codeTags.Coded)
    {row : Row} (h : row.Shows j) {n : Name} {text : List Char} (hitem : row.item = .code n text) :
    Kind.of row.after.2 = Kind.of row.before.2 ↔ ¬ Shifts row.before.2 := by
  have hmem : (n, text) ∈ j.table.codeTags := by
    have hsound := h.sound
    rwa [hitem] at hsound
  have hbefore : row.before.2 = j.table.lookalikes.restore text := by
    rw [h.before, hitem]
    exact Table.restore_code (e := (n, text)) ht hmem
  obtain ⟨tag, s, k, hr⟩ := hcoded _ hmem
  obtain ⟨x, hw, hafter⟩ := h.after
  rw [hitem] at hw
  cases hw with
  | code hsplit hindent =>
    rename_i tag' indent
    obtain rfl : tag = tag' := Option.some.inj ((Erb.Tag.split?_of_read hr).symm.trans hsplit)
    obtain ⟨inside, hinside, -⟩ := Erb.Tag.split?_eq_some hsplit
    obtain ⟨o, ho⟩ := exists_openerText tag.opener
    have htext : text = '<' :: '%' :: (o ++ (inside ++ tag.closer.text)) := by
      rw [hinside, ho]
      rfl
    rw [hafter, hbefore, kind_restore_build, htext, hplain.kind_restore, hplain.shifts_restore,
      ← htext]
    exact Erb.Tag.kind_build_iff hr (words_laidCode j.style.checker tag.code) indent

/-- Every tag in the text of a template is laid out as a tag of its kind, but for those whose kind
shifts. -/
theorem format_keeps_kinds (style : Style) (names : Names) (source t : List Char)
    (hp : style.reformatter = Ruby.passThrough) (ha : names.Ample (3 * source.length))
    (h : format style names source = .ok t) :
    ∃ rows, Paired style names source t rows ∧
      ∀ row ∈ rows, ∀ n text, row.item = .code n text →
        (Kind.of row.after.2 = Kind.of row.before.2 ↔ ¬ Shifts row.before.2) := by
  obtain ⟨ws, ts, hm⟩ := exists_marking ha
  obtain ⟨src, out, hmatch⟩ := exists_matches hp ha h
  obtain ⟨rows, hrows, -, -⟩ := exists_paired ha hmatch
  have hproper : (Job.mk style (protect names source)).table.Proper := hm.proper
  exact ⟨rows, hrows, fun row hrow n text hitem => (hrows.shows row hrow).kind_iff hproper
    (plain_lookalikes names source) (coded_codeTags names source) hitem⟩

theorem format_keeps_kinds_inline :
    let style : Style := { checker := fun _ => true }
    let source := "<p><%# a %><%== b %> <%c%></p>".toList
    let t := "<p><%# a %><%== b %>\n  <% c %></p>\n".toList
    format style (Names.counting 128) source = .ok t ∧
      ∃ rows, Paired style (Names.counting 128) source t rows ∧
        ∀ row ∈ rows, ∀ n text, row.item = .code n text →
          (Kind.of row.after.2 = Kind.of row.before.2 ↔ ¬ Shifts row.before.2) := by
  intro style source t
  have hf : format style (Names.counting 128) source = .ok t := by decide +kernel
  have ha : (Names.counting 128).Ample (3 * source.length) :=
    Names.ample_counting (by decide) (by decide)
  exact ⟨hf, format_keeps_kinds style (Names.counting 128) source t rfl ha hf⟩

-- The white space in front of the number sign is gone, and with it the code below the note.
theorem format_silences_code :
    let style : Style := { checker := fun _ => true }
    let source := "<% # a\nb %>".toList
    let t := "<%# a\n  b %>".toList
    format style (Names.counting 64) source = .ok (t ++ ['\n']) ∧
      Kind.of source = .code ∧ Kind.of t = .comment := by
  decide +kernel

end ErbLayout.Template
