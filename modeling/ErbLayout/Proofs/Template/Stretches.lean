import ErbLayout.Proofs.Template.Separation
/-!
A template and its layout side by side: both are the restored texts of the same items, with white
space between them.
-/

namespace ErbLayout.Template

open Layout Markup Placeholder
open Text (Found Framed Reads Stands Word spread allBlank startsBlank endsBlank)

variable {j : Job}

/-- A text whose first and last characters are no white space. -/
structure Tight (s : List Char) : Prop where
  ne_nil : s ≠ []
  start : startsBlank s = false
  finish : endsBlank s = false

theorem tight_of_word {w : List Char} (h : Word w) : Tight w :=
  ⟨h.ne_nil, h.startsBlank, h.endsBlank⟩

theorem tight_of_framed {s : List Char} (h : Framed s) : Tight s := by
  obtain ⟨u, rfl⟩ := h
  refine ⟨by simp, rfl, ?_⟩
  rw [Text.endsBlank_append (by simp)]
  rfl

theorem tight_of_written {t : Table} {i : Item} {x : List Char} (h : Written j i x)
    (hs : i.Sound t) (hbody : i.isBody = false) : Tight (t.restore x) := by
  cases hfirm : i.isFirm with
  | true => exact tight_of_framed (Table.framed_restore (framed_of_written h hs hfirm))
  | false =>
    cases h with
    | word w => exact tight_of_word hs.2
    | body b => simp [Item.isBody] at hbody
    | code ht hindent => simp [Item.isFirm] at hfirm
    | comment text => simp [Item.isFirm] at hfirm
    | close text name => simp [Item.isFirm] at hfirm
    | opening text name attrs closing depth column => simp [Item.isFirm] at hfirm
    | rawClose name closeTag => simp [Item.isFirm] at hfirm

theorem framed_restore_text {t : Table} (h : t.Proper) {i : Item} (hs : i.Sound t)
    (hfirm : i.isFirm = true) : Framed (t.restore i.text) := by
  cases i with
  | word w | body b => simp [Item.isFirm] at hfirm
  | code n text =>
    change Framed (t.restore n.text)
    rw [Table.restore_name h hs]
    exact Table.framed_restore (h.framed _ hs)
  | token tok =>
    obtain ⟨s, hr⟩ := hs
    exact Table.framed_restore (Token.readAny_framed hr)
  | rawClose name closeTag =>
    obtain ⟨-, s, n, hr⟩ := hs
    exact Table.framed_restore (framed_readCloseOf hr)

theorem tight_restore_text {t : Table} (h : t.Proper) {i : Item} (hs : i.Sound t)
    (hbody : i.isBody = false) : Tight (t.restore i.text) := by
  cases hfirm : i.isFirm with
  | true => exact tight_of_framed (framed_restore_text h hs hfirm)
  | false =>
    cases i with
    | word w => exact tight_of_word hs.2
    | body b => simp [Item.isBody] at hbody
    | code n text | token tok | rawClose name closeTag => simp [Item.isFirm] at hfirm

theorem isBody_ofFound {cur : List Char} {fs : List (Found (Name × List Char))} :
    ∀ c ∈ Cell.ofFound cur fs, c.item.isBody = false := by
  intro c hc
  rcases mem_ofFound hc with ⟨w, hw⟩ | ⟨n, text, hcode⟩
  · rw [hw]
    rfl
  · rw [hcode]
    rfl

theorem lastItem_eq (prev : Option Item) (cs : List Cell) :
    lastItem prev cs = prev ∨ ∃ c ∈ cs, lastItem prev cs = some c.item := by
  induction cs generalizing prev with
  | nil => exact .inl rfl
  | cons c cs ih =>
    rcases ih (some c.item) with h | ⟨c', hc', h⟩
    · exact .inr ⟨c, List.mem_cons_self, h⟩
    · exact .inr ⟨c', List.mem_cons_of_mem c hc', h⟩

theorem lastItem_ofGap (table : Table) (text : List Char) {prev : Option Item}
    (h : ∀ i ∈ prev, i.isBody = false) :
    ∀ i ∈ lastItem prev (Cell.ofGap table text), i.isBody = false := by
  intro i hi
  rcases lastItem_eq prev (Cell.ofGap table text) with he | ⟨c, hc, he⟩
  · exact h i (he ▸ hi)
  · rw [he, Option.mem_def, Option.some.injEq] at hi
    subst hi
    exact isBody_ofFound c hc

theorem lastItem_ofPieces (table : Table) {raw : Option (List Char)} {ps : List Piece}
    (ho : Piece.Ordered raw ps) (hclosed : ∀ name content, .rawText name content [] ∉ ps)
    (prev : Option Item) (h : ∀ i ∈ prev, i.isBody = false) :
    ∀ i ∈ lastItem prev (Cell.ofPieces table false ps), i.isBody = false := by
  induction ho generalizing prev with
  | nil raw => exact h
  | unclosed name content => exact absurd List.mem_cons_self (hclosed name content)
  | rawText hne _ ih =>
    rw [Cell.ofPieces, Cell.ofRawText, if_neg (by simpa using hne), lastItem_append]
    refine ih (fun name content hm => hclosed name content (List.mem_cons_of_mem _ hm)) _ ?_
    intro i hi
    obtain rfl : _ = i := by simpa [lastItem] using hi
    rfl
  | last text =>
    rw [Cell.ofPieces, Cell.ofPieces, List.append_nil]
    exact lastItem_ofGap table text h
  | token _ ih =>
    rw [Cell.ofPieces, Cell.ofPieces, lastItem_append]
    refine ih (fun name content hm => hclosed name content (by simp [hm])) _ ?_
    intro i hi
    obtain rfl : _ = i := by simpa using hi
    rfl

theorem head_ofPieces (table : Table) {ps : List Piece} (ho : Piece.Ordered none ps) :
    ∀ c ∈ (Cell.ofPieces table false ps).head?, c.item.isBody = false := by
  intro c hc
  cases ho with
  | nil => simp [Cell.ofPieces] at hc
  | last text =>
    rw [Cell.ofPieces, Cell.ofPieces, List.append_nil] at hc
    exact isBody_ofFound c (List.mem_of_mem_head? hc)
  | token _ =>
    rename_i text t ps _
    rw [Cell.ofPieces, Cell.ofPieces] at hc
    cases hg : Cell.ofGap table text with
    | nil =>
      rw [hg] at hc
      obtain rfl : _ = c := by simpa using hc
      rfl
    | cons d ds =>
      rw [hg] at hc
      obtain rfl : d = c := by simpa using hc
      exact isBody_ofFound d (by rw [← Cell.ofGap, hg]; exact List.mem_cons_self)

theorem exists_last {R : Option Item × Cell → List Char × List Char → Prop} {prev : Option Item}
    {cells : List Cell} {ps : List (List Char × List Char)}
    (h : List.Forall₂ R (follow prev cells) ps) : ps = [] ∧ cells = [] ∨
      ∃ qs q u, ∃ c ∈ cells, ps = qs ++ [q] ∧ R (u, c) q ∧ lastItem prev cells = some c.item := by
  induction cells generalizing prev ps with
  | nil =>
    cases h
    exact .inl ⟨rfl, rfl⟩
  | cons c cs ih =>
    cases h with
    | cons hp hps =>
      rename_i p ps
      rcases ih hps with ⟨rfl, rfl⟩ | ⟨qs, q, u, c', hc', rfl, hq, hlast⟩
      · exact .inr ⟨[], p, prev, c, List.mem_cons_self, rfl, hp, rfl⟩
      · exact .inr ⟨p :: qs, q, u, c', List.mem_cons_of_mem c hc', rfl, hq, hlast⟩

/-- Stretches without the white space before the first of them. -/
def flush : List (List Char × List Char) → List (List Char × List Char)
  | [] => []
  | p :: ps => ([], p.2) :: ps

theorem fitting_flush {cells : List Cell} {ps : List (List Char × List Char)}
    (h : Fitting j.len j.width 0 (leaves (marks cells) ps)) :
    Fitting j.len j.width 0 (leaves (marks cells) (flush ps)) := by
  cases ps with
  | nil => exact h
  | cons p ps =>
    cases cells with
    | nil => exact h
    | cons c cs => exact Fitting.of_flush (linear_len j).nil h

theorem placed_flush {cells : List Cell} {ps : List (List Char × List Char)}
    (h : List.Forall₂ (Placed j) (follow none cells) ps) :
    List.Forall₂ (Placed j) (follow none cells) (flush ps) := by
  cases cells with
  | nil =>
    cases h
    exact .nil
  | cons c cs =>
    cases h with
    | cons hp hps => exact .cons ⟨hp.written, rfl, by simp⟩ hps

/-- The stretches of a template and those of its layout. If there is room for all text, the lines of
the layout stay inside the margin. -/
structure Matches (style : Style) (names : Names) (source t : List Char)
    (src out : List (List Char × List Char)) : Prop where
  stands : List.Forall₂ Stands
    ((Cell.ofProtected (protect names source)).map (Cell.entry asWritten)) src
  input : ∃ tail, allBlank tail = true ∧
    source = spread (src.map (restored (protect names source).table)) ++ tail
  placed : List.Forall₂ (Placed ⟨style, protect names source⟩)
    (follow none (Cell.ofProtected (protect names source))) out
  output : t = spread (out.map (restored (protect names source).table)) ++ ['\n']
  start : ∀ p ∈ out.head?, p.1 = []
  fits : Roomy style (Cell.ofProtected (protect names source)) →
    Fitting (Job.len ⟨style, protect names source⟩) style.width 0
      (leaves (marks (Cell.ofProtected (protect names source))) out)

theorem after_start (j : Job) : After j j.start [] :=
  ⟨⟨[], [], .empty j, by simp⟩, ⟨rfl, rfl⟩, rfl⟩

theorem run_of_format {style : Style} {names : Names} {source t : List Char}
    (h : format style names source = .ok t) :
    ∃ r, Job.run ⟨style, protect names source⟩ = .ok r ∧
      t = Job.finish ⟨style, protect names source⟩ r := by
  simp only [format, report] at h
  cases hr : Job.run ⟨style, protect names source⟩ with
  | ok r =>
    rw [hr] at h
    exact ⟨r, rfl, by simpa using h.symm⟩
  | error halt =>
    rw [hr] at h
    simp at h

theorem blank_of_stands {items : List (Bool × List Char)} {ps : List (List Char × List Char)}
    (h : List.Forall₂ Stands items ps) : ∀ p ∈ ps, allBlank p.1 = true := by
  induction h with
  | nil => simp
  | cons hp _ ih => exact List.forall_mem_cons.2 ⟨hp.blank, ih⟩

theorem trim_spread {t : Table} {cells : List Cell} {ps : List (List Char × List Char)}
    {tail : List Char} (h : List.Forall₂ (Placed j) (follow none cells) ps)
    (htail : allBlank tail = true) (hs : ∀ c ∈ cells, c.item.Sound t)
    (hhead : ∀ c ∈ cells.head?, c.item.isBody = false)
    (hlast : ∀ i ∈ lastItem none cells, i.isBody = false) :
    Text.trim (spread (ps.map (restored t)) ++ tail) = spread ((flush ps).map (restored t)) := by
  cases cells with
  | nil =>
    cases h
    exact Text.trim_between (g := []) (m := []) rfl htail rfl rfl
  | cons c cs =>
    have hlast' := exists_last h
    cases h with
    | cons hp hps =>
      rename_i p ps
      have hc := tight_of_written hp.written (hs c List.mem_cons_self) (hhead c rfl)
      have hend : endsBlank (t.restore p.2 ++ spread (ps.map (restored t))) = false := by
        rcases hlast' with ⟨hnil, -⟩ | ⟨qs, q, u, c', hc', hq, hplaced, hitem⟩
        · simp at hnil
        · have hq' := tight_of_written hplaced.written (hs c' hc') (hlast _ hitem)
          cases qs with
          | nil =>
            simp only [List.nil_append, List.cons.injEq] at hq
            obtain ⟨rfl, rfl⟩ := hq
            simpa using hq'.finish
          | cons q₀ qs =>
            simp only [List.cons_append, List.cons.injEq] at hq
            obtain ⟨rfl, rfl⟩ := hq
            rw [List.map_append, Text.spread_append, List.map_cons, List.map_nil, Text.spread_cons,
              Text.spread_nil, List.append_nil, ← List.append_assoc, ← List.append_assoc]
            exact (Text.endsBlank_append hq'.ne_nil).trans hq'.finish
      rw [List.map_cons, Text.spread_cons, flush, List.map_cons, Text.spread_cons]
      have htrim := Text.trim_between (g := p.1) hp.blank htail
        ((Text.startsBlank_append hc.ne_nil).trans hc.start) hend
      simpa [restored] using htrim

/-- A template that is laid out, and its layout, as stretches for the same items. -/
theorem exists_matches {style : Style} {names : Names} {source t : List Char}
    (hp : style.reformatter = Ruby.passThrough) (ha : names.Ample (3 * source.length))
    (h : format style names source = .ok t) : ∃ src out, Matches style names source t src out := by
  obtain ⟨ws, ts, hm⟩ := exists_marking ha
  have hproper := hm.proper
  have hsound := sound_ofProtected hproper
  have hordered := Piece.cut_ordered (protect names source).working
  have hjoins : (Cell.ofProtected (protect names source)).IsChain Cell.Joins :=
    joins_ofPieces hordered
  -- the source
  obtain ⟨apart, src, tail, hstands, hwork, htail, -⟩ := reads_ofProtected (protect names source)
  have hsource : source = spread (src.map (restored (protect names source).table)) ++ tail := by
    rw [← restore_spread hproper (blank_of_stands hstands) htail
      (seams_of_stands framing_asWritten hsound hjoins hstands), ← hwork, hm.restore_working]
  -- the layout
  obtain ⟨r, hrun, rfl⟩ := run_of_format h
  have hframed : ∀ t, .token t ∈ Piece.cut (protect names source).working → Framed t.text := by
    intro t ht
    obtain ⟨s, hr⟩ := Piece.mem_cut_token ht
    exact Token.readAny_framed hr
  obtain ⟨⟨apart', hprogress⟩, hclosed⟩ :=
    (after_start ⟨style, protect names source⟩).pieces hp hordered hframed (by simp) hrun
  obtain ⟨out, tail', ⟨hholds, hlaid, htail', hfits⟩, -⟩ := hprogress.output
  have hlast := lastItem_ofPieces (protect names source).table hordered hclosed none (by simp)
  have hhead := head_ofPieces (protect names source).table hordered
  refine ⟨src, flush out, hstands, ⟨tail, htail, hsource⟩, placed_flush hlaid, ?_, ?_,
    fun hroomy => fitting_flush (hfits ⟨hproper, hsound, hjoins, hroomy⟩).fitting⟩
  · rw [Job.finish, hholds.text]
    change Text.trim ((protect names source).table.restore (spread out ++ tail')) ++ ['\n'] = _
    rw [restore_spread hproper (blank_of_placed hlaid) htail'
      (seams_of_placed hsound hjoins hlaid), trim_spread hlaid htail' hsound hhead hlast]
  · intro p hp
    cases out with
    | nil => simp [flush] at hp
    | cons q qs =>
      obtain rfl : ([], q.2) = p := by simpa [flush] using hp
      rfl

end ErbLayout.Template
