import ErbLayout.Proofs.Template.Independence
import ErbLayout.Proofs.Template.Renewed
/-!
A layout laid out again is the same, when in the template nothing that looks like markup stands by
itself.
-/

namespace ErbLayout.Template

open Layout Markup Placeholder
open Text (Found allBlank startsBlank endsBlank words)

section Text

variable {es : Entries} {j : Job} {tr tr' : Trail}

/-- A template is restored stride by stride. -/
theorem restore_shown {ss : List (Stride × Name)} {last : List Char}
    (hplain : ∀ s ∈ ss, es.namesIn s.1.literal = []) (hseamed : ∀ s ∈ ss, s.1.Seamed)
    (hlast : es.namesIn last = []) :
    es.restore ((ss.map Prod.fst).flatMap Stride.shown ++ last) =
      ss.flatMap (fun s => s.1.literal ++ es.restore s.1.unit.shown) ++ last := by
  induction ss with
  | nil => exact Entries.restore_of_namesIn_nil hlast
  | cons s ss ih =>
    obtain ⟨hs, hss⟩ := List.forall_mem_cons.1 hplain
    obtain ⟨⟨⟨u, hu⟩, hhead⟩, hss'⟩ := List.forall_mem_cons.1 hseamed
    have hgt : Placeholder.isNameChar '>' = false := by decide
    have hlt : Placeholder.isNameChar '<' = false := by decide
    have hunit : es.restore (s.1.literal ++ s.1.unit.shown) =
        s.1.literal ++ es.restore s.1.unit.shown := by
      rcases hhead with hnil | ⟨v, hv⟩
      · rw [hnil]
        rfl
      · rw [hv, Entries.restore_append_cons _ hlt, Entries.restore_cons hlt,
          Entries.restore_of_namesIn_nil hs]
    have hsplit (rest : List Char) : es.restore (s.1.literal ++ s.1.unit.shown ++ rest) =
        es.restore (s.1.literal ++ s.1.unit.shown) ++ es.restore rest := by
      rw [hu, ← List.append_assoc, List.append_assoc, List.singleton_append,
        Entries.restore_append_cons _ hgt, Entries.restore_concat _ hgt, List.append_assoc]
      rfl
    rw [List.map_cons, List.flatMap_cons, Stride.shown, List.append_assoc, hsplit, hunit,
      ih hss hss', List.flatMap_cons]
    simp only [List.append_assoc]

end Text

/-- Strides that belong to others, with the names of those. -/
theorem exists_named {R : Stride → Stride → Prop} {ss : List (Stride × Name)} {bs : List Stride}
    (h : List.Forall₂ R (ss.map Prod.fst) bs) : ∃ ss' : List (Stride × Name),
      ss'.map Prod.fst = bs ∧ List.Forall₂ (fun s s' => s'.2 = s.2 ∧ R s.1 s'.1) ss ss' := by
  induction ss generalizing bs with
  | nil =>
    cases h
    exact ⟨[], rfl, .nil⟩
  | cons s ss ih =>
    cases h with
    | @cons _ b _ bs hab hrest =>
      obtain ⟨ss', rfl, hss⟩ := ih hrest
      exact ⟨(b, s.2) :: ss', rfl, .cons ⟨rfl, hab⟩ hss⟩

theorem endsBlank_shown {ss : List (Stride × Name)} {last : List Char}
    (hseamed : ∀ s ∈ ss, s.1.Seamed) (hlast : endsBlank last = false) :
    endsBlank ((ss.map Prod.fst).flatMap Stride.shown ++ last) = false := by
  by_cases hnil : last = []
  · subst hnil
    rw [List.append_nil]
    cases ss using List.reverseRecOn with
    | nil => rfl
    | append_singleton ss s =>
      obtain ⟨u, hu⟩ := (hseamed s (by simp)).last
      rw [List.map_append, List.flatMap_append]
      simp only [List.map_cons, List.map_nil, List.flatMap_cons, List.flatMap_nil, List.append_nil,
        Stride.shown, hu]
      rw [← List.append_assoc, ← List.append_assoc]
      exact Text.endsBlank_append (by simp)
  · rw [Text.endsBlank_append hnil, hlast]

/-- What a run left, and the layout that it is the text of. -/
theorem Job.Reruns.exists_left {j : Job} {tr : Trail} {b : Buffer} {bs : List Stride}
    {last lead : List Char} {r : Run} {e : Pen} (hr : j.Reruns tr b bs last lead r e)
    (htr : tr.Regular j.table.codeTags) (ht : j.table.Proper) (hlooks : j.table.lookalikes.Plain) :
    ∃ tr' : Trail, Trail.Relaid j tr tr' ∧ tr'.strides.map Prod.fst = bs ∧
      tr'.last = last ++ ['\n'] ∧ Text.trim (j.table.restore b.text) ++ ['\n'] =
        j.table.lookalikes.restore (tr'.marks j.table.codeTags).meant := by
  obtain ⟨ss, rfl, hss⟩ := exists_named hr.relaid
  have hrelaid : Trail.Relaid j tr ⟨ss, last ++ ['\n']⟩ :=
    ⟨hss, (Text.words_append_allBlank last (by decide)).trans hr.words⟩
  refine ⟨⟨ss, last ++ ['\n']⟩, hrelaid, rfl, rfl, ?_⟩
  have hseamed := hrelaid.seamed htr.sits
  have hplain : ∀ s ∈ ss, j.table.codeTags.namesIn s.1.literal = [] :=
    forall_of_forall₂ hss fun s hs s' hrel =>
      (j.table.codeTags.seamwise_namesIn.congr hrel.2.words).trans (htr.sits s hs).plain
  have hlast : j.table.codeTags.namesIn last = [] :=
    (j.table.codeTags.seamwise_namesIn.congr hr.words).trans htr.plain
  obtain ⟨g, g', hg, hg', htext⟩ := hr.text
  have hstart := Table.startsBlank_restore ht hlooks hr.start
  have hend := Table.endsBlank_restore ht hlooks (endsBlank_shown hseamed hr.solid)
  rw [htext, Table.restore_allBlank_append hg, Table.restore_append_allBlank _ hg',
    Text.trim_between hg hg' hstart hend, Table.restore, Table.restoreCodeTags,
    restore_shown hplain hseamed hlast, meant_marks fun s hs => (hrelaid.sound htr.sits s hs).1,
    ← Entries.restore_concat _ (by decide), List.append_assoc]

section Source

variable {es : Entries} {style : Style} {names : Names} {source t : List Char} {ws ts : Marked}
variable {tr : Trail}

theorem Trail.infix_of_mem (es : Entries) {s : Stride × Name} (hs : s ∈ tr.strides) :
    s.1.parts <:+: tr.parts ∧ s.1.marks es s.2 <:+: tr.marks es := by
  obtain ⟨ss, ss', hss⟩ := List.append_of_mem hs
  constructor
  · refine ⟨ss.flatMap fun s => s.1.parts,
      ss'.flatMap (fun s => s.1.parts) ++ tr.last.map .char, ?_⟩
    simp [Trail.parts, hss]
  · refine ⟨ss.flatMap fun s => s.1.marks es s.2,
      ss'.flatMap (fun s => s.1.marks es s.2) ++ tr.last.map .char, ?_⟩
    simp [Trail.marks, hss]

theorem Trail.unit_mem {s : Stride × Name} (hs : s ∈ tr.strides) : s.1.unit ∈ tr.parts :=
  (Trail.infix_of_mem [] hs).1.subset (by simp [Stride.parts])

/-- If every `<%` of a template begins a tag, none is left in a part of what is protected. -/
theorem not_opens_within (hm : Marking names source ws ts)
    (hcovers : tr.Covers (protect names source)) (hsettled : Erb.Settled source) {ms : Marked}
    (hms : ms <:+: tr.marks (protect names source).table.codeTags) : ¬ Opens ms.written := by
  rw [hcovers.marks_eq hm] at hms
  obtain ⟨ms₁, ms₂, rfl⟩ := hms
  have hopens := hm.not_opening hsettled
  rw [hm.working, written_append, written_append] at hopens
  exact fun ho => hopens (ho.trans ⟨Marked.written ms₁, Marked.written ms₂, rfl⟩)

variable (ha : names.Ample (3 * source.length)) (hm : Marking names source ws ts)
variable (hplain : Text.PlainLines source) (hcovers : tr.Covers (protect names source))
variable (h : format style names source = .ok t)
include ha hm hplain hcovers h

theorem Trail.Covers.tidy : tr.Tidy := by
  have hmem (s : Stride × Name) (hs : s ∈ tr.strides) :
      s.1.unit ∈ Part.ofProtected (protect names source) := hcovers.parts ▸ Trail.unit_mem hs
  refine ⟨fun s hs => ?_, hcovers.units, fun s hs name content hx => ?_,
    fun s hs name content closeTag hx => ?_⟩
  · obtain ⟨hread, hblank⟩ := wasRead_of_mem hm hplain (hmem s hs)
    exact fair_of_wasRead hread hblank
  · have hended := ended_of_format ha h _ (hmem s hs)
    rw [hx] at hended
    exact hended rfl
  · obtain ⟨ss, hss⟩ := List.head?_eq_some_iff.1 hs
    refine Part.ofPieces_ne_rawText (t := (protect names source).table)
      (Piece.cut_ordered (protect names source).working) s.1.literal name content closeTag
      (ss.flatMap (fun s => s.1.parts) ++ tr.last.map .char) ?_
    have hparts := hcovers.parts
    rw [Trail.parts, hss, List.flatMap_cons, Stride.parts, hx] at hparts
    exact hparts.symm.trans (by simp)

/-- A template that is laid out and in which nothing that looks like markup stands by itself. -/
theorem Trail.Covers.regular (hsettled : Erb.Settled source)
    (hstray : ∀ c ∈ ['!', '/'],
      ¬ [.char '<', .char c] <:+: Part.ofProtected (protect names source)) :
    tr.Regular (protect names source).table.codeTags := by
  have htidy := hcovers.tidy ha hm hplain h
  obtain ⟨htags, b, hfin, -⟩ := (format_eq_ok_iff style names source t).1 h
  rw [← hcovers.parts] at htags hfin hstray
  obtain ⟨q, hruns, hnest, -, hflush⟩ := Trail.exists_runs htidy.char htidy.closed hfin
  have hopens (ms : Marked) (hms : ms <:+: tr.marks (protect names source).table.codeTags) :
      ¬ Opens ms.written := not_opens_within hm hcovers hsettled hms
  have hpart (s : Stride × Name) (hs : s ∈ tr.strides) :=
    Trail.infix_of_mem (protect names source).table.codeTags hs
  have hnames {l : List Char} (hl : l.map Part.char <:+: tr.parts) :
      (protect names source).table.codeTags.namesIn l = [] := by
    rw [hcovers.parts] at hl
    exact Part.plain_ofPieces _ (Piece.cut_ordered _) l hl
  have hlast : tr.last.map Part.char <:+: tr.parts := (List.suffix_append _ _).isInfix
  have hordered : Part.Ordered none (Part.ofProtected (protect names source)) :=
    Part.ordered_ofPieces (Piece.cut_ordered _)
  refine ⟨fun s hs => ?_, fun s hs => ?_, ?_, hnames hlast, ?_, fun s hs hcode => ?_⟩
  · have hmem : s.1.unit ∈ Part.ofProtected (protect names source) :=
      hcovers.parts ▸ Trail.unit_mem hs
    exact ⟨(wasRead_of_mem hm hplain hmem).1, htidy.fair s hs, htidy.char s hs, htidy.closed s hs,
      hflush s.1 (List.mem_map_of_mem hs),
      hnames ((List.prefix_append _ _).isInfix.trans (hpart s hs).1), sound_parts ha _ hmem,
      ended_of_format ha h _ hmem⟩
  · refine quiet_of_untagged htags hstray (hpart s hs).1 ?_
    have hfirst := hopens _ ((List.prefix_append _ _).isInfix.trans (hpart s hs).2)
    rwa [written_chars] at hfirst
  · refine calm_of_untagged htags hstray hlast ?_
    have hrest := hopens (tr.last.map .char) (List.suffix_append _ _).isInfix
    rwa [written_chars] at hrest
  · rw [← hcovers.parts, tr.parts_eq] at hordered
    exact strung_of_ordered hordered (hruns.raw hnest) fun _ => rfl
  · have hunit := hopens _ ((List.suffix_append _ _).isInfix.trans (hpart s hs).2)
    rwa [Part.written_marks s.2 hcode] at hunit

end Source

/-- A layout does not depend on the names that are drawn. -/
theorem format_of_names {style : Style} {names names' : Names} {source t : List Char}
    (hp : style.reformatter = Ruby.passThrough) (hchecker : style.checker.Alike)
    (ha : names.Ample (3 * source.length)) (ha' : names'.Ample (3 * source.length))
    (h : format style names source = .ok t) : format style names' source = .ok t := by
  have hj := counterparts_protect ha ha' (hp ▸ total_passThrough) hchecker
    (hp ▸ Ruby.alike_passThrough)
  obtain ⟨r, hr, rfl⟩ := run_of_format h
  have hrun := hj.run
  rw [hr] at hrun
  unfold format report
  dsimp only
  generalize Job.run ⟨style, protect names' source⟩ = x' at hrun ⊢
  cases hrun with
  | goes hlevel _ => exact congrArg Except.ok (hj.finish hlevel).symm

/-- A layout laid out again is the same, when every `<%` of the template begins a tag and no `<!`
and no `</` is left in its literal text. -/
theorem format_stable (style : Style) (names names' : Names) (source t : List Char)
    (hp : style.reformatter = Ruby.passThrough) (hblind : style.checker.LineBlind)
    (halike : style.checker.Alike) (ha : names.Ample (3 * source.length))
    (ha' : names'.Ample (3 * t.length)) (hplain : Text.PlainLines source)
    (hsettled : Erb.Settled source)
    (hstray : ∀ c ∈ ['!', '/'],
      ¬ [.char '<', .char c] <:+: Part.ofProtected (protect names source))
    (h : format style names source = .ok t) : format style names' t = .ok t := by
  obtain ⟨ws, ts, hmarks, hm⟩ := exists_marks ha
  obtain ⟨tr, hcovers⟩ := exists_trail (protect names source)
  have htidy := hcovers.tidy ha hm hplain h
  have hregular := hcovers.regular ha hm hplain h hsettled hstray
  obtain ⟨-, b, hfin, ht⟩ := (format_eq_ok_iff style names source t).1 h
  rw [← hcovers.parts] at hfin
  -- what the first run leaves
  obtain ⟨bs, last, lead, r, e, hreruns⟩ := exists_reruns hp hblind htidy hfin
  obtain ⟨tr', hrelaid, hstrides, hlast, htext⟩ :=
    hreruns.exists_left hregular hm.proper (plain_lookalikes names source)
  -- protected, and run over, under names that are drawn first
  obtain ⟨names₁, ws₁, ha₁, hm₁, hlooks, hparts⟩ :=
    hrelaid.exists_protection hm hmarks hcovers hregular ha' (htext.symm.trans ht.symm)
  have hnames : (protect names₁ t).table.codeTags.map Prod.fst =
      (protect names source).table.codeTags.map Prod.fst := by
    rw [hm₁.codeTags, hrelaid.names hregular.sits, hcovers.marks_eq hm, hm.codeTags]
  have hrenews : Job.Renews ⟨style, protect names source⟩ ⟨style, protect names₁ t⟩ tr' :=
    ⟨rfl, hlooks, hm₁.codeTags, hm₁.tags, hnames, hparts, hrelaid.legible hregular,
      hrelaid.sound hregular.sits⟩
  obtain ⟨b₁, hfin₁, hsame⟩ := hrenews.finishes hreruns hstrides hlast hp
  refine format_of_names hp halike ha₁ ha' ((format_eq_ok_iff style names₁ t t).2 ⟨?_, b₁, ?_, ?_⟩)
  · rw [hparts]
    exact untagged_of_calm (calm_letters (hrelaid.legible hregular) (hrelaid.calm_last hregular))
  · rw [hparts]
    exact hfin₁
  · exact ht.trans (congrArg (· ++ ['\n']) hsame.symm)

theorem format_stable_block :
    let style : Style :=
      { width := 30, checker := fun s => s.countP (· == '\x7b') == s.countP (· == '\x7d') }
    let source := "<ul>\n<% xs.each \x7b |x| %><li>a  <b>c</b>, <%= x %></li><% \x7d %></ul>".toList
    let t := "<ul>\n  <% xs.each \x7b |x| %>\n    <li>a\n      <b>c</b>,\n".toList ++
      "      <%= x %></li>\n  <% \x7d %>\n</ul>\n".toList
    format style (Names.counting 256) source = .ok t ∧
      format style (Names.counting 512) t = .ok t := by
  intro style source t
  have hblind : style.checker.LineBlind := fun code code' h => by
    change (code.countP _ == code.countP _) = (code'.countP _ == code'.countP _)
    have hsolid := Erb.solid_of_words (Text.words_eq_of_trimmedLines h)
    have hcount (c : Char) (hc : isBlank c = false) (s : List Char) :
        s.countP (· == c) = (Text.solid s).countP (· == c) := by
      rw [Text.solid, List.countP_filter]
      refine List.countP_congr fun d _ => ?_
      grind
    rw [hcount _ (by decide) code, hcount _ (by decide) code, hsolid, ← hcount _ (by decide),
      ← hcount _ (by decide)]
  have halike : style.checker.Alike := Ruby.alike_of_like fun s s' hs => by
    change (s.countP _ == s.countP _) = (s'.countP _ == s'.countP _)
    rw [hs.countP (blind_eq (by decide)), hs.countP (blind_eq (by decide))]
  have hplain : Text.PlainLines source := by decide +kernel
  have hsettled : Erb.Settled source := by decide +kernel
  have hstray : ∀ c ∈ ['!', '/'],
      ¬ [.char '<', .char c] <:+: Part.ofProtected (protect (Names.counting 256) source) :=
    List.forall_mem_cons.2 ⟨by decide +kernel, List.forall_mem_singleton.2 (by decide +kernel)⟩
  have hf : format style (Names.counting 256) source = .ok t := by decide +kernel
  exact ⟨hf, format_stable style (Names.counting 256) (Names.counting 512) source t rfl hblind
    halike (Names.ample_counting (by decide) (by decide))
    (Names.ample_counting (by decide) (by decide)) hplain hsettled hstray hf⟩

end ErbLayout.Template
