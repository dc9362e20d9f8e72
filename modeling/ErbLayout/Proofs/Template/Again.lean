import ErbLayout.Proofs.Template.Strides
/-!
A run over what a run left, without the white space before it and after it.
-/

namespace ErbLayout.Template

open Layout Markup Placeholder
open Text (allBlank startsBlank endsBlank words)

variable {j : Job} {r r' q : Run} {x y : Part (List Char)} {a b : Stride} {as bs : List Stride}
variable {s s' : List Char}

/-- A stride as it was left. -/
structure Stride.Relaid (j : Job) (a b : Stride) : Prop where
  words : words b.literal = words a.literal
  solid : b.literal ≠ [] → endsBlank b.literal = false → endsBlank a.literal = false
  flush : ∀ name content closeTag, b.unit = .rawText name content closeTag → b.literal = []
  unit : ∃ r, j.Becomes r a.unit b.unit

theorem Job.Leaves.relaid (h : j.Leaves r as bs q)
    (hflush : ∀ b ∈ bs, ∀ name content closeTag, b.unit = .rawText name content closeTag →
      b.literal = []) : List.Forall₂ (Stride.Relaid j) as bs := by
  induction h with
  | nil r => exact .nil
  | cons hs hx _ _ ih =>
    obtain ⟨hb, hbs⟩ := List.forall_mem_cons.1 hflush
    refine .cons ⟨hs.words, fun _ hend => ?_, hb, _, hx⟩ (ih hbs)
    rw [← Bool.not_eq_true]
    intro hblank
    rw [hs.ends, hs.stays hblank] at hend
    exact absurd hend (by simp)

/-- Behind white space what a unit is read again as goes to a line of its own. -/
theorem Job.Becomes.breaks (hx : j.Becomes r x y)
    (hraw : ∀ name content closeTag, x ≠ .rawText name content closeTag)
    (hend : endsBlank r'.gap = true) : y.breaks j.style.checker r' = true := by
  have htag (blockLevel : Bool) : r'.breaksBeforeTag blockLevel = true := by
    rw [Run.breaksBeforeTag, if_pos hend]
  cases hx with
  | code _ _ ht _ _ _ =>
    rw [Part.breaks, ht, Option.any_some, Run.breaksBeforeCode, if_pos hend, Bool.or_true]
  | comment text => exact htag _
  | close text name => exact htag _
  | opening text _ _ => exact htag _
  | rawText name content closeTag => exact absurd rfl (hraw _ _ _)

/-- White space before words may be any. -/
theorem Reflowed.lead {control breaks : Bool} {g l : List Char} (hg : allBlank g = true)
    (hne : g ≠ []) (hl : l ≠ []) (hstart : startsBlank l = false)
    (h : Reflowed control breaks s (g ++ l)) : Reflowed control breaks s ('\n' :: l) := by
  have hblank : allBlank l = false := Text.allBlank_of_startsBlank hl hstart
  have hlines (g : List Char) (hg : allBlank g = true) :
      Text.trailingNewlines (g ++ l) = Text.trailingNewlines l := by
    induction g with
    | nil => rfl
    | cons c g ih =>
      have hg' : allBlank g = true := by
        rw [← List.singleton_append, Text.allBlank_append] at hg
        exact (Bool.and_eq_true_iff.1 hg).2
      have hsolid : allBlank (g ++ l) = false := by
        rw [Text.allBlank_append, hg', hblank]
        rfl
      rw [List.cons_append, Text.trailingNewlines_cons hsolid, ih hg']
  refine ⟨?_, fun hb => ?_, ?_, h.stays, by simp, ?_⟩
  · rw [← h.words, Text.words_allBlank_append hg, Text.words_cons_blank (by decide)]
  · rw [← h.starts hb, Text.startsBlank_append hne, Text.startsBlank_of_allBlank hg hne]
    rfl
  · rw [← h.ends, Text.endsBlank_append hl, ← List.singleton_append, Text.endsBlank_append hl]
  · rw [← h.lines, hlines g hg, Text.trailingNewlines_cons hblank]

/-- A run in front of a line feed: something may have been written, but only a blank line. -/
structure Ahead (r r₀ : Run) : Prop where
  nesting : r₀.nesting = []
  last : r₀.last = r.last
  buffer : r₀.buffer = r.buffer ∨ ∃ len, r₀.buffer = r.buffer.blankLine len

/-- What a run left is run over as it was, with one line feed for the white space before it. -/
theorem Job.Leaves.runs_led (hp : j.style.reformatter = Ruby.passThrough)
    (h : j.Leaves r (a :: as) (b :: bs) q) (hr : r.nesting = [])
    (hraw : ∀ name content closeTag, a.unit ≠ .rawText name content closeTag)
    {g l : List Char} (hb : b.literal = g ++ l) (hg : allBlank g = true) (hne : g ≠ [])
    (hstart : startsBlank l = false) :
    ∃ r₀ q', Ahead r r₀ ∧ j.Runs r₀ (⟨'\n' :: l, b.unit⟩ :: bs) q' ∧ Near q q' := by
  have hnear : Near r r := ⟨by rw [hr]; exact .nil, rfl, rfl⟩
  cases h with
  | @cons _ r₁ _ _ _ _ _ hs hx hput hrest =>
    rw [hb] at hs
    by_cases hl : l = []
    · subst hl
      rw [List.append_nil] at hs
      have hblank : allBlank a.literal = true := by
        rw [← Text.words_eq_nil_iff, ← hs.words, Text.words_of_allBlank hg]
      let b₀ := if 1 < a.literal.count '\n' then r.buffer.blankLine j.len else r.buffer
      let r₀ : Run := { r with buffer := b₀ }
      have htext : r.text j.len j.width a.literal = { r₀ with gap := a.literal } :=
        r.text_of_blank j.len j.width hblank
      have htext' : r₀.text j.len j.width ['\n'] = { r₀ with gap := ['\n'] } := by
        rw [r₀.text_of_blank j.len j.width (by decide)]
        rfl
      have hsame : Near (r.text j.len j.width a.literal) (r₀.text j.len j.width ['\n']) := by
        rw [htext, htext']
        exact ⟨by rw [show r₀.nesting = [] from hr]; exact .nil, rfl, rfl⟩
      have hbreaks : a.unit.breaks j.style.checker (r.text j.len j.width a.literal) = true := by
        rw [← hs.ends, Text.endsBlank_of_allBlank hg hne]
      have hbreaks' : b.unit.breaks j.style.checker (r₀.text j.len j.width ['\n']) = true :=
        hx.breaks hraw (by rw [htext']; rfl)
      obtain ⟨r₁', hput', hnear₁⟩ := hsame.puts hp hx (hbreaks'.trans hbreaks.symm) hput
      obtain ⟨q', hq', hend⟩ := hnear₁.runs hp hrest
      refine ⟨r₀, q', ⟨hr, rfl, ?_⟩, .cons hput' hq', hend⟩
      by_cases hmany : 1 < a.literal.count '\n'
      · exact .inr ⟨j.len, if_pos hmany⟩
      · exact .inl (if_neg hmany)
    · have hled : j.Leaves r (a :: as) (⟨'\n' :: l, b.unit⟩ :: bs) q :=
        .cons (hs.lead hg hne hl hstart) hx hput hrest
      obtain ⟨q', hq', hend⟩ := hnear.runs hp hled
      exact ⟨r, q', ⟨hr, rfl, .inl rfl⟩, hq', hend⟩

/-- What is written of literal text, but for a blank line behind it. -/
theorem Near.text_end (h : Near r r') (hwords : words s' = words s)
    (hstart : allBlank s = false →
      (startsBlank s' || r.last == .control) = (startsBlank s || r.last == .control))
    (len : Measure) (width : Int) :
    ∃ u g g', allBlank g = true ∧ allBlank g' = true ∧
      (r.text len width s).buffer.text = u ++ g ∧ (r'.text len width s').buffer.text = u ++ g' := by
  have hline (c : Prop) [Decidable c] (b : Buffer) : ∃ g, allBlank g = true ∧
      (if c then b.blankLine len else b).text = b.text ++ g := by
    split
    · exact ⟨['\n'], by decide, Buffer.text_blankLine len b⟩
    · exact ⟨[], rfl, (List.append_nil _).symm⟩
  have hblank : allBlank s' = allBlank s := by
    rw [Bool.eq_iff_iff, ← Text.words_eq_nil_iff, ← Text.words_eq_nil_iff, hwords]
  cases hb : allBlank s with
  | true =>
    rw [r.text_of_blank len width hb, r'.text_of_blank len width (hblank.trans hb)]
    obtain ⟨g, hg, htext⟩ := hline (s.count '\n' > 1) r.buffer
    obtain ⟨g', hg', htext'⟩ := hline (s'.count '\n' > 1) r'.buffer
    rw [h.buffer] at htext'
    exact ⟨r.buffer.text, g, g', hg, hg', htext, by rw [h.buffer]; exact htext'⟩
  | false =>
    rw [r.text_of_not_blank len width hb, r'.text_of_not_blank len width (hblank.trans hb), h.last,
      hstart hb]
    obtain ⟨g, hg, htext⟩ := hline (Text.trailingNewlines s > 1)
      (r.wrapped len width s (startsBlank s || r.last == .control))
    obtain ⟨g', hg', htext'⟩ := hline (Text.trailingNewlines s' > 1)
      (r'.wrapped len width s' (startsBlank s || r.last == .control))
    rw [h.wrapped hwords] at htext'
    exact ⟨_, g, g', hg, hg', htext, by rw [h.wrapped hwords]; exact htext'⟩

/-- What a run leaves of a trail, and a run over that, behind a line feed or not. -/
structure Job.Reruns (j : Job) (tr : Trail) (b : Buffer) (bs : List Stride) (last lead : List Char)
    (r : Run) (e : Pen) : Prop where
  relaid : List.Forall₂ (Stride.Relaid j) (tr.strides.map Prod.fst) bs
  words : words last = words tr.last
  solid : endsBlank last = false
  start : startsBlank (bs.flatMap Stride.shown ++ last) = false
  text : ∃ g g', allBlank g = true ∧ allBlank g' = true ∧
    b.text = g ++ ((bs.flatMap Stride.shown ++ last) ++ g')
  place : lead = [] ∧ r = j.start ∨
    (lead = ['\n'] ∧ Ahead j.start r) ∧ bs.flatMap Stride.shown ++ last ≠ []
  runs : j.WritesAll ⟨r, []⟩
    (lead.map .char ++ (bs.flatMap Stride.parts ++ (last ++ ['\n']).map .char)) e
  opens : ∃ cs q, cs.map Stride.unit = bs.map Stride.unit ∧ j.Runs r cs q ∧ q.nesting = []
  closed : (j.release e).nesting = []
  output : ∃ u g g', allBlank g = true ∧ allBlank g' = true ∧ b.text = u ++ g ∧
    (j.release e).buffer.text = u ++ g'

theorem Job.Becomes.framed (hx : j.Becomes r x y) (hfair : x.Fair)
    (hraw : ∀ name content closeTag, x ≠ .rawText name content closeTag) :
    Text.Framed y.shown := by
  cases hx with
  | code _ _ _ _ _ _ => exact framed_build _ _ _ _
  | comment text => exact hfair
  | close text name => exact framed_closeText name
  | opening text _ _ => exact framed_openText _ _ _ _
  | rawText name content closeTag => exact absurd rfl (hraw _ _ _)

theorem Job.Becomes.ne_rawText (hx : j.Becomes r x y)
    (hraw : ∀ name content closeTag, x ≠ .rawText name content closeTag) :
    ∀ name content closeTag, y ≠ .rawText name content closeTag := by
  cases hx with
  | code | comment | close | opening => simp
  | rawText name content closeTag => exact absurd rfl (hraw _ _ _)

/-- The body of an element stays directly behind its open tag. -/
theorem Job.Leaves.flush (h : j.Leaves r as bs q)
    (hflush : ∀ a ∈ as, ∀ name content closeTag, a.unit = .rawText name content closeTag →
      a.literal = []) :
    ∀ b ∈ bs, ∀ name content closeTag, b.unit = .rawText name content closeTag →
      b.literal = [] := by
  induction h with
  | nil r => simp
  | @cons r r₁ q a b as bs hs hx _ _ ih =>
    obtain ⟨ha, has⟩ := List.forall_mem_cons.1 hflush
    refine List.forall_mem_cons.2 ⟨fun name content closeTag hb => ?_, ih has⟩
    generalize hunit : a.unit = x at hs hx
    generalize b.unit = y at hb hx
    cases hx with
    | rawText name content closeTag =>
      have hnil := ha _ _ _ hunit
      have hends := hs.ends
      have hwords := hs.words
      rw [hnil] at hwords
      by_contra hne
      rw [Text.endsBlank_of_allBlank (Text.words_eq_nil_iff.1 hwords) hne] at hends
      simp [Part.breaks] at hends
    | code | comment | close | opening => simp at hb

theorem exists_lead (s : List Char) :
    ∃ g l, s = g ++ l ∧ allBlank g = true ∧ startsBlank l = false := by
  refine ⟨s.takeWhile isBlank, s.dropWhile isBlank, (List.takeWhile_append_dropWhile).symm,
    Text.allBlank_takeWhile s, ?_⟩
  have hhead := head_dropWhile isBlank s
  cases hl : s.dropWhile isBlank with
  | nil => rfl
  | cons c l => exact hhead c (by rw [hl]; exact Option.mem_some_self c)

/-- The literal text behind the last unit, written at the end of both runs. -/
theorem release_last (j : Job) (last : List Char) {last' tail : List Char} (h : Near q r)
    (hnest : q.nesting = [])
    (hwords : words last' = words last)
    (hstart : allBlank last = false →
      startsBlank (last' ++ tail) = (startsBlank last || q.last == .control))
    (htail : allBlank tail = true) :
    (r.text j.len j.width (last' ++ tail)).nesting = [] ∧
      ∃ u g g', allBlank g = true ∧ allBlank g' = true ∧
        (q.text j.len j.width last).buffer.text = u ++ g ∧
        (r.text j.len j.width (last' ++ tail)).buffer.text = u ++ g' := by
  refine ⟨?_, h.text_end ?_ (fun hb => ?_) j.len j.width⟩
  · have hkin := h.nesting
    rw [hnest] at hkin
    simpa using List.forall₂_nil_left_iff.1 hkin
  · rw [Text.words_append_allBlank _ htail, hwords]
  · rw [hstart hb, Bool.or_assoc, Bool.or_self]

/-- What holds of the units of every template that is laid out. -/
structure Trail.Tidy (tr : Trail) : Prop where
  fair : ∀ s ∈ tr.strides, s.1.unit.Fair
  char : ∀ s ∈ tr.strides, ∀ c, s.1.unit ≠ .char c
  closed : ∀ s ∈ tr.strides, ∀ name content, s.1.unit ≠ .rawText name content []
  first : ∀ s ∈ tr.strides.head?, ∀ name content closeTag,
    s.1.unit ≠ .rawText name content closeTag

/-- A run over a trail that comes to its end. -/
theorem Trail.exists_runs {tr : Trail} {b : Buffer}
    (hchar : ∀ s ∈ tr.strides, ∀ c, s.1.unit ≠ .char c)
    (hclosed : ∀ s ∈ tr.strides, ∀ name content, s.1.unit ≠ .rawText name content [])
    (h : j.Finishes ⟨j.start, []⟩ tr.parts b) :
    ∃ q, j.Runs j.start (tr.strides.map Prod.fst) q ∧ q.nesting = [] ∧
      b = (q.text j.len j.width tr.last).buffer ∧
      ∀ a ∈ tr.strides.map Prod.fst, ∀ name content closeTag,
        a.unit = .rawText name content closeTag → a.literal = [] := by
  obtain ⟨e, hw, hnest, rfl⟩ := h
  rw [tr.parts_eq] at hw
  obtain ⟨p, hw, hlast⟩ := hw.split
  obtain ⟨q, rfl, hruns, hflush⟩ := Template.exists_runs (List.forall_mem_map.2 hchar)
    (List.forall_mem_map.2 hclosed) hw
  obtain rfl := hlast.unique (j.writesAll_chars q tr.last)
  rw [j.release_reverse, Run.nesting_text] at hnest
  exact ⟨q, hruns, hnest, by rw [j.release_reverse], hflush⟩

/-- What a run over a trail leaves of it: the text that is written, stride by stride. -/
structure Job.Left (j : Job) (tr : Trail) (b : Buffer) (q : Run) (bs : List Stride)
    (last : List Char) : Prop where
  leaves : j.Leaves j.start (tr.strides.map Prod.fst) bs q
  nesting : q.nesting = []
  flush : ∀ b ∈ bs, ∀ name content closeTag, b.unit = .rawText name content closeTag →
    b.literal = []
  buffer : b = (q.text j.len j.width tr.last).buffer
  text : b.text = (bs.flatMap Stride.shown ++ last) ++ blankLineOf tr.last
  kept : words last = words tr.last
  solid : endsBlank last = false
  start : allBlank tr.last = false →
    startsBlank last = (startsBlank tr.last || q.last == .control)

theorem exists_printed {tr : Trail} {b : Buffer} (hp : j.style.reformatter = Ruby.passThrough)
    (hchecker : j.style.checker.LineBlind) (htidy : tr.Tidy)
    (h : j.Finishes ⟨j.start, []⟩ tr.parts b) : ∃ q bs last, j.Left tr b q bs last := by
  obtain ⟨q, hruns, hclosed, rfl, hflush⟩ := Trail.exists_runs htidy.char htidy.closed h
  have hfair : ∀ a ∈ tr.strides.map Prod.fst, a.Fair := List.forall_mem_map.2 fun s hs =>
    ⟨htidy.fair s hs, hflush s.1 (List.mem_map_of_mem hs)⟩
  have hempty : Fitted [] j.start.buffer [] [] := ⟨[], .nil, holds_empty⟩
  obtain ⟨spots, hfirm, hfitted, hleaves⟩ := hruns.prints hp hchecker hfair (by simp [Firm]) hempty
  obtain ⟨ps, hps, hholds⟩ := Fitted.text hfirm hfitted j.len j.width tr.last
  obtain ⟨ps₁, ps₂, rfl, hps₁, hps₂⟩ := exists_fits_append hps
  obtain ⟨bs, hbs, hspread⟩ := hleaves ps₁ hps₁
  obtain ⟨hwords, hends, hstart, -⟩ := words_of_fits hps₂ fun w hw => Text.word_of_mem_words hw
  refine ⟨q, bs, Text.spread ps₂, hbs, hclosed, hbs.flush hflush, rfl, ?_, hwords, hends,
    fun hb => ?_⟩
  · rw [hholds.text, List.append_nil, Text.spread_append, hspread]
  · rw [hstart]
    have hne : words tr.last ≠ [] := by
      rw [ne_eq, Text.words_eq_nil_iff, hb]
      simp
    cases hws : words tr.last with
    | nil => exact absurd hws hne
    | cons w ws => simp

theorem startsBlank_shown {as : List Stride} {l last : List Char} (hl : startsBlank l = false)
    (hx : Text.Framed x.shown) :
    startsBlank ((⟨l, x⟩ :: as : List Stride).flatMap Stride.shown ++ last) = false := by
  rw [List.flatMap_cons, Stride.shown]
  cases l with
  | nil =>
    obtain ⟨u, hu⟩ := hx
    rw [hu]
    rfl
  | cons c l => exact hl

namespace Job.Left

variable {tr : Trail} {b : Buffer} {last : List Char} (h : j.Left tr b q bs last)
include h

theorem last_ne_nil (hblank : allBlank tr.last = false) : last ≠ [] := by
  rintro rfl
  have hwords := h.kept
  rw [Text.words_eq_nil_iff.1 hwords.symm] at hblank
  exact absurd hblank (by simp)

/-- Literal text alone, run over again. -/
theorem reruns_literal (hnil : tr.strides = []) :
    ∃ bs last lead r e, j.Reruns tr b bs last lead r e := by
  obtain ⟨hleaves, hclosed, -, hb, htext, hwords, hsolid, hstart⟩ := h
  rw [hnil] at hleaves
  cases hleaves
  obtain ⟨g, l, rfl, hg, hl⟩ := exists_lead last
  have hlwords : words l = words tr.last := by rw [← hwords, Text.words_allBlank_append hg]
  have hlsolid : endsBlank l = false := by
    by_cases hnil : l = []
    · rw [hnil]
      rfl
    · rwa [Text.endsBlank_append hnil] at hsolid
  -- White space at the start counts by being there only: a line feed stands for it.
  let lead := if g = [] then [] else ['\n']
  have hlead : allBlank lead = true := by
    unfold lead
    split <;> rfl
  have hlwords' : words (lead ++ l) = words tr.last := by
    rw [Text.words_allBlank_append hlead, hlwords]
  have hlstart (hblank : allBlank tr.last = false) : startsBlank (lead ++ l ++ ['\n']) =
      (startsBlank tr.last || j.start.last == .control) := by
    rw [← hstart hblank]
    unfold lead
    split
    · rename_i hnil
      subst hnil
      refine Text.startsBlank_append (s := l) fun hl => ?_
      rw [hl] at hlwords
      rw [Text.words_eq_nil_iff.1 hlwords.symm] at hblank
      exact absurd hblank (by simp)
    · rename_i hne
      rw [Text.startsBlank_append hne, Text.startsBlank_of_allBlank hg hne]
      rfl
  have hnear : Near j.start j.start := ⟨.nil, rfl, rfl⟩
  obtain ⟨hnest, hout⟩ := release_last j tr.last hnear rfl hlwords' hlstart (by decide)
  refine ⟨[], l, lead, j.start, ⟨j.start, (lead ++ l ++ ['\n']).reverse⟩, ?_, hlwords, hlsolid,
    hl, ⟨g, _, hg, allBlank_blankLineOf tr.last, ?_⟩, ?_, ?_, ⟨[], j.start, rfl, .nil _, rfl⟩, ?_,
    ?_⟩
  · rw [hnil]
    exact .nil
  · rw [htext, List.flatMap_nil, List.nil_append, List.nil_append, List.append_assoc]
  · unfold lead
    split
    · exact .inl ⟨rfl, rfl⟩
    · rename_i hne
      refine .inr ⟨⟨rfl, rfl, rfl, .inl rfl⟩, ?_⟩
      rintro (hnil : l = [])
      rw [hnil, List.append_nil, Text.endsBlank_of_allBlank hg hne] at hsolid
      exact absurd hsolid (by simp)
  · have hall := j.writesAll_chars j.start (lead ++ l ++ ['\n'])
    rwa [List.append_assoc, List.map_append, ← List.append_assoc] at hall
  · rwa [j.release_reverse]
  · rwa [hb, j.release_reverse]

/-- A first unit and what follows, run over again: of the white space before it at most a line feed
is left. -/
theorem reruns_unit (hp : j.style.reformatter = Ruby.passThrough) (htidy : tr.Tidy)
    {s : Stride × Name} {ss : List (Stride × Name)} (hcons : tr.strides = s :: ss) :
    ∃ bs last lead r e, j.Reruns tr b bs last lead r e := by
  have hsome (hblank : allBlank tr.last = false) := h.last_ne_nil hblank
  obtain ⟨hall, hclosed, hflush, hb, htext, hwords, hsolid, hstart⟩ := h
  have hraw : ∀ name content closeTag, s.1.unit ≠ .rawText name content closeTag :=
    htidy.first s (by rw [hcons]; rfl)
  have hfair := htidy.fair s (by rw [hcons]; exact List.mem_cons_self)
  rw [hcons, List.map_cons] at hall
  obtain ⟨b', bs, rfl⟩ : ∃ b' bs', bs = b' :: bs' := by
    cases hall
    exact ⟨_, _, rfl⟩
  obtain ⟨r₁, hx⟩ : ∃ r₁, j.Becomes r₁ s.1.unit b'.unit := by
    cases hall with
    | cons _ hx _ _ => exact ⟨_, hx⟩
  have hframed := hx.framed hfair hraw
  obtain ⟨g, l, hliteral, hg, hl⟩ := exists_lead b'.literal
  -- Behind white space the second run starts with a line feed, which is all it takes to put the
  -- first unit where it was.
  obtain ⟨lead, r, q', hplace, hq', hend⟩ : ∃ lead r q',
      (lead = [] ∧ r = j.start ∨ lead = ['\n'] ∧ Ahead j.start r) ∧
        j.Runs r (⟨lead ++ l, b'.unit⟩ :: bs) q' ∧ Near q q' := by
    by_cases hnil : g = []
    · have hnear : Near j.start j.start := ⟨.nil, rfl, rfl⟩
      obtain ⟨q', hq', hend⟩ := hnear.runs hp hall
      subst hnil
      refine ⟨[], j.start, q', .inl ⟨rfl, rfl⟩, ?_, hend⟩
      rwa [List.nil_append, ← List.nil_append l, ← hliteral]
    · obtain ⟨r, q', hahead, hq', hend⟩ := hall.runs_led hp rfl hraw hliteral hg hnil hl
      exact ⟨['\n'], r, q', .inr ⟨rfl, hahead⟩, hq', hend⟩
  have hclosed' : q'.nesting = [] := by
    have hkin := hend.nesting
    rw [hclosed] at hkin
    exact List.forall₂_nil_left_iff.1 hkin
  have hlast (hblank : allBlank tr.last = false) : startsBlank (last ++ ['\n']) =
      (startsBlank tr.last || q.last == .control) := by
    rw [Text.startsBlank_append (hsome hblank), hstart hblank]
  obtain ⟨hnest, hout⟩ := release_last j tr.last hend hclosed hwords hlast (by decide)
  have hwritten := writesAll_of_runs hq' (List.forall_mem_cons.2
    ⟨fun _ _ _ hr => absurd hr (hx.ne_rawText hraw _ _ _),
      fun b hb => hflush b (List.mem_cons_of_mem _ hb)⟩)
  refine ⟨⟨l, b'.unit⟩ :: bs, last, lead, r, ⟨q', (last ++ ['\n']).reverse⟩, ?_, hwords, hsolid,
    startsBlank_shown hl hframed, ⟨g, _, hg, allBlank_blankLineOf tr.last, ?_⟩,
    hplace.imp_right fun hahead => ⟨hahead, ?_⟩, ?_,
    ⟨⟨lead ++ l, b'.unit⟩ :: bs, q', rfl, hq', hclosed'⟩, ?_, ?_⟩
  · rw [hcons, List.map_cons]
    cases hall.relaid hflush with
    | cons hb hbs =>
      refine .cons ⟨?_, fun hne hends => hb.solid ?_ ?_, fun name content closeTag hunit =>
        absurd hunit (hx.ne_rawText hraw name content closeTag), hb.unit⟩ hbs
      · rw [← hb.words, hliteral, Text.words_allBlank_append hg]
      · rw [hliteral]
        simp [hne]
      · rwa [hliteral, Text.endsBlank_append hne]
  · rw [htext, List.flatMap_cons, List.flatMap_cons, Stride.shown, Stride.shown, hliteral]
    simp only [List.append_assoc]
  · obtain ⟨u, hu⟩ := hframed
    simp [Stride.shown, hu]
  · have hwhole := hwritten.append (j.writesAll_chars q' (last ++ ['\n']))
    simpa only [List.flatMap_cons, Stride.parts, List.map_append, List.append_assoc] using hwhole
  · rwa [j.release_reverse]
  · rwa [hb, j.release_reverse]

end Job.Left

/-- A run over a template, and one over what it left. -/
theorem exists_reruns {tr : Trail} {b : Buffer} (hp : j.style.reformatter = Ruby.passThrough)
    (hchecker : j.style.checker.LineBlind) (htidy : tr.Tidy)
    (h : j.Finishes ⟨j.start, []⟩ tr.parts b) :
    ∃ bs last lead r e, j.Reruns tr b bs last lead r e := by
  obtain ⟨q, bs, last, hleft⟩ := exists_printed hp hchecker htidy h
  cases hcons : tr.strides with
  | nil => exact hleft.reruns_literal hcons
  | cons s ss => exact hleft.reruns_unit hp htidy hcons

end ErbLayout.Template
