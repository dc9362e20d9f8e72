import ErbLayout.Proofs.Template.Retraced
/-!
What a run writes, as it is read again: the words of the literal text behind white space, and
between them the units. Making room later on changes only white space between words of one text.
-/

namespace ErbLayout.Layout

open Text (Word allBlank spread)

/-- What is known of the white space before a stretch: whether there is some, or all of it. -/
inductive Gap where
  | any (apart : Bool)
  | exactly (g : List Char)

def Gap.Fits : Gap → List Char → Prop
  | .any apart, g => allBlank g = true ∧ (g ≠ [] ↔ apart = true)
  | .exactly g, g' => g' = g

/-- A stretch to come. -/
structure Spot where
  gap : Gap
  text : List Char

structure Spot.Fits (c : Spot) (p : List Char × List Char) : Prop where
  text : p.2 = c.text
  gap : c.gap.Fits p.1

/-- No space alone that has to stay. -/
def Firm (spots : List Spot) : Prop := ∀ c ∈ spots, c.gap ≠ .exactly [' ']

/-- The spots of words, of which the first stands apart or not. -/
def wordSpots (apart : Bool) : List (List Char) → List Spot
  | [] => []
  | w :: ws => ⟨.any apart, w⟩ :: ws.map fun v => ⟨.any true, v⟩

/-- The spots of stretches that stay as they are. -/
def exactSpots (us : List (List Char × List Char)) : List Spot :=
  us.map fun u => ⟨.exactly u.1, u.2⟩

variable {spots spots' : List Spot} {ps ps' qs : List (List Char × List Char)}

theorem Firm.append (h : Firm spots) (h' : Firm spots') : Firm (spots ++ spots') :=
  List.forall_mem_append.2 ⟨h, h'⟩

theorem firm_wordSpots (apart : Bool) (ws : List (List Char)) : Firm (wordSpots apart ws) := by
  intro c hc
  cases ws with
  | nil => simp [wordSpots] at hc
  | cons w ws =>
    rcases List.mem_cons.1 hc with rfl | hc
    · simp
    · obtain ⟨v, -, rfl⟩ := List.mem_map.1 hc
      simp

theorem firm_exactSpots (h : ∀ p ∈ ps, p.1 ≠ [' ']) : Firm (exactSpots ps) := by
  intro c hc
  obtain ⟨p, hp, rfl⟩ := List.mem_map.1 hc
  simpa using h p hp

theorem fits_exactSpots (us : List (List Char × List Char)) :
    List.Forall₂ Spot.Fits (exactSpots us) us := by
  induction us with
  | nil => exact .nil
  | cons u us ih => exact .cons ⟨rfl, rfl⟩ ih

theorem eq_of_exactSpots (h : List.Forall₂ Spot.Fits (exactSpots ps) qs) : qs = ps := by
  induction ps generalizing qs with
  | nil => exact List.forall₂_nil_left_iff.1 h
  | cons p ps ih =>
    obtain ⟨q, qs, hq, hqs, rfl⟩ := List.forall₂_cons_left_iff.1 h
    rw [ih hqs, show q = p from Prod.ext hq.gap hq.text]

theorem exists_fits_append (h : List.Forall₂ Spot.Fits (spots ++ spots') qs) :
    ∃ qs₁ qs₂, qs = qs₁ ++ qs₂ ∧ List.Forall₂ Spot.Fits spots qs₁ ∧
      List.Forall₂ Spot.Fits spots' qs₂ := by
  refine ⟨qs.take spots.length, qs.drop spots.length, (List.take_append_drop _ _).symm, ?_, ?_⟩
  · simpa using List.forall₂_take spots.length h
  · simpa using List.forall₂_drop spots.length h

/-- Where room is made, a space becomes a line break that need not stay. -/
theorem Roomed.fits {len : Measure} {width needed : Int} {b b' : Buffer} (hfirm : Firm spots)
    (h : Roomed len width needed b b' ps ps') (hps : List.Forall₂ Spot.Fits spots ps) :
    List.Forall₂ Spot.Fits spots ps' := by
  cases h with
  | kept => exact hps
  | @broken k pre post w _ _ hsplit =>
    subst hsplit
    clear * - hps hfirm
    induction pre generalizing spots with
    | nil =>
      obtain ⟨c, cs, hc, hcs, rfl⟩ := List.forall₂_cons_right_iff.1 hps
      refine .cons ⟨hc.text, ?_⟩ hcs
      have hgap := hc.gap
      cases hany : c.gap with
      | any apart =>
        rw [hany] at hgap
        exact ⟨lineBreak_allBlank _, by simpa using hgap.2⟩
      | exactly g =>
        rw [hany] at hgap
        exact absurd (hany.trans (congrArg Gap.exactly hgap.symm)) (hfirm c List.mem_cons_self)
    | cons p pre ih =>
      obtain ⟨c, cs, hc, hcs, rfl⟩ := List.forall₂_cons_right_iff.1 hps
      exact .cons hc (ih (fun d hd => hfirm d (List.mem_cons_of_mem c hd)) hcs)

/-- Stretches in a buffer that fit spots, with room made or not. -/
def Fitted (spots : List Spot) (b : Buffer) (qs : List (List Char × List Char))
    (tail : List Char) : Prop :=
  ∃ ps, List.Forall₂ Spot.Fits spots ps ∧ Holds b (ps ++ qs) tail

theorem Fitted.makeRoom {b : Buffer} {tail : List Char} (hfirm : Firm spots)
    (h : Fitted spots b [] tail) (len : Measure) (width needed : Int) :
    Fitted spots (b.makeRoom len width needed) [] tail := by
  obtain ⟨ps, hps, hb⟩ := h
  rw [List.append_nil] at hb
  obtain ⟨ps', hb', hroom⟩ := hb.makeRoom len width needed
  exact ⟨ps', hroom.fits hfirm hps, by rwa [List.append_nil]⟩

theorem Fitted.concat {b : Buffer} {tail : List Char} (h : Fitted spots b qs tail)
    (hqs : List.Forall₂ Spot.Fits spots' qs) : Fitted (spots ++ spots') b [] tail := by
  obtain ⟨ps, hps, hb⟩ := h
  exact ⟨ps ++ qs, List.rel_append hps hqs, by rwa [List.append_nil]⟩

theorem Fitted.unconcat {b : Buffer} {us : List (List Char × List Char)} {tail : List Char}
    (h : Fitted (spots ++ exactSpots us) b qs tail) : Fitted spots b (us ++ qs) tail := by
  obtain ⟨ps, hps, hb⟩ := h
  obtain ⟨ps₁, ps₂, rfl, hps₁, hps₂⟩ := exists_fits_append hps
  obtain rfl := eq_of_exactSpots hps₂
  exact ⟨ps₁, hps₁, by rwa [← List.append_assoc]⟩

end ErbLayout.Layout

namespace ErbLayout.Template

open Layout Markup Placeholder
open Text (Framed PlainLines Word allBlank startsBlank endsBlank spread words)
open Job (closes inlineClosing layoutLog openText)

variable {spots : List Spot} {r : Run} {len : Measure} {width : Int} {s tail : List Char}

/-- The blank line that literal text leaves behind it. -/
def blankLineOf (s : List Char) : List Char := if Text.trailingNewlines s > 1 then ['\n'] else []

theorem fits_wordSpots {gap w : List Char} {ws : List (List Char)}
    {qs : List (List Char × List Char)} {apart : Bool} (hblank : allBlank gap = true)
    (hgap : gap ≠ [] ↔ apart = true) (h : List.Forall₂ Behind ws qs) :
    List.Forall₂ Spot.Fits (wordSpots apart (w :: ws)) ((gap, w) :: qs) := by
  refine .cons ⟨rfl, hblank, hgap⟩ ?_
  rw [List.forall₂_map_left_iff]
  exact h.imp fun v p hp => ⟨hp.text, hp.blank, by simpa using hp.apart⟩

/-- Literal text is written as its words. -/
theorem Fitted.text (hfirm : Firm spots) (h : Fitted spots r.buffer [] []) (len : Measure)
    (width : Int) (s : List Char) :
    Fitted (spots ++ wordSpots (startsBlank s || r.last == .control) (words s))
      (r.text len width s).buffer [] (blankLineOf s) := by
  cases hb : allBlank s with
  | true =>
    have hblank : (if s.count '\n' > 1 then r.buffer.blankLine len else r.buffer) =
        if Text.trailingNewlines s > 1 then r.buffer.blankLine len else r.buffer := by
      rw [Text.trailingNewlines_of_allBlank hb]
    rw [r.text_of_blank len width hb, Text.words_of_allBlank hb, wordSpots, List.append_nil]
    dsimp only
    rw [hblank, blankLineOf]
    obtain ⟨ps, hps, hholds⟩ := h
    split
    · exact ⟨ps, hps, hholds.blankLine len⟩
    · exact ⟨ps, hps, hholds⟩
  | false =>
    rw [r.text_of_not_blank len width hb]
    generalize hnew : (startsBlank s || r.last == .control) = newLine
    obtain ⟨ps, hps, hroom⟩ : Fitted spots (r.roomFor len width s newLine) [] [] := by
      unfold Run.roomFor
      dsimp only
      split
      · exact h
      · exact h.makeRoom hfirm _ _ _
    rw [List.append_nil] at hroom
    obtain ⟨groups, hlines, hflat, hne, -⟩ := wrap_groups len s
      ((2 * r.nesting.depth : Nat) + effectiveWidth width r.nesting.depth)
      (if newLine then (2 * r.nesting.depth : Nat) else (r.roomFor len width s newLine).column)
      (2 * r.nesting.depth : Nat)
    have hgroups : groups ≠ [] := by
      rintro rfl
      rw [List.flatten_nil] at hflat
      rw [Text.words_eq_nil_iff.1 hflat.symm] at hb
      simp at hb
    obtain ⟨g, groups, rfl⟩ := List.exists_cons_of_ne_nil hgroups
    have hwords : ∀ g' ∈ g :: groups, ∀ w ∈ g', Word w := fun g' hg' w hw =>
      Text.word_of_mem_words (hflat ▸ List.mem_flatten.2 ⟨g', hg', hw⟩)
    have hwritten := hroom.writeWrapped len r.nesting.depth newLine hne hwords
    obtain ⟨w, ws, gap, qs, hcut, hline, hblank, hgap, hbehind⟩ := exists_wrapped r.nesting.depth
      newLine (hne g List.mem_cons_self) groups
    have hwrapped : Fitted (spots ++ wordSpots newLine (words s))
        (r.wrapped len width s newLine) [] [] := by
      rw [← hflat, hcut]
      refine Fitted.concat ⟨ps, hps, ?_⟩ (fits_wordSpots hblank hgap hbehind)
      rw [hline] at hwritten
      unfold Run.wrapped
      dsimp only
      convert hwritten using 1
      push_cast at hlines ⊢
      rw [hlines]
      rfl
    dsimp only
    rw [blankLineOf]
    obtain ⟨ps', hps', hholds⟩ := hwrapped
    split
    · exact ⟨ps', hps', hholds.blankLine len⟩
    · exact ⟨ps', hps', hholds⟩

/-- What is needed of a unit so that it is read again. -/
def Part.Fair : Part (List Char) → Prop
  | .code text => ∀ tag, Erb.Tag.split? text = some tag → PlainLines tag.code
  | .comment text => Framed text
  | .opening text name attrs closing =>
    (∃ s, Token.readAny s = some (.opening text name attrs closing)) ∧
      ∀ a ∈ Attribute.all attrs, a.Solid
  | _ => True

theorem trim_of_framed {s : List Char} (h : Framed s) : Text.trim s = s := by
  obtain ⟨u, rfl⟩ := h
  exact Text.trim_eq_self rfl (Text.endsBlank_append (s := '<' :: u) (t := ['>']) (by simp))

/-- A unit is written on a line of its own or flush. -/
theorem Fitted.emit (hfirm : Firm spots) (h : Fitted spots r.buffer [] tail) (hs : Framed s)
    (len : Measure) (width : Int) {newLine : Bool} (htail : tail ≠ [] → newLine = true) :
    Fitted spots (r.emit len width s newLine).buffer
      [(tail ++ lead r.nesting.depth newLine, s)] [] := by
  unfold Run.emit lead
  cases newLine with
  | true =>
    obtain ⟨ps, hps, hb⟩ := h
    rw [List.append_nil] at hb
    refine ⟨ps, hps, hb.writeLine len _ ?_⟩
    rw [indented, trim_of_framed hs]
    simp
  | false =>
    obtain rfl : tail = [] := by
      by_contra hne
      exact absurd (htail hne) (by simp)
    dsimp only
    obtain ⟨ps, hps, hb⟩ := h.makeRoom hfirm len width (len (Text.firstLine s))
    rw [List.append_nil] at hb
    exact ⟨ps, hps, hb.write len _ (by simp)⟩

/-- What is written of a unit: the white space before it and what it is read again as. -/
structure Job.Printed (j : Job) (spots : List Spot) (r r₁ : Run) (tail : List Char)
    (x y : Part (List Char)) (us : List (List Char × List Char)) : Prop where
  becomes : j.Becomes r x y
  text : ∃ depth, spread us = tail ++ lead depth (x.breaks j.style.checker r) ++ y.shown
  firm : ∀ u ∈ us, u.1 ≠ [' ']
  fitted : Fitted spots r₁.buffer us []

theorem ne_space_of_lead {depth : Nat} {newLine : Bool} (htail : tail ≠ [] → newLine = true) :
    tail ++ lead depth newLine ≠ [' '] := by
  cases newLine with
  | true =>
    intro h
    have hmem : '\n' ∈ tail ++ lead depth true := by simp [lead]
    rw [h] at hmem
    simp at hmem
  | false =>
    obtain rfl : tail = [] := by
      by_contra hne
      exact absurd (htail hne) (by simp)
    simp [lead]

/-- A unit that is written as one stretch. -/
theorem Job.Printed.single {j : Job} {r₁ : Run} {x y : Part (List Char)} (depth : Nat)
    {text : List Char} (hbecomes : j.Becomes r x y) (htext : y.shown = text)
    (htail : tail ≠ [] → x.breaks j.style.checker r = true)
    (h : Fitted spots r₁.buffer [(tail ++ lead depth (x.breaks j.style.checker r), text)] []) :
    ∃ us, j.Printed spots r r₁ tail x y us :=
  ⟨_, hbecomes, ⟨depth, by simp [htext]⟩, List.forall_mem_singleton.2 (ne_space_of_lead htail), h⟩

section Puts

variable {j : Job} {r₁ : Run}
variable (hfirm : Firm spots) (h : Fitted spots r.buffer [] tail)
include hfirm h

theorem Fitted.comment {text : List Char} (hs : Framed text)
    (htail : tail ≠ [] → (Part.comment text : Part (List Char)).breaks j.style.checker r = true) :
    ∃ y us, j.Printed spots r (j.comment r text) tail (.comment text) y us :=
  ⟨_, Job.Printed.single r.nesting.depth (.comment text) rfl htail
    (Fitted.emit hfirm h hs j.len j.width htail)⟩

theorem Fitted.close {text name : List Char}
    (htail : tail ≠ [] → (Part.close text name).breaks j.style.checker r = true) :
    ∃ y us, j.Printed spots r (j.afterClose r name) tail (.close text name) y us := by
  have hpop : Fitted spots r.pop.buffer [] tail := by
    rw [(Run.samePlace_pop r).buffer]
    exact h
  exact ⟨_, Job.Printed.single r.pop.nesting.depth (.close text name) rfl htail
    (Fitted.emit hfirm hpop ⟨'/' :: name, rfl⟩ j.len j.width htail)⟩

theorem Fitted.opening {text name attrs : List Char} {closing : Closing}
    (hread : ∃ s, Token.readAny s = some (.opening text name attrs closing))
    (hsolid : ∀ a ∈ Attribute.all attrs, a.Solid)
    (htail : tail ≠ [] → (Part.opening text name attrs closing).breaks j.style.checker r = true) :
    ∃ y us, j.Printed spots r (j.afterOpen r name attrs closing) tail
      (.opening text name attrs closing) y us := by
  obtain ⟨s, hs⟩ := hread
  obtain ⟨attrs', hback, hsame⟩ := j.exists_interchange hs hsolid r.nesting.depth
    (j.openColumn r name attrs closing)
  have hbefore : Fitted spots (j.beforeOpen r name attrs closing).buffer [] tail := by
    unfold Job.beforeOpen
    split
    · exact h
    · exact h.makeRoom hfirm _ _ _
  have hframed := framed_openText r.nesting.depth name (j.attributesIn r name attrs closing) closing
  let r₀ := (j.beforeOpen r name attrs closing).note
    (layoutLog r.nesting.depth (j.attributesIn r name attrs closing))
  have hwritten := Fitted.emit (r := r₀) hfirm hbefore hframed j.len j.width htail
  refine ⟨_, Job.Printed.single r₀.nesting.depth (.opening text hsame hback) rfl htail ?_⟩
  unfold Job.afterOpen
  dsimp only
  split
  · exact hwritten
  · exact hwritten

theorem Fitted.code (hp : j.style.reformatter = Ruby.passThrough)
    (hchecker : j.style.checker.LineBlind) {text : List Char}
    (hplain : ∀ tag, Erb.Tag.split? text = some tag → PlainLines tag.code)
    (htail : tail ≠ [] → (Part.code text : Part (List Char)).breaks j.style.checker r = true)
    {o : Nat} (hr : j.codeTag r text o = .ok r₁) :
    ∃ y us, j.Printed spots r r₁ tail (.code text) y us := by
  obtain ⟨tag, r₀, code, ht, hs, rfl, hcases⟩ := Job.codeTag_cases hr
  obtain ⟨hstart, hend⟩ := Erb.Tag.ends_code ht
  have hlaid := laidCode_eq j.style.checker hstart hend (hplain tag ht)
  have hdepth : r₀.nesting.depth = j.codeDepth r tag := by
    unfold Job.codeDepth
    rcases hcases with ⟨hk, -, hn, -⟩ | ⟨hk, hn, -⟩
    · rw [if_pos hk, hn]
      exact List.length_tail
    · rw [if_neg (by rw [hk]; simp), hn]
  -- The formatter hands the code back, so that the tag is built with the code it had.
  obtain rfl : code = tag.code := by
    rcases hcases with ⟨-, -, -, hcode⟩ | ⟨hk, -, result, hresult, hcode⟩
    · exact hcode
    · rw [hp] at hresult
      obtain rfl : Job.codeGiven j.style.checker tag.code = result := Except.ok.inj hresult
      rw [laidCode, if_neg (by rw [hk]; simp)] at hlaid
      rw [hcode, hlaid]
  have hindent : ∀ c ∈ Nesting.indentOf (j.codeDepth r tag), c = ' ' := fun c hc =>
    List.eq_of_mem_replicate hc
  obtain ⟨code', ht', hsame, hlines, hplain'⟩ :=
    Erb.Tag.exists_rebuilt ht (hplain tag ht) hindent
  obtain ⟨hstart', hend'⟩ := Erb.Tag.ends_code ht'
  have hkind := hchecker.classify_eq hstart' hend' hstart hend hlines
  have hbreaks : (Part.code text : Part (List Char)).breaks j.style.checker r =
      ((Ruby.classify j.style.checker tag.code).isControlFlow || r₀.breaksBeforeCode) := by
    rw [Part.breaks, ht, hs.breaksBeforeCode]
    rfl
  have hbuffer : Fitted spots r₀.buffer [] tail := by
    rw [hs.buffer]
    exact h
  have hbuilt : tag.text (Nesting.indentOf (j.codeDepth r tag)) =
      Erb.Tag.build tag.opener.text tag.code tag.closer.text r₀.indent := by
    rw [Erb.Tag.text, ← hdepth]
    rfl
  have hwritten := Fitted.emit (r := r₀) hfirm hbuffer
    (framed_build tag.opener tag.code tag.closer r₀.indent) j.len j.width (hbreaks ▸ htail)
  refine ⟨_, Job.Printed.single r₀.nesting.depth (.code ht hlaid ht' hsame hkind
    (laidCode_eq j.style.checker hstart' hend' hplain')) hbuilt htail ?_⟩
  rw [hbreaks]
  unfold Job.afterCode
  dsimp only
  split
  · exact hwritten
  · exact hwritten

theorem Fitted.rawText (htail : tail = []) {name content closeTag : List Char}
    (hclose : closeTag ≠ []) :
    ∃ y us, j.Printed spots r (j.rawText r name content closeTag) tail
      (.rawText name content closeTag) y us := by
  subst htail
  have hframed : Framed ('<' :: '/' :: name ++ ['>']) := ⟨'/' :: name, rfl⟩
  have hbody : (j.afterBody r content).pop.buffer =
      r.buffer.write j.len (Text.trimRight content) ∧
      (j.afterBody r content).pop.nesting.depth = r.nesting.depth - 1 := by
    rw [(Run.samePlace_pop _).buffer, Run.depth_pop]
    unfold Job.afterBody
    split <;> exact ⟨rfl, rfl⟩
  have hspots : Firm (spots ++ exactSpots [([], Text.trimRight content)]) :=
    hfirm.append (firm_exactSpots (List.forall_mem_singleton.2 (by simp)))
  have hfitted : Fitted (spots ++ exactSpots [([], Text.trimRight content)])
      (j.afterBody r content).pop.buffer [] [] := by
    obtain ⟨ps, hps, hb⟩ := h
    rw [List.append_nil] at hb
    rw [hbody.1]
    exact Fitted.concat ⟨ps, hps, hb.write j.len [([], Text.trimRight content)] (by simp)⟩
      (fits_exactSpots _)
  have hnone : ([] : List Char) ≠ [] → endsBlank content = true := fun hne => absurd rfl hne
  have hfinal := (Fitted.emit hspots hfitted hframed j.len j.width hnone).unconcat
  rw [hbody.2] at hfinal
  rw [j.rawText_closed r name content hclose]
  refine ⟨_, _, .rawText name content closeTag, ⟨0, ?_⟩, ?_, hfinal⟩
  · simp [Part.shown, Part.breaks, lead, Job.bodyEnd]
  · refine List.forall_mem_cons.2 ⟨by simp, List.forall_mem_singleton.2 ?_⟩
    exact ne_space_of_lead (by simp)

/-- A unit is written as what it is read again as. -/
theorem Fitted.puts {x : Part (List Char)} (hp : j.style.reformatter = Ruby.passThrough)
    (hchecker : j.style.checker.LineBlind) (hfair : x.Fair)
    (htail : tail ≠ [] → x.breaks j.style.checker r = true) (hr : j.Puts r x r₁) :
    ∃ y us, j.Printed spots r r₁ tail x y us := by
  cases hr with
  | code hr => exact Fitted.code hfirm h hp hchecker hfair htail (hr 0)
  | comment text => exact Fitted.comment hfirm h hfair htail
  | @close name _ text hr =>
    have hok := hr 0
    cases hn : r.nesting.topIsElement name with
    | false =>
      rw [j.closeTag_unmatched hn] at hok
      simp at hok
    | true =>
      rw [j.closeTag_open hn] at hok
      obtain rfl := Except.ok.inj hok
      exact Fitted.close hfirm h htail
  | @opening name attrs closing _ text hr =>
    have hok := hr 0
    cases hv : Element.isValidName name with
    | false =>
      rw [j.openTag_invalid hv] at hok
      simp at hok
    | true =>
      rw [j.openTag_valid hv] at hok
      obtain rfl := Except.ok.inj hok
      exact Fitted.opening hfirm h hfair.1 hfair.2 htail
  | rawText name content hclose =>
    refine Fitted.rawText hfirm h ?_ hclose
    by_contra hne
    exact absurd (htail hne) (by simp [Part.breaks])

end Puts

theorem wordSpots_cons (apart : Bool) (w : List Char) (ws : List (List Char)) :
    wordSpots apart (w :: ws) = ⟨.any apart, w⟩ :: wordSpots true ws := by
  cases ws <;> rfl

/-- Stretches that fit the words of a text. -/
theorem words_of_fits {apart : Bool} {ws : List (List Char)} {qs : List (List Char × List Char)}
    (h : List.Forall₂ Spot.Fits (wordSpots apart ws) qs) (hw : ∀ w ∈ ws, Word w) :
    words (spread qs) = ws ∧ endsBlank (spread qs) = false ∧
      startsBlank (spread qs) = (apart && !ws.isEmpty) ∧ (spread qs = [] ↔ ws = []) := by
  induction ws generalizing apart qs with
  | nil =>
    obtain rfl := List.forall₂_nil_left_iff.1 h
    exact ⟨rfl, rfl, by simp [startsBlank], by simp⟩
  | cons w ws ih =>
    rw [wordSpots_cons] at h
    obtain ⟨⟨g, v⟩, qs, ⟨hv, hblank, hgap⟩, hqs, rfl⟩ := List.forall₂_cons_left_iff.1 h
    dsimp only at hv hblank hgap
    subst hv
    obtain ⟨hword, hws⟩ := List.forall_mem_cons.1 hw
    obtain ⟨hwords, hend, hstart, hnil⟩ := ih hqs hws
    have hnext : spread qs = [] ∨ startsBlank (spread qs) = true := by
      rw [hnil, hstart]
      cases ws <;> simp
    refine ⟨?_, ?_, ?_, by simp [hword.ne_nil]⟩
    · rw [Text.spread_cons, List.append_assoc, Text.words_of_first hblank hword hnext, hwords]
    · rw [Text.spread_cons]
      by_cases hqs : spread qs = []
      · rw [hqs, List.append_nil, Text.endsBlank_append hword.ne_nil, hword.endsBlank]
      · rw [Text.endsBlank_append hqs, hend]
    · rw [Text.spread_cons, List.append_assoc]
      by_cases hg : g = []
      · have hflush : apart = false := by
          rw [← Bool.not_eq_true, ← hgap]
          simpa using hg
        rw [hg, List.nil_append, Text.startsBlank_append hword.ne_nil, hword.startsBlank, hflush]
        rfl
      · rw [Text.startsBlank_append hg, Text.startsBlank_of_allBlank hblank hg, hgap.1 hg]
        rfl

theorem trailingNewlines_append {u g : List Char} (hu : endsBlank u = false)
    (hg : allBlank g = true) : Text.trailingNewlines (u ++ g) = g.count '\n' := by
  have hall : ∀ c ∈ g.reverse, isBlank c = true := fun c hc =>
    List.all_eq_true.1 hg c (List.mem_reverse.1 hc)
  have hstop : u.reverse.takeWhile isBlank = [] := by
    have hzero := Text.trailingNewlines_of_solid hu
    unfold endsBlank at hu
    cases hrev : u.reverse with
    | nil => rfl
    | cons c v =>
      rw [hrev] at hu
      exact List.takeWhile_cons_of_neg (by simpa [startsBlank] using hu)
  rw [Text.trailingNewlines, List.reverse_append, List.takeWhile_append_of_pos hall, hstop,
    List.append_nil, List.count_reverse]

theorem allBlank_lead (depth : Nat) (newLine : Bool) : allBlank (lead depth newLine) = true := by
  cases newLine with
  | true => exact lineBreak_allBlank depth
  | false => rfl

theorem count_lead (depth : Nat) (newLine : Bool) :
    (lead depth newLine).count '\n' = if newLine then 1 else 0 := by
  cases newLine with
  | true => simp [lead, Nesting.indentOf, List.count_replicate]
  | false => rfl

theorem allBlank_blankLineOf (s : List Char) : allBlank (blankLineOf s) = true := by
  unfold blankLineOf
  split <;> rfl

theorem endsBlank_of_blankLineOf (h : blankLineOf s ≠ []) : endsBlank s = true := by
  by_contra hend
  rw [Bool.not_eq_true] at hend
  rw [blankLineOf, Text.trailingNewlines_of_solid hend] at h
  simp at h

/-- The words of literal text, laid out, and the white space before the next unit. -/
theorem reflowed_of_fits {control breaks : Bool} {qs : List (List Char × List Char)}
    (h : List.Forall₂ Spot.Fits (wordSpots (startsBlank s || control) (words s)) qs)
    (hbreaks : endsBlank s = true → breaks = true) (depth : Nat) :
    Reflowed control breaks s (spread qs ++ (blankLineOf s ++ lead depth breaks)) := by
  obtain ⟨hwords, hend, hstart, hnil⟩ := words_of_fits h fun w hw => Text.word_of_mem_words hw
  have hline : blankLineOf s ≠ [] → breaks = true := fun hne =>
    hbreaks (endsBlank_of_blankLineOf hne)
  have hblank : allBlank (blankLineOf s ++ lead depth breaks) = true := by
    rw [Text.allBlank_append, allBlank_blankLineOf, allBlank_lead]
    rfl
  have hflush : breaks = false → blankLineOf s ++ lead depth breaks = [] := by
    rintro rfl
    have hnone : blankLineOf s = [] := by
      by_contra hne
      exact absurd (hline hne) (by simp)
    rw [hnone]
    rfl
  refine ⟨?_, fun hb => ?_, ?_, hbreaks, fun hs => ?_, ?_⟩
  · rw [Text.words_append_allBlank _ hblank, hwords]
  · have hne : words s ≠ [] := by
      rw [ne_eq, Text.words_eq_nil_iff, hb]
      simp
    rw [Text.startsBlank_append (mt hnil.1 hne), hstart]
    cases hws : words s with
    | nil => exact absurd hws hne
    | cons w ws => simp
  · cases breaks with
    | true =>
      have hne : blankLineOf s ++ lead depth true ≠ [] := by simp [lead]
      rw [Text.endsBlank_append hne, Text.endsBlank_of_allBlank hblank hne]
    | false => rw [hflush rfl, List.append_nil, hend]
  · obtain ⟨hspread, hgap⟩ := List.append_eq_nil_iff.1 hs
    by_contra hne
    have hall := Text.words_eq_nil_iff.1 (hnil.1 hspread)
    rw [hbreaks (Text.endsBlank_of_allBlank hall hne)] at hgap
    simp [lead] at hgap
  · rw [trailingNewlines_append hend hblank, List.count_append, count_lead]
    unfold blankLineOf at hline ⊢
    split
    · rename_i hmany
      rw [if_pos hmany] at hline
      rw [hline (by simp)]
      exact iff_of_true (by decide) hmany
    · rename_i hfew
      refine iff_of_false ?_ hfew
      split <;> simp

/-- A stride as it is written. -/
def Stride.shown (a : Stride) : List Char := a.literal ++ a.unit.shown

/-- A stride whose unit is read again, the body of an element directly behind its open tag. -/
structure Stride.Fair (a : Stride) : Prop where
  unit : a.unit.Fair
  flush : ∀ name content closeTag, a.unit = .rawText name content closeTag → a.literal = []

/-- Behind white space a unit goes to a line of its own. -/
theorem Job.Puts.breaks {j : Job} {r₁ : Run} {x : Part (List Char)} (h : j.Puts r x r₁)
    (hraw : ∀ name content closeTag, x ≠ .rawText name content closeTag)
    (hend : endsBlank r.gap = true) : x.breaks j.style.checker r = true := by
  have htag (blockLevel : Bool) : r.breaksBeforeTag blockLevel = true := by
    rw [Run.breaksBeforeTag, if_pos hend]
  cases h with
  | code hr =>
    obtain ⟨tag, -, -, ht, -⟩ := Job.codeTag_cases (hr 0)
    rw [Part.breaks, ht, Option.any_some, Run.breaksBeforeCode, if_pos hend, Bool.or_true]
  | comment text => exact htag _
  | close text _ => exact htag _
  | opening text _ => exact htag _
  | rawText name content _ => exact absurd rfl (hraw _ _ _)

/-- What a run over strides leaves, whichever white space is put before words. -/
theorem Job.Runs.prints {j : Job} {q : Run} {as : List Stride}
    (hp : j.style.reformatter = Ruby.passThrough) (hchecker : j.style.checker.LineBlind)
    (h : j.Runs r as q) (hfair : ∀ a ∈ as, a.Fair) (hfirm : Firm spots)
    (hfitted : Fitted spots r.buffer [] []) :
    ∃ spots', Firm spots' ∧ Fitted (spots ++ spots') q.buffer [] [] ∧
      ∀ qs, List.Forall₂ Spot.Fits spots' qs →
        ∃ bs, j.Leaves r as bs q ∧ spread qs = bs.flatMap Stride.shown := by
  induction h generalizing spots with
  | nil r =>
    refine ⟨[], by simp [Firm], by simpa using hfitted, fun qs hqs => ⟨[], .nil r, ?_⟩⟩
    obtain rfl := List.forall₂_nil_left_iff.1 hqs
    rfl
  | @cons r r₁ q a as hput _ ih =>
    obtain ⟨ha, has⟩ := List.forall_mem_cons.1 hfair
    have htext := Fitted.text hfirm hfitted j.len j.width a.literal
    have hwordsFirm := firm_wordSpots (startsBlank a.literal || r.last == .control)
      (words a.literal)
    have hgap : (r.text j.len j.width a.literal).gap = a.literal := r.gap_text _ _ _
    have hbreaks : endsBlank a.literal = true →
        a.unit.breaks j.style.checker (r.text j.len j.width a.literal) = true := by
      intro hend
      refine hput.breaks (fun name content closeTag hraw => ?_) (by rw [hgap, hend])
      rw [ha.flush name content closeTag hraw] at hend
      simp [endsBlank, startsBlank] at hend
    -- Room that is made later changes the white space between these words, so the induction goes
    -- on with their spots.
    obtain ⟨y, us, hprinted⟩ := Fitted.puts (hfirm.append hwordsFirm) htext hp hchecker ha.unit
      (fun hne => hbreaks (endsBlank_of_blankLineOf hne)) hput
    obtain ⟨spots', hfirm', hfitted', hleaves⟩ := ih has
      ((hfirm.append hwordsFirm).append (firm_exactSpots hprinted.firm))
      (Fitted.concat hprinted.fitted (fits_exactSpots us))
    refine ⟨wordSpots (startsBlank a.literal || r.last == .control) (words a.literal) ++
      (exactSpots us ++ spots'), ?_, ?_, fun qs hqs => ?_⟩
    · exact hwordsFirm.append ((firm_exactSpots hprinted.firm).append hfirm')
    · simpa [List.append_assoc] using hfitted'
    · obtain ⟨qs₁, qs', rfl, hqs₁, hqs'⟩ := exists_fits_append hqs
      obtain ⟨qs₂, qs₃, rfl, hqs₂, hqs₃⟩ := exists_fits_append hqs'
      obtain rfl := eq_of_exactSpots hqs₂
      obtain ⟨bs, hbs, hspread⟩ := hleaves qs₃ hqs₃
      obtain ⟨depth, hus⟩ := hprinted.text
      refine ⟨⟨_, y⟩ :: bs, .cons (reflowed_of_fits hqs₁ hbreaks depth) hprinted.becomes hput hbs,
        ?_⟩
      rw [Text.spread_append, Text.spread_append, hspread, hus, List.flatMap_cons]
      simp [Stride.shown]

end ErbLayout.Template
