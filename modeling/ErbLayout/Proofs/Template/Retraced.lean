import ErbLayout.Proofs.Erb.Rebuilt
import ErbLayout.Proofs.Template.Beside
import ErbLayout.Proofs.Template.Rewrap
/-!
What a run writes, read again: literal text with the line breaks of the layout, and units in the
form that the run gave them. A second run over it goes through the same states.
-/

namespace ErbLayout.Text

theorem trailingNewlines_of_allBlank {s : List Char} (h : allBlank s = true) :
    trailingNewlines s = s.count '\n' := by
  have hall : ∀ c ∈ s.reverse, isBlank c = true := fun c hc =>
    List.all_eq_true.1 h c (List.mem_reverse.1 hc)
  rw [trailingNewlines, List.takeWhile_eq_self_iff.2 hall, List.count_reverse]

end ErbLayout.Text

namespace ErbLayout.Template

open Layout Markup Placeholder
open Text (allBlank startsBlank endsBlank words)
open Job (closes inlineClosing layoutLog openText)

/-- Frames that are closed alike. -/
inductive Frame.Kin : Frame → Frame → Prop
  | element (name raw raw' : List Char) : Kin (.element name raw) (.element name raw')
  | block (code code' : List Char) : Kin (.block code) (.block code')

/-- Runs that go on alike, once what is directly before the next unit is settled. -/
structure Near (r r' : Run) : Prop where
  nesting : List.Forall₂ Frame.Kin r.nesting r'.nesting
  buffer : r'.buffer = r.buffer
  last : r'.last = r.last

/-- Literal text as a layout leaves it, behind control flow or not, and before a unit that stands on
a line of its own or not. -/
structure Reflowed (control breaks : Bool) (s s' : List Char) : Prop where
  words : words s' = words s
  starts : allBlank s = false → startsBlank s' = (startsBlank s || control)
  ends : endsBlank s' = breaks
  stays : endsBlank s = true → breaks = true
  nil : s' = [] → s = []
  lines : 1 < Text.trailingNewlines s' ↔ 1 < Text.trailingNewlines s

/-- A unit is written, the literal text before it being written already. -/
inductive Job.Puts (j : Job) (r : Run) : Part (List Char) → Run → Prop
  | code {text : List Char} {r' : Run} : (∀ offset, j.codeTag r text offset = .ok r') →
    Puts j r (.code text) r'
  | comment (text : List Char) : Puts j r (.comment text) (j.comment r text)
  | close {name : List Char} {r' : Run} (text : List Char) :
    (∀ offset, j.closeTag r name offset = .ok r') → Puts j r (.close text name) r'
  | opening {name attrs : List Char} {closing : Closing} {r' : Run} (text : List Char) :
    (∀ offset, j.openTag r name attrs closing offset = .ok r') →
    Puts j r (.opening text name attrs closing) r'
  | rawText (name content : List Char) {closeTag : List Char} : closeTag ≠ [] →
    Puts j r (.rawText name content closeTag) (j.rawText r name content closeTag)

/-- Whether a unit goes to a line of its own. -/
def Part.breaks (checker : Ruby.Checker) (r : Run) : Part (List Char) → Bool
  | .code text => (Erb.Tag.split? text).any fun tag =>
    (Ruby.classify checker tag.code).isControlFlow || r.breaksBeforeCode
  | .comment text => r.breaksBeforeTag (!(['<', '!', '-', '-'].isPrefixOf text))
  | .close _ name => r.breaksBeforeTag (Element.isBlockLevel name)
  | .opening _ name _ _ => r.breaksBeforeTag (Element.isBlockLevel name)
  | _ => false

/-- The depth at which a code tag is written. -/
def Job.codeDepth (j : Job) (r : Run) (tag : Erb.Tag) : Nat :=
  if closes (Ruby.classify j.style.checker tag.code) then r.nesting.depth - 1 else r.nesting.depth

/-- The column at which an open tag begins. -/
def Job.openColumn (j : Job) (r : Run) (name attrs : List Char) (closing : Closing) : Nat :=
  if r.breaksBeforeTag (Element.isBlockLevel name) then 2 * r.nesting.depth
  else (j.beforeOpen r name attrs closing).buffer.column

/-- What follows the body of a raw text before its close tag. -/
def Job.bodyEnd (r : Run) (content : List Char) : List Char :=
  if endsBlank content then '\n' :: Nesting.indentOf (r.nesting.depth - 1) else []

/-- What a unit is read again as, once a run has written it. -/
inductive Job.Becomes (j : Job) (r : Run) : Part (List Char) → Part (List Char) → Prop
  | code {text code : List Char} {tag : Erb.Tag} : Erb.Tag.split? text = some tag →
    laidCode j.style.checker tag.code = tag.code →
    Erb.Tag.split? (tag.text (Nesting.indentOf (j.codeDepth r tag))) =
      some ⟨tag.opener, code, tag.closer⟩ →
    Erb.Tag.text ⟨tag.opener, code, tag.closer⟩ (Nesting.indentOf (j.codeDepth r tag)) =
      tag.text (Nesting.indentOf (j.codeDepth r tag)) →
    Ruby.classify j.style.checker code = Ruby.classify j.style.checker tag.code →
    laidCode j.style.checker code = code →
    Becomes j r (.code text) (.code (tag.text (Nesting.indentOf (j.codeDepth r tag))))
  | comment (text : List Char) : Becomes j r (.comment text) (.comment text)
  | close (text name : List Char) :
    Becomes j r (.close text name) (.close ('<' :: '/' :: name ++ ['>']) name)
  | opening {name attrs attrs' : List Char} {closing : Closing} (text : List Char) :
    j.Interchanges r.nesting.depth (j.openColumn r name attrs closing) name attrs attrs' closing →
    (∀ rest, Token.readAny
        (openText r.nesting.depth name (j.attributesIn r name attrs closing) closing ++ rest) =
      some (.opening (openText r.nesting.depth name (j.attributesIn r name attrs closing) closing)
        name attrs' closing)) →
    Becomes j r (.opening text name attrs closing)
      (.opening (openText r.nesting.depth name (j.attributesIn r name attrs closing) closing) name
        attrs' closing)
  | rawText (name content closeTag : List Char) :
    Becomes j r (.rawText name content closeTag)
      (.rawText name (Text.trimRight content ++ Job.bodyEnd r content)
        ('<' :: '/' :: name ++ ['>']))

theorem Job.allBlank_bodyEnd (r : Run) (content : List Char) :
    allBlank (Job.bodyEnd r content) = true := by
  unfold Job.bodyEnd
  split
  · exact lineBreak_allBlank _
  · rfl

variable {j : Job} {r r' r₁ : Run} {s s' : List Char} {x y : Part (List Char)}
variable {len : Measure} {width : Int}

theorem Near.depth (h : Near r r') : r'.nesting.depth = r.nesting.depth := h.nesting.length_eq.symm

theorem Near.emit (h : Near r r') (len : Measure) (width : Int) (text : List Char)
    (newLine : Bool) :
    (r'.emit len width text newLine).buffer = (r.emit len width text newLine).buffer := by
  unfold Run.emit
  rw [h.depth, h.buffer]
  split <;> rfl

theorem tail_of_kin {n n' : Nesting} (h : List.Forall₂ Frame.Kin n n') :
    List.Forall₂ Frame.Kin n.tail n'.tail := by
  cases h with
  | nil => exact .nil
  | cons _ hrest => exact hrest

theorem topIsElement_of_kin {n n' : Nesting} (h : List.Forall₂ Frame.Kin n n') {name : List Char}
    (hn : n.topIsElement name = true) : n'.topIsElement name = true := by
  cases h with
  | nil => exact hn
  | cons hf _ => cases hf <;> exact hn

theorem topIsBlock_of_kin {n n' : Nesting} (h : List.Forall₂ Frame.Kin n n')
    (hn : n.topIsBlock = true) : n'.topIsBlock = true := by
  cases h with
  | nil => exact hn
  | cons hf _ => cases hf <;> exact hn

theorem Near.pop (h : Near r r') : Near r.pop r'.pop := by
  refine ⟨?_, ?_, ?_⟩
  · rw [Run.nesting_pop, Run.nesting_pop]
    exact tail_of_kin h.nesting
  · rw [(Run.samePlace_pop r').buffer, (Run.samePlace_pop r).buffer, h.buffer]
  · rw [(Run.samePlace_pop r').last, (Run.samePlace_pop r).last, h.last]

theorem Near.congr {r₀ r₀' : Run} (h : Near r r') (hr : r.SamePlace r₀) (hr' : r'.SamePlace r₀')
    (hn : List.Forall₂ Frame.Kin r₀.nesting r₀'.nesting) : Near r₀ r₀' :=
  ⟨hn, by rw [hr'.buffer, hr.buffer, h.buffer], by rw [hr'.last, hr.last, h.last]⟩

theorem Near.wrapped (h : Near r r') (hwords : words s' = words s) (len : Measure) (width : Int)
    (newLine : Bool) : r'.wrapped len width s' newLine = r.wrapped len width s newLine := by
  rw [r'.wrapped_congr len width hwords]
  unfold Run.wrapped Run.roomFor
  rw [h.buffer, h.depth]

/-- The literal text before a unit is written. -/
theorem Near.text (h : Near r r') {breaks : Bool}
    (hs : Reflowed (r.last == .control) breaks s s') (len : Measure) (width : Int) :
    Near (r.text len width s) (r'.text len width s') := by
  have hblank : allBlank s' = allBlank s := by
    rw [Bool.eq_iff_iff, ← Text.words_eq_nil_iff, ← Text.words_eq_nil_iff, hs.words]
  cases hb : allBlank s with
  | true =>
    rw [r.text_of_blank len width hb, r'.text_of_blank len width (hblank.trans hb)]
    refine ⟨h.nesting, ?_, h.last⟩
    have hlines := hs.lines
    rw [Text.trailingNewlines_of_allBlank hb, Text.trailingNewlines_of_allBlank (hblank.trans hb)]
      at hlines
    simp only [gt_iff_lt, hlines, h.buffer]
  | false =>
    have hstarts : (startsBlank s' || r'.last == .control) =
        (startsBlank s || r.last == .control) := by
      rw [hs.starts hb, h.last, Bool.or_assoc, Bool.or_self]
    rw [r.text_of_not_blank len width hb, r'.text_of_not_blank len width (hblank.trans hb), hstarts]
    refine ⟨h.nesting, ?_, rfl⟩
    simp only [gt_iff_lt, hs.lines, h.wrapped hs.words]

theorem Run.gap_text (r : Run) (len : Measure) (width : Int) (s : List Char) :
    (r.text len width s).gap = s := by
  unfold Run.text
  dsimp only
  split
  · split <;> rfl
  · rfl

section Breaks

variable {control breaks : Bool} (hs : Reflowed control breaks s s')
variable (hgap : r.gap = s) (hgap' : r'.gap = s') (hlast : r'.last = r.last)
include hs hgap hgap' hlast

theorem Reflowed.breaksBeforeTag {blockLevel : Bool} (h : r.breaksBeforeTag blockLevel = breaks) :
    r'.breaksBeforeTag blockLevel = breaks := by
  have hends := hs.ends
  unfold Run.breaksBeforeTag at h ⊢
  rw [hgap] at h
  rw [hgap', hends, hlast]
  cases breaks with
  | true => rfl
  | false =>
    by_cases hnil : s' = []
    · rw [hs.nil hnil] at h
      rw [hnil]
      exact h
    · rw [if_neg (by simp), if_pos (by simpa using hnil)]

theorem Reflowed.breaksBeforeCode {control : Bool}
    (h : (control || r.breaksBeforeCode) = breaks) :
    (control || r'.breaksBeforeCode) = breaks := by
  have hends := hs.ends
  cases control with
  | true => exact h
  | false =>
    rw [Bool.false_or] at h ⊢
    unfold Run.breaksBeforeCode at h ⊢
    rw [hgap] at h
    rw [hgap', hends, hlast]
    cases breaks with
    | true => rfl
    | false =>
      by_cases hnil : s' = []
      · rw [hs.nil hnil] at h
        rw [hnil]
        exact h
      · rw [if_neg (by simp), if_pos (by simpa using hnil)]

/-- A unit that is read again goes to a line of its own where it did. -/
theorem Reflowed.breaks_eq (hx : j.Becomes r x y) (h : x.breaks j.style.checker r = breaks) :
    y.breaks j.style.checker r' = breaks := by
  cases hx with
  | @code text code tag ht hlaid ht' htext hkind hlaid' =>
    rw [Part.breaks, ht] at h
    rw [Part.breaks, ht']
    simp only [Option.any_some] at h ⊢
    rw [hkind]
    exact hs.breaksBeforeCode hgap hgap' hlast h
  | comment text => exact hs.breaksBeforeTag hgap hgap' hlast h
  | close text name => exact hs.breaksBeforeTag hgap hgap' hlast h
  | opening text _ _ => exact hs.breaksBeforeTag hgap hgap' hlast h
  | rawText name content closeTag => exact h

end Breaks

section Puts

variable (h : Near r r')
include h

theorem Near.comment {text : List Char}
    (hbreaks : (Part.comment text : Part (List Char)).breaks j.style.checker r' =
      (Part.comment text : Part (List Char)).breaks j.style.checker r) :
    Near (j.comment r text) (j.comment r' text) := by
  unfold Job.comment
  dsimp only [Part.breaks] at hbreaks ⊢
  rw [hbreaks]
  refine ⟨?_, ?_, rfl⟩
  · simpa using h.nesting
  · exact h.emit _ _ _ _

theorem Near.afterClose {name : List Char}
    (hbreaks : r'.breaksBeforeTag (Element.isBlockLevel name) =
      r.breaksBeforeTag (Element.isBlockLevel name)) :
    Near (j.afterClose r name) (j.afterClose r' name) := by
  unfold Job.afterClose
  dsimp only
  rw [hbreaks]
  refine ⟨?_, ?_, rfl⟩
  · simpa using tail_of_kin h.nesting
  · exact h.pop.emit _ _ _ _

theorem Near.rawText {name content content' closeTag closeTag' : List Char}
    (htrim : Text.trimRight content' = Text.trimRight content)
    (hends : endsBlank content' = endsBlank content) (hclose : closeTag ≠ [])
    (hclose' : closeTag' ≠ []) :
    Near (j.rawText r name content closeTag) (j.rawText r' name content' closeTag') := by
  rw [j.rawText_closed r name content hclose, j.rawText_closed r' name content' hclose', hends]
  have hbody (r : Run) (content : List Char) :
      (j.afterBody r content).buffer = r.buffer.write j.len (Text.trimRight content) ∧
        (j.afterBody r content).nesting = r.nesting := by
    unfold Job.afterBody
    split <;> exact ⟨rfl, rfl⟩
  have hn : List.Forall₂ Frame.Kin (j.afterBody r content).pop.nesting
      (j.afterBody r' content').pop.nesting := by
    rw [Run.nesting_pop, Run.nesting_pop, (hbody r content).2, (hbody r' content').2]
    exact tail_of_kin h.nesting
  refine ⟨?_, ?_, rfl⟩
  · simpa using hn
  · change (Run.emit _ _ _ _ _).buffer = (Run.emit _ _ _ _ _).buffer
    unfold Run.emit
    rw [show (j.afterBody r' content').pop.nesting.depth = (j.afterBody r content).pop.nesting.depth
        from hn.length_eq.symm, (Run.samePlace_pop _).buffer, (Run.samePlace_pop _).buffer,
      (hbody r content).1, (hbody r' content').1, htrim, h.buffer]
    split <;> rfl

theorem Near.beforeOpen {name attrs attrs' : List Char} {closing : Closing} {depth column : Nat}
    (hbreaks : r'.breaksBeforeTag (Element.isBlockLevel name) =
      r.breaksBeforeTag (Element.isBlockLevel name))
    (hsame : j.Interchanges depth column name attrs attrs' closing)
    (hdepth : r.nesting.depth = depth) :
    Near (j.beforeOpen r name attrs closing) (j.beforeOpen r' name attrs' closing) := by
  unfold Job.beforeOpen
  rw [hbreaks]
  split
  · exact h
  · refine ⟨h.nesting, ?_, h.last⟩
    dsimp only
    rw [h.buffer, hsame.width r r' hdepth (h.depth.trans hdepth)]

/-- An open tag that is read again is laid out again as it was. -/
theorem Near.afterOpen {name attrs attrs' : List Char} {closing : Closing}
    (hbreaks : r'.breaksBeforeTag (Element.isBlockLevel name) =
      r.breaksBeforeTag (Element.isBlockLevel name))
    (hsame : j.Interchanges r.nesting.depth (j.openColumn r name attrs closing) name attrs attrs'
      closing) :
    Near (j.afterOpen r name attrs closing) (j.afterOpen r' name attrs' closing) := by
  have hbefore := h.beforeOpen hbreaks hsame rfl
  have hlayout : j.attributesIn r' name attrs' closing = j.attributesIn r name attrs closing := by
    unfold Job.attributesIn
    rw [hbreaks, h.depth, hbefore.buffer]
    exact hsame.layout
  unfold Job.afterOpen
  dsimp only
  rw [hlayout, h.depth, hbreaks]
  generalize j.attributesIn r name attrs closing = layout
  have hnoted : Near ((j.beforeOpen r name attrs closing).note (layoutLog r.nesting.depth layout))
      ((j.beforeOpen r' name attrs' closing).note (layoutLog r.nesting.depth layout)) :=
    hbefore.congr (Run.samePlace_note _ _) (Run.samePlace_note _ _) hbefore.nesting
  have hwritten := hnoted.emit j.len j.width
    (openText r.nesting.depth name layout closing) (r.breaksBeforeTag (Element.isBlockLevel name))
  split
  · exact ⟨by simpa using hbefore.nesting, hwritten, rfl⟩
  · exact ⟨by simpa using ⟨.element _ _ _, hbefore.nesting⟩, hwritten, rfl⟩

theorem Near.afterCode {opener : Erb.Opener} {closer : Erb.Closer} {code code' : List Char}
    (kind : Ruby.Kind)
    (hbreaks : (kind.isControlFlow || r'.breaksBeforeCode) =
      (kind.isControlFlow || r.breaksBeforeCode))
    (htext : Erb.Tag.build opener.text code' closer.text r.indent =
      Erb.Tag.build opener.text code closer.text r.indent) (tagCode tagCode' : List Char) :
    Near (j.afterCode r ⟨opener, tagCode, closer⟩ kind code)
      (j.afterCode r' ⟨opener, tagCode', closer⟩ kind code') := by
  have hindent : r'.indent = r.indent := congrArg Nesting.indentOf h.depth
  unfold Job.afterCode
  dsimp only
  rw [hindent, htext, hbreaks]
  have hwritten := h.emit j.len j.width (Erb.Tag.build opener.text code closer.text r.indent)
    (kind.isControlFlow || r.breaksBeforeCode)
  split
  · exact ⟨by simpa using ⟨.block _ _, h.nesting⟩, hwritten, rfl⟩
  · exact ⟨by simpa using h.nesting, hwritten, rfl⟩

/-- A code tag that is read again is built again as it was. -/
theorem Near.codeTag (hp : j.style.reformatter = Ruby.passThrough) {text text' code : List Char}
    {tag : Erb.Tag} (ht : Erb.Tag.split? text = some tag)
    (hlaid : laidCode j.style.checker tag.code = tag.code)
    (ht' : Erb.Tag.split? text' = some ⟨tag.opener, code, tag.closer⟩)
    (htext : Erb.Tag.text ⟨tag.opener, code, tag.closer⟩ (Nesting.indentOf (j.codeDepth r tag)) =
      tag.text (Nesting.indentOf (j.codeDepth r tag)))
    (hkind : Ruby.classify j.style.checker code = Ruby.classify j.style.checker tag.code)
    (hlaid' : laidCode j.style.checker code = code)
    (hbreaks : ((Ruby.classify j.style.checker tag.code).isControlFlow || r'.breaksBeforeCode) =
      ((Ruby.classify j.style.checker tag.code).isControlFlow || r.breaksBeforeCode))
    {o : Nat} (hr : j.codeTag r text o = .ok r₁) :
    ∃ r₁', (∀ o', j.codeTag r' text' o' = .ok r₁') ∧ Near r₁ r₁' := by
  obtain ⟨opener, tagCode, closer⟩ := tag
  dsimp only at *
  have hgiven (r : Run) (code : List Char) :
      (j.style.reformatter (Job.codeGiven j.style.checker code) (j.codeWidth r)).result =
        .ok (Job.codeGiven j.style.checker code) := by
    rw [hp]
    rfl
  -- A tag that closes is built with the indent of its block, any other with that of the run.
  cases hk : closes (Ruby.classify j.style.checker tagCode) with
  | true =>
    cases hb : r.nesting.topIsBlock with
    | false =>
      obtain ⟨_, he, -⟩ := j.codeTag_unmatched o ht hk hb
      rw [he] at hr
      simp at hr
    | true =>
      obtain ⟨r₀, he, hn, hs⟩ := j.codeTag_close o ht hk hb
      obtain ⟨r₀', he', hn', hs'⟩ := j.codeTag_close o ht' (by rw [hkind]; exact hk)
        (topIsBlock_of_kin h.nesting hb)
      obtain rfl := Except.ok.inj (he.symm.trans hr)
      refine ⟨_, Job.codeTag_offset he', ?_⟩
      have hnear : Near r₀ r₀' := h.congr hs hs' (by rw [hn, hn']; exact tail_of_kin h.nesting)
      have hindent : r₀.indent = Nesting.indentOf (r.nesting.depth - 1) := by
        rw [Run.indent, hn]
        exact congrArg Nesting.indentOf (List.length_tail)
      dsimp only
      rw [hkind]
      refine hnear.afterCode _ ?_ ?_ _ _
      · rw [hs'.breaksBeforeCode, hs.breaksBeforeCode, hbreaks]
      · rw [hindent]
        rwa [Job.codeDepth, if_pos hk] at htext
  | false =>
    obtain ⟨r₀, he, hn, hs⟩ := j.codeTag_open o ht hk (hgiven r _)
    obtain ⟨r₀', he', hn', hs'⟩ := j.codeTag_open o ht' (by rw [hkind]; exact hk) (hgiven r' _)
    obtain rfl := Except.ok.inj (he.symm.trans hr)
    refine ⟨_, Job.codeTag_offset he', ?_⟩
    have hnear : Near r₀ r₀' := h.congr hs hs' (by rw [hn, hn']; exact h.nesting)
    have hindent : r₀.indent = Nesting.indentOf r.nesting.depth := by
      rw [Run.indent, hn]
      rfl
    rw [laidCode, if_neg (by rw [hk]; simp)] at hlaid
    rw [laidCode, if_neg (by rw [hkind, hk]; simp)] at hlaid'
    dsimp only
    rw [hkind, hlaid, hlaid']
    refine hnear.afterCode _ ?_ ?_ _ _
    · rw [hs'.breaksBeforeCode, hs.breaksBeforeCode, hbreaks]
    · rw [hindent]
      rwa [Job.codeDepth, if_neg (by rw [hk]; simp)] at htext

/-- A unit that is read again is written again as it was. -/
theorem Near.puts (hp : j.style.reformatter = Ruby.passThrough) (hx : j.Becomes r x y)
    (hbreaks : y.breaks j.style.checker r' = x.breaks j.style.checker r) (hr : j.Puts r x r₁) :
    ∃ r₁', j.Puts r' y r₁' ∧ Near r₁ r₁' := by
  -- What could fail here has not failed in the first run, and the same is open.
  cases hx with
  | @code text code tag ht hlaid ht' htext hkind hlaid' =>
    cases hr with
    | code hr =>
      rw [Part.breaks, Part.breaks, ht, ht'] at hbreaks
      simp only [Option.any_some, hkind] at hbreaks
      obtain ⟨r₁', hr', hnear⟩ := h.codeTag hp ht hlaid ht' htext hkind hlaid' hbreaks (hr 0)
      exact ⟨r₁', .code hr', hnear⟩
  | comment text =>
    cases hr
    exact ⟨_, .comment text, h.comment hbreaks⟩
  | close text name =>
    cases hr with
    | close _ hr =>
      cases hn : r.nesting.topIsElement name with
      | false =>
        have hok := hr 0
        rw [j.closeTag_unmatched hn] at hok
        simp at hok
      | true =>
        have hok := hr 0
        rw [j.closeTag_open hn] at hok
        obtain rfl := Except.ok.inj hok
        exact ⟨_, .close _ fun o => j.closeTag_open (topIsElement_of_kin h.nesting hn),
          h.afterClose hbreaks⟩
  | @opening name attrs attrs' closing text hsame _ =>
    cases hr with
    | opening _ hr =>
      cases hv : Element.isValidName name with
      | false =>
        have hok := hr 0
        rw [j.openTag_invalid hv] at hok
        simp at hok
      | true =>
        have hok := hr 0
        rw [j.openTag_valid hv] at hok
        obtain rfl := Except.ok.inj hok
        exact ⟨_, .opening _ fun o => j.openTag_valid hv, h.afterOpen hbreaks hsame⟩
  | rawText name content closeTag =>
    cases hr with
    | rawText _ _ hclose =>
      refine ⟨_, .rawText _ _ (by simp), h.rawText ?_ ?_ hclose (by simp)⟩
      · exact Text.trimRight_append_blank (Text.endsBlank_trimRight content)
          (Job.allBlank_bodyEnd r content)
      · unfold Job.bodyEnd
        cases hends : endsBlank content with
        | true =>
          rw [if_pos rfl, Text.endsBlank_append (by simp)]
          exact Text.endsBlank_of_allBlank (lineBreak_allBlank _) (by simp)
        | false =>
          rw [if_neg (by simp), List.append_nil]
          exact Text.endsBlank_trimRight content

end Puts

/-- A part as it is written. -/
def Part.shown : Part (List Char) → List Char
  | .char c => [c]
  | .code text => text
  | .comment text => text
  | .close text _ => text
  | .opening text _ _ _ => text
  | .rawText _ content closeTag => content ++ closeTag

/-- Literal text and the unit behind it. -/
structure Stride where
  literal : List Char
  unit : Part (List Char)

/-- A run over strides, from one run to another. -/
inductive Job.Runs (j : Job) : Run → List Stride → Run → Prop
  | nil (r : Run) : Runs j r [] r
  | cons {r r₁ q : Run} {a : Stride} {as : List Stride} :
    j.Puts (r.text j.len j.width a.literal) a.unit r₁ → Runs j r₁ as q → Runs j r (a :: as) q

/-- A run over strides, and what they are read again as. -/
inductive Job.Leaves (j : Job) : Run → List Stride → List Stride → Run → Prop
  | nil (r : Run) : Leaves j r [] [] r
  | cons {r r₁ q : Run} {a b : Stride} {as bs : List Stride} :
    Reflowed (r.last == .control)
      (a.unit.breaks j.style.checker (r.text j.len j.width a.literal)) a.literal b.literal →
    j.Becomes (r.text j.len j.width a.literal) a.unit b.unit →
    j.Puts (r.text j.len j.width a.literal) a.unit r₁ → Leaves j r₁ as bs q →
    Leaves j r (a :: as) (b :: bs) q

/-- What a run leaves is run over as it was. -/
theorem Near.runs {q : Run} {as bs : List Stride} (hp : j.style.reformatter = Ruby.passThrough)
    (h : Near r r') (hleaves : j.Leaves r as bs q) : ∃ q', j.Runs r' bs q' ∧ Near q q' := by
  induction hleaves generalizing r' with
  | nil r => exact ⟨r', .nil r', h⟩
  | @cons r r₁ q a b as bs hs hx hr _ ih =>
    have htext := h.text hs j.len j.width
    have hbreaks := hs.breaks_eq (r.gap_text j.len j.width a.literal)
      (r'.gap_text j.len j.width b.literal) htext.last hx rfl
    obtain ⟨r₁', hr', hnear⟩ := htext.puts hp hx hbreaks hr
    obtain ⟨q', hq', hend⟩ := ih hnear
    exact ⟨q', .cons hr' hq', hend⟩

end ErbLayout.Template
