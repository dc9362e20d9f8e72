import ErbLayout.Proofs.Template.Output
/-!
Where the layout puts white space: between two items there is some exactly when there was some
before, when one of them is control flow, and when both are markup of which one is block-level. The
runs keep an output for the cells that they have read.
-/

namespace ErbLayout.Template

open Layout Markup Placeholder
open Text (Found Framed Reads Word spread allBlank endsBlank)
open Job (closes codeFrom codeGiven inlineClosing openText)

variable {j : Job}

/-- The output is for the cells. Blank lines stand behind them only if white space is to follow. -/
structure Progress (j : Job) (r : Run) (cells : List Cell) (apart : Bool) : Prop where
  output : ∃ ps tail, Output j r.buffer cells ps tail ∧ (tail ≠ [] → apart = true)

theorem Progress.of_buffer {r r' : Run} {cells : List Cell} {apart : Bool}
    (h : Progress j r cells apart) (hb : r'.buffer = r.buffer) : Progress j r' cells apart :=
  ⟨hb ▸ h.output⟩

theorem Progress.flush {r : Run} {cells : List Cell} (h : Progress j r cells false) :
    ∃ ps, Output j r.buffer cells ps [] := by
  obtain ⟨ps, tail, hout, htail⟩ := h.output
  obtain rfl : tail = [] := by
    by_contra hne
    exact absurd (htail hne) (by simp)
  exact ⟨ps, hout⟩

theorem Progress.makeRoom {r : Run} {cells : List Cell} (h : Progress j r cells false)
    (needed : Int) :
    Progress j { r with buffer := r.buffer.makeRoom j.len j.width needed } cells false := by
  obtain ⟨ps, hout⟩ := h.flush
  obtain ⟨ps', hout', -⟩ := hout.makeRoom needed
  exact ⟨ps', [], hout', by simp⟩

theorem trim_framed {s : List Char} (h : Framed s) : Text.trim s = s := by
  obtain ⟨u, rfl⟩ := h
  refine Text.trim_eq_self (by rfl) ?_
  rw [Text.endsBlank_append (by simp)]
  rfl

/-- Whether a line break comes before a cell, which may be the first one. -/
def breaks (checker : Ruby.Checker) (prev : Option Item) (c : Cell) : Bool :=
  match prev with
  | none => c.apart || c.item.isControl checker
  | some i => separated checker i c

theorem apart_of_breaks {checker : Ruby.Checker} {prev : Option Item} {c : Cell}
    (h : breaks checker prev c = false) : c.apart = false := by
  cases prev with
  | none =>
    rw [breaks, Bool.or_eq_false_iff] at h
    exact h.1
  | some i =>
    rw [breaks, separated, Bool.or_eq_false_iff, Bool.or_eq_false_iff, Bool.or_eq_false_iff] at h
    exact h.1.1.1

theorem Progress.emit {r : Run} {cells : List Cell} {apart : Bool} (h : Progress j r cells apart)
    {i : Item} {text : List Char} (hw : Written j i text) (hf : Framed text) {newLine : Bool}
    (hn : newLine = breaks j.style.checker (lastItem none cells) ⟨apart, i⟩) :
    Progress j (r.emit j.len j.width text newLine) (cells ++ [⟨apart, i⟩]) false := by
  unfold Run.emit
  cases newLine with
  | true =>
    obtain ⟨ps, tail, hout, -⟩ := h.output
    refine ⟨_, [], hout.writeLine ⟨hw, ?_, fun prev hprev => ?_⟩ (trim_framed hf), by simp⟩
    · rw [Text.allBlank_append, hout.blank, Bool.true_and]
      exact lineBreak_allBlank r.nesting.depth
    · dsimp only at hprev
      rw [hprev] at hn
      exact ⟨fun _ => hn.symm, fun _ => by simp⟩
  | false =>
    obtain rfl : apart = false := apart_of_breaks hn.symm
    obtain ⟨ps, hout⟩ := h.flush
    obtain ⟨ps', hout', hroom⟩ := hout.makeRoom (j.len (Text.firstLine text))
    refine ⟨_, [], hout'.write ⟨hw, rfl, fun prev hprev => ?_⟩ (.inr hroom), by simp⟩
    dsimp only at hprev
    rw [hprev] at hn
    change false = separated j.style.checker prev ⟨false, i⟩ at hn
    simp [← hn]

/-- What was written last, by the item that it was. -/
def adjacency (checker : Ruby.Checker) : Option Item → Adjacency
  | none => .start
  | some i =>
    if i.isStructural then (if i.isBlockLevel then .blockTag else .inlineTag)
    else if i.isControl checker then .control else .text

/-- A run that has just written the last of the cells. -/
structure Landed (checker : Ruby.Checker) (r : Run) (cells : List Cell) : Prop where
  noGap : r.gap = []
  last : r.last = adjacency checker (lastItem none cells)

/-- A run that knows whether to break the line before an item that is no text. -/
structure Poised (checker : Ruby.Checker) (r : Run) (cells : List Cell) (apart : Bool) : Prop where
  tag : ∀ i : Item, i.isStructural = true → r.breaksBeforeTag i.isBlockLevel =
    breaks checker (lastItem none cells) ⟨apart, i⟩
  code : ∀ n text, ((Item.code n text).isControl checker || r.breaksBeforeCode) =
    breaks checker (lastItem none cells) ⟨apart, .code n text⟩

/-- A run right behind an item. -/
structure After (j : Job) (r : Run) (cells : List Cell) : Prop where
  progress : Progress j r cells false
  landed : Landed j.style.checker r cells
  depth : r.nesting.depth = depthOf j.style.checker cells

/-- A run in front of an item that is no text. -/
structure Edge (j : Job) (r : Run) (cells : List Cell) (apart : Bool) : Prop where
  progress : Progress j r cells apart
  poised : Poised j.style.checker r cells apart
  depth : r.nesting.depth = depthOf j.style.checker cells

theorem isControl_of_isStructural (checker : Ruby.Checker) {i : Item}
    (h : i.isStructural = true) : i.isControl checker = false := by
  cases i with
  | code n text => simp [Item.isStructural] at h
  | word w | token t | body b | rawClose name closeTag => rfl

theorem adjacency_of_isStructural (checker : Ruby.Checker) {i : Item}
    (h : i.isStructural = true) :
    adjacency checker (some i) = if i.isBlockLevel then .blockTag else .inlineTag := by
  rw [adjacency, if_pos h]

theorem adjacency_of_not_isStructural (checker : Ruby.Checker) {i : Item}
    (h : i.isStructural = false) :
    adjacency checker (some i) = if i.isControl checker then .control else .text := by
  rw [adjacency, if_neg (by simp [h])]

theorem breaksBeforeTag_of_gap_nil {r : Run} {checker : Ruby.Checker} {prev : Option Item}
    (hgap : r.gap = []) (hlast : r.last = adjacency checker prev) {i : Item}
    (hi : i.isStructural = true) :
    r.breaksBeforeTag i.isBlockLevel = breaks checker prev ⟨false, i⟩ := by
  have hcontrol := isControl_of_isStructural checker hi
  have hnil : r.breaksBeforeTag i.isBlockLevel = (r.last == .control || r.last == .blockTag ||
      (r.last == .inlineTag && i.isBlockLevel)) := by
    rw [Run.breaksBeforeTag, hgap]
    cases r.last <;> cases i.isBlockLevel <;> rfl
  rw [hnil, hlast]
  cases prev with
  | none => simp [adjacency, breaks, hcontrol]
  | some u =>
    simp only [breaks, separated, hcontrol, hi]
    cases hs : u.isStructural with
    | true =>
      rw [adjacency_of_isStructural checker hs, isControl_of_isStructural checker hs]
      cases u.isBlockLevel <;> simp
    | false =>
      rw [adjacency_of_not_isStructural checker hs]
      cases u.isControl checker <;> simp

theorem breaksBeforeCode_of_gap_nil {r : Run} {checker : Ruby.Checker} {prev : Option Item}
    (hgap : r.gap = []) (hlast : r.last = adjacency checker prev) (n : Name) (text : List Char) :
    ((Item.code n text).isControl checker || r.breaksBeforeCode) =
      breaks checker prev ⟨false, .code n text⟩ := by
  have hcode : (Item.code n text).isStructural = false := rfl
  have hnil : r.breaksBeforeCode = (r.last == .control) := by
    rw [Run.breaksBeforeCode, hgap]
    rfl
  rw [hnil, hlast]
  cases prev with
  | none => simp [adjacency, breaks]
  | some u =>
    simp only [breaks, separated, hcode]
    cases hs : u.isStructural with
    | true =>
      rw [adjacency_of_isStructural checker hs, isControl_of_isStructural checker hs]
      cases u.isBlockLevel <;> simp
    | false =>
      rw [adjacency_of_not_isStructural checker hs]
      cases u.isControl checker <;> simp [Bool.or_comm]

theorem breaks_of_apart {checker : Ruby.Checker} {prev : Option Item} (i : Item) :
    breaks checker prev ⟨true, i⟩ = true := by
  cases prev with
  | none => rfl
  | some u => rfl

theorem follow_wordCells {ws : List (List Char)} {qs : List (List Char × List Char)}
    (h : List.Forall₂ Behind ws qs) (prev : Option Item) :
    List.Forall₂ (Placed j) (follow prev (wordCells ws)) qs := by
  induction h generalizing prev with
  | nil => exact .nil
  | cons hq _ ih =>
    refine .cons ⟨hq.text ▸ .word _, hq.blank, fun u _ => ?_⟩ (ih _)
    exact ⟨fun _ => rfl, fun _ => hq.apart⟩

theorem lastItem_wordCells (ws : List (List Char)) {prev : Option Item}
    (h : ∃ w, prev = some (.word w)) : ∃ w, lastItem prev (wordCells ws) = some (.word w) := by
  induction ws generalizing prev with
  | nil => exact h
  | cons w ws ih => exact ih ⟨w, rfl⟩

theorem lastItem_ofText (cells : List Cell) {s : List Char} (hs : allBlank s = false) :
    ∃ w, lastItem none (cells ++ Cell.ofText s) = some (.word w) := by
  cases hws : Text.words s with
  | nil => simp [Text.words_eq_nil_iff.1 hws] at hs
  | cons w ws =>
    rw [lastItem_append, ofText_of_words hws]
    exact lastItem_wordCells _ ⟨w, rfl⟩

theorem control_iff_adjacency (checker : Ruby.Checker) (i : Item) :
    (adjacency checker (some i) == .control) = i.isControl checker := by
  cases hs : i.isStructural with
  | true =>
    rw [adjacency_of_isStructural checker hs, isControl_of_isStructural checker hs]
    cases i.isBlockLevel <;> rfl
  | false =>
    rw [adjacency_of_not_isStructural checker hs]
    cases i.isControl checker <;> rfl

theorem poised_of_word {checker : Ruby.Checker} {r : Run} {cells : List Cell} {s w : List Char}
    (hgap : r.gap = s) (hs : s ≠ []) (hword : lastItem none cells = some (.word w)) :
    Poised checker r cells (endsBlank s) := by
  have hne : s.isEmpty = false := by simpa using hs
  have hw : (Item.word w).isControl checker = false := rfl
  refine ⟨fun i hi => ?_, fun n text => ?_⟩
  · have hcontrol := isControl_of_isStructural checker hi
    rw [hword, Run.breaksBeforeTag, hgap, hne]
    cases endsBlank s <;> simp [breaks, separated, hcontrol, hw, Item.isStructural]
  · rw [hword, Run.breaksBeforeCode, hgap, hne]
    cases endsBlank s <;> simp [breaks, separated, hw, Item.isStructural]

theorem poised_of_allBlank {checker : Ruby.Checker} {r : Run} {cells : List Cell} {s : List Char}
    (hs : allBlank s = true) (hgap : r.gap = s)
    (hlast : r.last = adjacency checker (lastItem none cells)) :
    Poised checker r cells (endsBlank s) := by
  by_cases hnil : s = []
  · subst hnil
    exact ⟨fun i hi => breaksBeforeTag_of_gap_nil hgap hlast hi,
      breaksBeforeCode_of_gap_nil hgap hlast⟩
  · have hend := Text.endsBlank_of_allBlank hs hnil
    rw [hend]
    refine ⟨fun i _ => ?_, fun n text => ?_⟩
    · rw [breaks_of_apart, Run.breaksBeforeTag, hgap, hend, if_pos rfl]
    · rw [breaks_of_apart, Run.breaksBeforeCode, hgap, hend, if_pos rfl, Bool.or_true]

theorem endsBlank_of_trailingNewlines {s : List Char} (h : Text.trailingNewlines s > 1) :
    endsBlank s = true := by
  rw [Text.trailingNewlines] at h
  rw [endsBlank]
  cases hr : s.reverse with
  | nil =>
    rw [hr] at h
    simp at h
  | cons c t =>
    rw [hr] at h
    cases hc : isBlank c with
    | true => exact hc
    | false =>
      rw [List.takeWhile_cons_of_neg (by simp [hc])] at h
      simp at h

theorem After.blankText {r : Run} {cells : List Cell} (h : After j r cells) {s : List Char}
    (hs : allBlank s = true) :
    Edge j (r.text j.len j.width s) (cells ++ Cell.ofText s) (endsBlank s) := by
  obtain ⟨ps, hout⟩ := h.progress.flush
  rw [ofText_of_allBlank hs, List.append_nil]
  unfold Run.text
  dsimp only
  rw [if_pos hs]
  split
  · rename_i hcount
    refine ⟨⟨ps, ['\n'], hout.blankLine, fun _ => ?_⟩, poised_of_allBlank hs rfl h.landed.last,
      h.depth⟩
    refine Text.endsBlank_of_allBlank hs ?_
    rintro rfl
    simp at hcount
  · exact ⟨⟨ps, [], hout, by simp⟩, poised_of_allBlank hs rfl h.landed.last, h.depth⟩

/-- The buffer in which the first line of a text is written. -/
def roomFor (j : Job) (b : Buffer) (s : List Char) (newLine : Bool) : Buffer :=
  if newLine then b else b.makeRoom j.len j.width (j.len (((Text.words s).head?).getD []))

theorem Output.makeRoomFor {b : Buffer} {cells : List Cell} {ps : List (List Char × List Char)}
    (h : Output j b cells ps []) {s w : List Char} {ws : List (List Char)}
    (hs : Text.words s = w :: ws) (newLine : Bool) :
    ∃ ps', Output j (roomFor j b s newLine) cells ps' [] ∧ (newLine = false → Fair j cells →
      Crowded (leaves (marks cells) ps') →
        (reach j.len 0 (leaves (marks cells) ps') : Int) + j.len w ≤ j.width) := by
  cases newLine with
  | true => exact ⟨ps, h, by simp⟩
  | false =>
    obtain ⟨ps', hout, hroom⟩ := h.makeRoom (j.len w)
    refine ⟨ps', ?_, fun _ => hroom⟩
    rw [roomFor, hs]
    exact hout

/-- Text that is no white space is wrapped, on a line of its own behind white space or control
flow, and else glued to what there is room behind. -/
theorem Output.text {b : Buffer} {cells : List Cell} {ps : List (List Char × List Char)}
    (h : Output j b cells ps []) {s : List Char} (hs : allBlank s = false) {depth : Nat}
    (hd : depth = depthOf j.style.checker cells) {newLine : Bool}
    (hn : ∀ i ∈ lastItem none cells,
      newLine = (Text.startsBlank s || i.isControl j.style.checker)) :
    ∃ g groups ps', wrap j.len s ((2 * depth : Nat) + effectiveWidth j.width depth)
        (if newLine then (2 * depth : Nat) else (roomFor j b s newLine).column)
        (2 * depth : Nat) = (g :: groups).map Text.joinWords ∧
      Output j ((roomFor j b s newLine).writeWrapped j.len depth newLine g groups)
        (cells ++ Cell.ofText s) ps' [] := by
  obtain ⟨groups, hgroups, hflat, hnonempty, hfirst, hfilled⟩ := wrap_groups j.len s
    ((2 * depth : Nat) + effectiveWidth j.width depth)
    (if newLine then (2 * depth : Nat) else (roomFor j b s newLine).column) (2 * depth : Nat)
  rcases groups with _ | ⟨_ | ⟨w, ws⟩, groups⟩
  · rw [List.flatten_nil] at hflat
    rw [Text.words_eq_nil_iff.1 hflat.symm] at hs
    exact absurd hs (by simp)
  · exact absurd rfl (hnonempty [] List.mem_cons_self)
  have hws : Text.words s = w :: (ws ++ groups.flatten) := hflat.symm
  have hwords : ∀ g ∈ (w :: ws) :: groups, ∀ v ∈ g, Word v := fun g hg v hv =>
    Text.word_of_mem_words (hflat ▸ List.mem_flatten.2 ⟨g, hg, hv⟩)
  obtain ⟨ps', hout, hroom⟩ := h.makeRoomFor hws newLine
  obtain ⟨_, _, gap, qs, hsplit, hlines, hgap, hapart, hqs⟩ :=
    exists_wrapped depth newLine (List.cons_ne_nil w ws) groups
  obtain ⟨rfl, rfl⟩ := List.cons.inj (hws ▸ hflat ▸ hsplit)
  have hlaid : Laid j (cells ++ Cell.ofText s)
      (ps' ++ (lineOf depth newLine (w :: ws) ++ groups.flatMap (lineOf depth true))) := by
    rw [hlines, ofText_of_words hws]
    refine hout.laid.append (.cons ⟨.word w, hgap, fun prev hprev => ?_⟩ (follow_wordCells hqs _))
    rw [hapart, hn prev hprev]
    simp [separated, Item.isControl, Item.isStructural]
  exact ⟨w :: ws, groups, _, hgroups, hout.writeWrapped hlaid
    (fun g hg => hnonempty g (List.mem_cons_of_mem _ hg)) hwords
    (fun hfair => by rw [← hfair.textWidth hws hd]; exact hfirst _ rfl)
    (fun hfair => by rw [← hfair.textWidth hws hd]; exact hfilled) hroom⟩

theorem After.text {r : Run} {cells : List Cell} (h : After j r cells) (s : List Char) :
    Edge j (r.text j.len j.width s) (cells ++ Cell.ofText s) (endsBlank s) := by
  cases hs : allBlank s with
  | true => exact h.blankText hs
  | false =>
    obtain ⟨ps, hout⟩ := h.progress.flush
    obtain ⟨v, hlast⟩ := lastItem_ofText cells hs
    unfold Run.text
    dsimp only
    rw [if_neg (by simp [hs])]
    have hnew : ∀ i ∈ lastItem none cells, (Text.startsBlank s || r.last == .control) =
        (Text.startsBlank s || i.isControl j.style.checker) := by
      intro i hi
      rw [h.landed.last, Option.mem_def.1 hi, control_iff_adjacency]
    generalize (Text.startsBlank s || r.last == .control) = newLine at hnew
    obtain ⟨g, groups, ps', hgroups, hout'⟩ := hout.text hs h.depth hnew
    have hroomFor : (if newLine then r.buffer else
        r.buffer.makeRoom j.len j.width (j.len (((Text.words s).head?).getD []))) =
        roomFor j r.buffer s newLine := rfl
    refine ⟨?_, poised_of_word rfl (by rintro rfl; simp [allBlank] at hs) hlast,
      h.depth.trans (depthOf_append_ofText _ _ _).symm⟩
    rw [hroomFor, hgroups]
    by_cases htrail : Text.trailingNewlines s > 1
    · rw [if_pos htrail]
      exact ⟨_, ['\n'], hout'.blankLine, fun _ => endsBlank_of_trailingNewlines htrail⟩
    · rw [if_neg htrail]
      exact ⟨_, [], hout', by simp⟩

theorem landed_tagWritten {checker : Ruby.Checker} {r : Run} {cells : List Cell} {apart : Bool}
    {i : Item} (hi : i.isStructural = true) :
    Landed checker (r.tagWritten i.isBlockLevel) (cells ++ [⟨apart, i⟩]) := by
  refine ⟨rfl, ?_⟩
  rw [lastItem_append]
  exact (adjacency_of_isStructural checker hi).symm

theorem landed_afterCode {r : Run} {cells : List Cell} {apart : Bool} {n : Name} {text : List Char}
    {tag : Erb.Tag} (ht : Erb.Tag.split? text = some tag) (code : List Char) :
    Landed j.style.checker (j.afterCode r tag (Ruby.classify j.style.checker tag.code) code)
      (cells ++ [⟨apart, .code n text⟩]) := by
  refine ⟨rfl, ?_⟩
  rw [lastItem_append]
  change (if (Ruby.classify j.style.checker tag.code).isControlFlow then Adjacency.control
    else .text) = adjacency j.style.checker (some (.code n text))
  rw [adjacency_of_not_isStructural j.style.checker rfl, Item.isControl, ht]
  rfl

theorem Edge.codeTag {r r' : Run} {cells : List Cell} {apart : Bool} (h : Edge j r cells apart)
    (hp : j.style.reformatter = Ruby.passThrough) {n : Name} {text : List Char} {offset : Nat}
    (hr : j.codeTag r text offset = .ok r') : After j r' (cells ++ [⟨apart, .code n text⟩]) := by
  obtain ⟨tag, r₁, ht, hs, he, hdepth⟩ := Job.codeTag_eq_ok hp hr
  subst he
  have hcontrol : (Item.code n text).isControl j.style.checker =
      (Ruby.classify j.style.checker tag.code).isControlFlow := by
    rw [Item.isControl, ht]
    rfl
  have hbreak : ((Ruby.classify j.style.checker tag.code).isControlFlow || r₁.breaksBeforeCode) =
      breaks j.style.checker (lastItem none cells) ⟨apart, .code n text⟩ := by
    rw [← h.poised.code n text, hcontrol, hs.breaksBeforeCode]
  have hemit := (h.progress.of_buffer hs.buffer).emit (.code ht (indentOf_allBlank _))
    (framed_build tag.opener (laidCode j.style.checker tag.code) tag.closer r₁.indent) hbreak
  refine ⟨hemit.of_buffer ?_, landed_afterCode ht _, ?_⟩
  · unfold Job.afterCode
    dsimp only
    split <;> rfl
  · rw [depthOf_concat, hdepth, h.depth]

theorem after_tagWritten {r : Run} {cells : List Cell} {apart : Bool} {i : Item}
    (h : Progress j r (cells ++ [⟨apart, i⟩]) false) (hi : i.isStructural = true)
    (hdepth : r.nesting.depth = i.depthAfter j.style.checker (depthOf j.style.checker cells)) :
    After j (r.tagWritten i.isBlockLevel) (cells ++ [⟨apart, i⟩]) :=
  ⟨h.of_buffer rfl, landed_tagWritten hi, hdepth.trans (depthOf_concat _ cells ⟨apart, i⟩).symm⟩

theorem Edge.openTag {r r' : Run} {cells : List Cell} {apart : Bool} (h : Edge j r cells apart)
    {text name attrs : List Char} {closing : Closing} {offset : Nat}
    (hr : j.openTag r name attrs closing offset = .ok r') :
    After j r' (cells ++ [⟨apart, .token (.opening text name attrs closing)⟩]) := by
  cases hv : Element.isValidName name with
  | false =>
    rw [j.openTag_invalid hv] at hr
    simp at hr
  | true =>
    rw [j.openTag_valid hv] at hr
    obtain rfl : j.afterOpen r name attrs closing = r' := by simpa using hr
    have hbreak := h.poised.tag (.token (.opening text name attrs closing)) rfl
    have hbefore : Progress j (j.beforeOpen r name attrs closing) cells apart := by
      unfold Job.beforeOpen
      split
      · exact h.progress
      · rename_i hflush
        obtain rfl : apart = false := by
          refine apart_of_breaks (hbreak.symm.trans ?_)
          simpa [Item.isBlockLevel] using hflush
        exact h.progress.makeRoom _
    have hw : Written j (.token (.opening text name attrs closing)) (openText r.nesting.depth name
        (j.attributesIn r name attrs closing) closing) :=
      .opening text name attrs closing r.nesting.depth _
    have hnoted : Progress j ((j.beforeOpen r name attrs closing).note
        (Job.layoutLog r.nesting.depth (j.attributesIn r name attrs closing))) cells apart :=
      hbefore.of_buffer rfl
    have hemit := hnoted.emit hw (framed_openText r.nesting.depth name _ closing) hbreak
    have hafter : Progress j (j.afterOpen r name attrs closing)
        (cells ++ [⟨apart, .token (.opening text name attrs closing)⟩]) false := by
      refine hemit.of_buffer ?_
      unfold Job.afterOpen
      cases Element.isSelfClosing name closing <;> rfl
    refine after_tagWritten hafter rfl ?_
    rw [j.nesting_afterOpen, Item.depthAfter, ← h.depth]
    cases Element.isSelfClosing name closing <;> rfl

theorem Edge.closeTag {r r' : Run} {cells : List Cell} {apart : Bool} (h : Edge j r cells apart)
    {text name : List Char} {offset : Nat} (hr : j.closeTag r name offset = .ok r') :
    After j r' (cells ++ [⟨apart, .token (.close text name)⟩]) := by
  cases hv : r.nesting.topIsElement name with
  | false =>
    rw [j.closeTag_unmatched hv] at hr
    simp at hr
  | true =>
    rw [j.closeTag_open hv] at hr
    obtain rfl : j.afterClose r name = r' := by simpa using hr
    have hbreak := h.poised.tag (.token (.close text name)) rfl
    exact after_tagWritten ((h.progress.of_buffer (Run.samePlace_pop r).buffer).emit
      (.close text name) (framed_closeText name) hbreak) rfl (by
        rw [Run.nesting_emit, Run.depth_pop, h.depth, Item.depthAfter])

theorem Edge.comment {r : Run} {cells : List Cell} {apart : Bool} (h : Edge j r cells apart)
    {text : List Char} (hf : Framed text) :
    After j (j.comment r text) (cells ++ [⟨apart, .token (.comment text)⟩]) :=
  after_tagWritten (h.progress.emit (.comment text) hf (h.poised.tag (.token (.comment text)) rfl)) rfl
    (by rw [Run.nesting_emit, h.depth, Item.depthAfter])

theorem After.rawText {r : Run} {cells : List Cell} (h : After j r cells) {t : Token}
    (ht : lastItem none cells = some (.token t)) {name content closeTag : List Char}
    (hclose : closeTag ≠ []) :
    After j (j.rawText r name content closeTag)
      (cells ++ Cell.ofRawText name content closeTag) := by
  obtain ⟨ps, hout⟩ := h.progress.flush
  have hbody : Progress j { r with buffer := r.buffer.write j.len (Text.trimRight content) }
      (cells ++ [⟨false, .body (Text.trimRight content)⟩]) (endsBlank content) := by
    refine ⟨_, [], hout.write ⟨.body _, rfl, fun prev hprev => ?_⟩ (.inl rfl), by simp⟩
    dsimp only at hprev
    rw [ht, Option.some.injEq] at hprev
    subst hprev
    simp [separated, Item.isControl, Item.isStructural]
  have hbreak : endsBlank content = breaks j.style.checker
      (lastItem none (cells ++ [⟨false, .body (Text.trimRight content)⟩]))
      ⟨endsBlank content, .rawClose name closeTag⟩ := by
    rw [lastItem_append]
    simp [lastItem, breaks, separated, Item.isControl, Item.isStructural]
  have hif : closeTag.isEmpty = false := by simpa using hclose
  simp only [Job.rawText, Cell.ofRawText, hif, Bool.false_eq_true, if_false]
  rw [List.append_cons cells]
  refine after_tagWritten (i := .rawClose name closeTag) ?_ rfl ?_
  · refine (hbody.of_buffer ?_).emit (.rawClose name closeTag) (framed_closeText name) hbreak
    rw [(Run.samePlace_pop _).buffer]
    split <;> rfl
  · rw [Run.nesting_emit, Run.depth_pop, depthOf_concat, Item.depthAfter, Item.depthAfter,
      ← h.depth]
    split <;> rfl

theorem After.gapFrom (hp : j.style.reformatter = Ruby.passThrough)
    {fs : List (Found (Name × List Char))} {cur : List Char} {offset : Nat} {r r' : Run}
    {cells : List Cell} (h : After j r cells) (hr : j.gapFrom cur offset fs r = .ok r') :
    Edge j r' (cells ++ Cell.ofFound cur fs)
      (endsBlank (cur.reverse ++ Found.fill (fun e => e.1.text) fs)) := by
  induction fs generalizing cur offset r cells with
  | nil =>
    simp only [Job.gapFrom, Except.ok.injEq] at hr
    subst hr
    simpa [Cell.ofFound] using h.text cur.reverse
  | cons f fs ih =>
    cases f with
    | char c =>
      have hrest := @ih (c :: cur) _ _ _ h hr
      simpa [Cell.ofFound] using hrest
    | value e =>
      obtain ⟨n, text⟩ := e
      obtain ⟨r₁, hc, hrest⟩ := Job.gapFrom_value_eq_ok hr
      have hcode := (h.text cur.reverse).codeTag hp (n := n) hc
      have hfound := @ih [] _ _ _ hcode hrest
      rw [Found.fill_value, endsBlank_append_name, Cell.ofFound]
      simpa using hfound

theorem After.gap (hp : j.style.reformatter = Ruby.passThrough) {r r' : Run} {cells : List Cell}
    {text : List Char} {offset : Nat} (h : After j r cells) (hr : j.gap r text offset = .ok r') :
    Edge j r' (cells ++ Cell.ofGap j.table text) (endsBlank text) := by
  unfold Job.gap at hr
  split at hr
  · simp at hr
  · split at hr
    · simp at hr
    · have hfound := h.gapFrom hp hr
      rwa [List.reverse_nil, List.nil_append, fill_scan_entries] at hfound

theorem Edge.token {r r' : Run} {cells : List Cell} {apart : Bool} (h : Edge j r cells apart)
    {t : Token} (ht : Framed t.text) {offset : Nat} (hr : j.piece r offset (.token t) = .ok r') :
    After j r' (cells ++ [⟨apart, .token t⟩]) := by
  cases t with
  | comment text =>
    obtain rfl : j.comment r text = r' := by simpa [Job.piece] using hr
    exact h.comment ht
  | close text name => exact h.closeTag hr
  | opening text name attrs closing => exact h.openTag hr

theorem nesting_of_rawTextAfter {r r' : Run} {t : Token} {offset : Nat} {name : List Char}
    (hr : j.piece r offset (.token t) = .ok r') (hraw : Piece.rawTextAfter t = some name) :
    r'.nesting ≠ [] := by
  cases t with
  | comment text => simp [Piece.rawTextAfter] at hraw
  | close text name => simp [Piece.rawTextAfter] at hraw
  | opening text m attrs closing =>
    rw [Piece.rawTextAfter] at hraw
    split at hraw
    · rename_i hcond
      simp only [Bool.and_eq_true, Bool.not_eq_true'] at hcond
      cases hv : Element.isValidName m with
      | false =>
        rw [Job.piece, j.openTag_invalid hv] at hr
        simp at hr
      | true =>
        rw [Job.piece, j.openTag_valid hv] at hr
        obtain rfl : j.afterOpen r m attrs closing = r' := by simpa using hr
        rw [j.nesting_afterOpen, hcond.2]
        simp
    · simp at hraw

/-- A run that comes to its end has written the cells of all its pieces, and every raw text was
closed. -/
theorem After.pieces (hp : j.style.reformatter = Ruby.passThrough) {raw : Option (List Char)}
    {ps : List Piece} (ho : Piece.Ordered raw ps) (hframed : ∀ t, .token t ∈ ps → Framed t.text)
    {r r' : Run} {cells : List Cell} {offset : Nat} (h : After j r cells)
    (hraw : ∀ name, raw = some name →
      r.nesting ≠ [] ∧ ∃ t, lastItem none cells = some (.token t))
    (hr : j.pieces offset ps r = .ok r') :
    (∃ apart, Progress j r' (cells ++ Cell.ofPieces j.table false ps) apart) ∧
      ∀ name content, .rawText name content [] ∉ ps := by
  induction ho generalizing r cells offset with
  | nil raw =>
    obtain ⟨-, rfl⟩ := Job.pieces_nil_eq_ok hr
    exact ⟨⟨false, by simpa [Cell.ofPieces] using h.progress⟩, by simp⟩
  | unclosed name content =>
    obtain ⟨hopen, -⟩ := hraw name rfl
    obtain ⟨r₁, hbody, hrest⟩ := Job.pieces_cons_eq_ok hr
    obtain ⟨hnil, -⟩ := Job.pieces_nil_eq_ok hrest
    obtain rfl : j.rawText r name content [] = r₁ := by simpa [Job.piece] using hbody
    refine absurd ?_ hopen
    rw [← hnil]
    simp only [Job.rawText, List.isEmpty_nil, if_true]
    split <;> rfl
  | rawText hne _ ih =>
    rename_i name content closeTag ps _
    obtain ⟨-, t, ht⟩ := hraw name rfl
    obtain ⟨r₁, hbody, hrest⟩ := Job.pieces_cons_eq_ok hr
    obtain rfl : j.rawText r name content closeTag = r₁ := by simpa [Job.piece] using hbody
    obtain ⟨⟨apart, hprogress⟩, hclosed⟩ :=
      ih (fun t ht => hframed t (List.mem_cons_of_mem _ ht)) (h.rawText ht hne) (by simp) hrest
    refine ⟨⟨apart, by simpa [Cell.ofPieces] using hprogress⟩, ?_⟩
    intro name' content' hmem
    rcases List.mem_cons.1 hmem with he | hmem
    · simp only [Piece.rawText.injEq] at he
      exact hne he.2.2.symm
    · exact hclosed name' content' hmem
  | last text =>
    obtain ⟨r₁, hgap, hrest⟩ := Job.pieces_cons_eq_ok hr
    obtain ⟨-, rfl⟩ := Job.pieces_nil_eq_ok hrest
    exact ⟨⟨_, by simpa [Cell.ofPieces] using (h.gap hp hgap).progress⟩, by simp⟩
  | token _ ih =>
    rename_i text t ps _
    obtain ⟨r₁, hgap, hrest⟩ := Job.pieces_cons_eq_ok hr
    obtain ⟨r₂, ht, hrest⟩ := Job.pieces_cons_eq_ok hrest
    have htoken := (h.gap hp hgap).token (hframed t (by simp)) ht
    obtain ⟨⟨apart, hprogress⟩, hclosed⟩ :=
      ih (fun t ht => hframed t (by simp [ht])) htoken (fun name hname =>
        ⟨nesting_of_rawTextAfter ht hname, t, by rw [lastItem_append]; rfl⟩) hrest
    refine ⟨⟨apart, by simpa [Cell.ofPieces] using hprogress⟩, ?_⟩
    intro name content hmem
    simp only [List.mem_cons, reduceCtorEq, false_or] at hmem
    exact hclosed name content hmem

end ErbLayout.Template
