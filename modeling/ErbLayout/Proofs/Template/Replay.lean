import ErbLayout.Proofs.Erb.Renamed
import ErbLayout.Proofs.Template.Abreast
/-!
A unit that one of two runs side by side can write, the other can write too.
-/

namespace ErbLayout.Template

open Layout Markup Placeholder
open Text (Framed allBlank startsBlank endsBlank)
open Job (closes codeFrom codeGiven inlineClosing layoutLog openText)

/-- Frames of the same kind, elements under renamed names and blocks of renamed code. -/
inductive Reframed {α : Type} (g g' : Glossary α) : Frame → Frame → Prop
  | element {m m' : List Char} (raw : List Char) : Renamed g g' m m' →
    Reframed g g' (.element m raw) (.element m' raw)
  | block {code code' : List Char} : Renamed g g' code code' →
    Reframed g g' (.block code) (.block code')

/-- Tables that make the same of texts that are renamed to each other. -/
def Restoring {α : Type} (g g' : Glossary α) (t t' : Table) : Prop :=
  ∀ s s', Renamed g g' s s' → t.restore s = t'.restore s'

/-- Two runs side by side between two units. -/
structure Tracks {α : Type} (g g' : Glossary α) (pre' : List Char) (r r' : Run) : Prop where
  nesting : List.Forall₂ (Reframed g g') r.nesting r'.nesting
  buffer : Abreast g g' pre' r.buffer r'.buffer
  last : r.last = r'.last
  endsBlank : endsBlank r.gap = endsBlank r'.gap
  isEmpty : r.gap.isEmpty = r'.gap.isEmpty

/-- Two runs side by side, or before the first unit of one of them. -/
inductive Ready {α : Type} (g g' : Glossary α) (pre' : List Char) (r r' : Run) : Prop
  | tracks : Tracks g g' pre' r r' → Ready g g' pre' r r'
  | fresh : Fresh r r' → pre' = r'.buffer.text ++ ['\n'] → Ready g g' pre' r r'

variable {α : Type} {g g' : Glossary α} {len len' : Measure} {width : Int} {j j' : Job}
variable {r r' r₀ r₀' : Run} {s s' pre' : List Char}

namespace Tracks

theorem depth (h : Tracks g g' pre' r r') : r.nesting.depth = r'.nesting.depth :=
  h.nesting.length_eq

theorem breaksBeforeTag (h : Tracks g g' pre' r r') (blockLevel : Bool) :
    r.breaksBeforeTag blockLevel = r'.breaksBeforeTag blockLevel := by
  rw [Run.breaksBeforeTag, Run.breaksBeforeTag, h.endsBlank, h.isEmpty, h.last]

theorem breaksBeforeCode (h : Tracks g g' pre' r r') :
    r.breaksBeforeCode = r'.breaksBeforeCode := by
  rw [Run.breaksBeforeCode, Run.breaksBeforeCode, h.endsBlank, h.isEmpty, h.last]

theorem congr (h : Tracks g g' pre' r r') (hr : r.SamePlace r₀) (hr' : r'.SamePlace r₀')
    (hn : List.Forall₂ (Reframed g g') r₀.nesting r₀'.nesting) : Tracks g g' pre' r₀ r₀' := by
  obtain ⟨-, hbuffer, hlast, hends, hempty⟩ := h
  refine ⟨hn, ?_, ?_, ?_, ?_⟩
  · rwa [hr.buffer, hr'.buffer]
  · rw [hr.last, hr'.last, hlast]
  · rw [hr.gap, hr'.gap, hends]
  · rw [hr.gap, hr'.gap, hempty]

end Tracks

theorem Abreast.blankLine {b b' : Buffer} (hlen : Agree g g' len len')
    (h : Abreast g g' pre' b b') : Abreast g g' pre' (b.blankLine len) (b'.blankLine len') := by
  obtain ⟨pre, x, x', hlead, hfollows, hgrown⟩ := h
  exact ⟨pre, _, _, hlead, hfollows.blankLine hlen, hgrown.append _⟩

theorem Abreast.makeRoom {b b' : Buffer} (hlen : Agree g g' len len')
    (h : Abreast g g' pre' b b') (width needed : Int) :
    Abreast g g' pre' (b.makeRoom len width needed) (b'.makeRoom len' width needed) := by
  obtain ⟨pre, x, x', hlead, hfollows, hgrown⟩ := h
  obtain ⟨y, y', hroom, -, hgrow⟩ := hfollows.makeRoom hlen width needed
  exact ⟨pre, y, y', hlead, hroom, hgrow hgrown⟩

theorem Abreast.column {b b' : Buffer} (h : Abreast g g' pre' b b') : b.column = b'.column := by
  obtain ⟨pre, x, x', -, hfollows, -⟩ := h
  exact hfollows.column

theorem Run.text_of_blank (r : Run) (len : Measure) (width : Int) (hs : allBlank s = true) :
    r.text len width s =
      { r with
        gap := s
        buffer := if s.count '\n' > 1 then r.buffer.blankLine len else r.buffer } := by
  unfold Run.text
  dsimp only
  rw [if_pos hs]
  split <;> rfl

theorem Tracks.text (h : Tracks g g' pre' r r') (hlen : Agree g g' len len')
    (hlast : LastFree r.buffer.text) (hs : Renamed g g' s s') :
    Tracks g g' pre' (r.text len width s) (r'.text len' width s') := by
  have hfeed : Blind (· == '\n') := blind_eq (by decide)
  have hends := hs.like.endsBlank
  have hempty : s.isEmpty = s'.isEmpty := (Attribute.isEmpty_eq_of_like hs.like).symm
  cases hb : allBlank s with
  | true =>
    have hcount : s.count '\n' = s'.count '\n' := hs.like.countP hfeed
    rw [r.text_of_blank len width hb, r'.text_of_blank len' width (hs.like.allBlank ▸ hb), ← hcount]
    refine ⟨h.nesting, ?_, h.last, hends, hempty⟩
    dsimp only
    split
    · exact h.buffer.blankLine hlen
    · exact h.buffer
  | false =>
    have htrailing : Text.trailingNewlines s = Text.trailingNewlines s' :=
      (hs.like.reverse.span blind_isBlank).1.countP hfeed
    rw [r.text_of_not_blank len width hb, r'.text_of_not_blank len' width (hs.like.allBlank ▸ hb),
      ← hs.like.startsBlank, ← htrailing, ← h.last]
    refine ⟨h.nesting, ?_, rfl, hends, hempty⟩
    have hwritten := h.buffer.wrapped hlen h.depth hlast hs width
      (startsBlank s || r.last == .control)
    dsimp only
    split
    · exact hwritten.blankLine hlen
    · exact hwritten

namespace Fresh

theorem breaksBeforeTag (h : Fresh r r') (blockLevel : Bool) :
    r.breaksBeforeTag blockLevel = false ∧ r'.breaksBeforeTag blockLevel = true := by
  constructor
  · rw [Run.breaksBeforeTag, h.gap, h.last]
    rfl
  · rw [Run.breaksBeforeTag, h.breaks, if_pos rfl]

theorem breaksBeforeCode (h : Fresh r r') : r'.breaksBeforeCode = true := by
  rw [Run.breaksBeforeCode, h.breaks, if_pos rfl]

theorem congr (h : Fresh r r') (hr : r.SamePlace r₀) (hr' : r'.SamePlace r₀')
    (hn : r₀.nesting = []) (hn' : r₀'.nesting = []) : Fresh r₀ r₀' :=
  ⟨hn, hn', hr.buffer.trans h.buffer, hr.last.trans h.last, hr.gap.trans h.gap,
    by rw [hr'.buffer, h.size], by rw [hr'.gap, h.breaks]⟩

end Fresh

namespace Ready

theorem nesting (h : Ready g g' pre' r r') :
    List.Forall₂ (Reframed g g') r.nesting r'.nesting := by
  cases h with
  | tracks h => exact h.nesting
  | fresh h _ =>
    rw [h.nesting, h.nesting']
    exact .nil

theorem depth (h : Ready g g' pre' r r') : r.nesting.depth = r'.nesting.depth :=
  h.nesting.length_eq

theorem congr (h : Ready g g' pre' r r') (hr : r.SamePlace r₀) (hr' : r'.SamePlace r₀')
    (hn : r₀.nesting = r.nesting) (hn' : r₀'.nesting = r'.nesting) : Ready g g' pre' r₀ r₀' := by
  cases h with
  | tracks h =>
    refine .tracks (h.congr hr hr' ?_)
    rw [hn, hn']
    exact h.nesting
  | fresh h hpre =>
    refine .fresh (h.congr hr hr' (hn.trans h.nesting) (hn'.trans h.nesting')) ?_
    rw [hr'.buffer, hpre]

/-- A unit is written in both runs. -/
theorem emit (h : Ready g g' pre' r r') (hlen : Agree g g' len len') (hnil : len' [] = 0)
    (hs : Renamed g g' s s') (hf : Framed s) (hf' : Framed s') (width : Int)
    {newLine newLine' : Bool}
    (htracks : Tracks g g' pre' r r' → newLine = newLine') (hfresh : Fresh r r' → newLine' = true) :
    Abreast g g' pre' (r.emit len width s newLine).buffer
      (r'.emit len' width s' newLine').buffer := by
  cases h with
  | tracks h =>
    rw [← htracks h]
    exact h.buffer.emit hlen h.depth hs hf newLine
  | fresh h hpre =>
    rw [hfresh h, hpre]
    exact h.emit hlen hnil hs hf hf' newLine

/-- A comment, a declaration or an open tag is written in both runs. -/
theorem tag (h : Ready g g' pre' r r') (hlen : Agree g g' len len') (hnil : len' [] = 0)
    (hs : Renamed g g' s s') (hf : Framed s) (hf' : Framed s') (width : Int) (blockLevel : Bool) :
    Abreast g g' pre' (r.emit len width s (r.breaksBeforeTag blockLevel)).buffer
      (r'.emit len' width s' (r'.breaksBeforeTag blockLevel)).buffer :=
  h.emit hlen hnil hs hf hf' width (fun h => h.breaksBeforeTag blockLevel)
    fun h => (h.breaksBeforeTag blockLevel).2

end Ready

theorem tracks_tagWritten {blockLevel blockLevel' : Bool}
    (hn : List.Forall₂ (Reframed g g') r.nesting r'.nesting)
    (hb : Abreast g g' pre' r.buffer r'.buffer) (hblock : blockLevel = blockLevel') :
    Tracks g g' pre' (r.tagWritten blockLevel) (r'.tagWritten blockLevel') := by
  subst hblock
  exact ⟨hn, hb, rfl, rfl, rfl⟩

theorem renamed_openText {name name' : List Char} {l l' : AttributeLayout}
    (hname : Renamed g g' name name') (hl : l.Renamed g g' l') (depth : Nat) (closing : Closing) :
    Renamed g g' (openText depth name l closing) (openText depth name' l' closing) := by
  have htag : Renamed g g' ('<' :: name ++ l.text depth) ('<' :: name' ++ l'.text depth) :=
    (Renamed.cons (by decide) hname).append (hl.text depth)
      (.inr (AttributeLayout.headFree_text l depth))
  have hclosing {c : List Char} (hc : Free c) :
      Renamed g g' ('<' :: name ++ l.text depth ++ c) ('<' :: name' ++ l'.text depth ++ c) :=
    htag.append (.of_free hc) (.inr hc.headFree)
  unfold openText
  rw [hl.isBroken]
  split
  · exact hclosing (free_closing closing)
  · exact hclosing (free_inlineClosing closing)

theorem renamed_closeText {name name' : List Char} (h : Renamed g g' name name') :
    Renamed g g' ('<' :: '/' :: name ++ ['>']) ('<' :: '/' :: name' ++ ['>']) :=
  Renamed.append (.cons (by decide) (.cons (by decide) h)) (.of_free (free_of_all (by decide)))
    (.inr (headFree_cons (by decide) []))

theorem Tracks.pop (h : Tracks g g' pre' r r') : Tracks g g' pre' r.pop r'.pop := by
  refine h.congr (Run.samePlace_pop r) (Run.samePlace_pop r') ?_
  have hn := h.nesting
  rw [Run.nesting_pop, Run.nesting_pop]
  generalize r.nesting = n at hn ⊢
  generalize r'.nesting = n' at hn ⊢
  cases hn with
  | nil => exact .nil
  | cons _ hrest => exact hrest

theorem Tracks.popped (h : Tracks g g' pre' r r') (hs : r.SamePlace r₀) (hs' : r'.SamePlace r₀')
    (hn : r₀.nesting = r.nesting.tail) (hn' : r₀'.nesting = r'.nesting.tail) :
    Tracks g g' pre' r₀ r₀' := by
  refine h.congr hs hs' ?_
  rw [hn, hn', ← Run.nesting_pop, ← Run.nesting_pop]
  exact h.pop.nesting

theorem Tracks.topIsElement (h : Tracks g g' pre' r r') {name : List Char}
    (hfree : g.entries.namesIn name = []) (hr : r.nesting.topIsElement name = true) :
    r'.nesting.topIsElement name = true := by
  have hn := h.nesting
  generalize r.nesting = n at hn hr
  generalize r'.nesting = n' at hn ⊢
  cases hn with
  | nil => simp [Nesting.topIsElement] at hr
  | cons hframe _ =>
    cases hframe with
    | element raw hm =>
      obtain rfl := eq_of_beq hr
      rw [hm.eq_of_namesIn_nil hfree]
      exact beq_self_eq_true _
    | block hcode => simp [Nesting.topIsElement] at hr

theorem breaksBeforeTag_beforeOpen (name attrs : List Char) (closing : Closing)
    (blockLevel : Bool) :
    (j.beforeOpen r name attrs closing).breaksBeforeTag blockLevel =
      r.breaksBeforeTag blockLevel := by
  unfold Job.beforeOpen
  split <;> rfl

/-- The run behind the body of an element of raw text. -/
def Job.afterBody (j : Job) (r : Run) (content : List Char) : Run :=
  if allBlank content then { r with buffer := r.buffer.write j.len (Text.trimRight content) }
  else { r with buffer := r.buffer.write j.len (Text.trimRight content), last := .text }

theorem Job.rawText_closed (j : Job) (r : Run) (name content : List Char) {closeTag : List Char}
    (h : closeTag ≠ []) : j.rawText r name content closeTag =
      ((j.afterBody r content).pop.emit j.len j.width ('<' :: '/' :: name ++ ['>'])
        (endsBlank content)).tagWritten true := by
  rw [rawText, if_neg (by simpa using h)]
  rfl

theorem Tracks.topIsBlock (h : Tracks g g' pre' r r') :
    r.nesting.topIsBlock = r'.nesting.topIsBlock := by
  have hn := h.nesting
  generalize r.nesting = n at hn ⊢
  generalize r'.nesting = n' at hn ⊢
  cases hn with
  | nil => rfl
  | cons hframe _ => cases hframe <;> rfl

/-- The code of a tag that spells no names spells none when it is laid out. -/
theorem namesIn_code {text code : List Char} {tag : Erb.Tag} (es : Entries)
    (ht : Erb.Tag.split? text = some tag) (hcode : Text.words code = Text.words tag.code)
    (htext : es.namesIn text = []) : es.namesIn code = [] := by
  obtain ⟨inside, rfl, hwords⟩ := Erb.Tag.split?_eq_some ht
  rw [es.seamwise_namesIn.between (free_opener _) (free_closer _), List.append_eq_nil_iff,
    List.append_eq_nil_iff] at htext
  rw [es.seamwise_namesIn.congr (hcode.trans hwords.symm), htext.2.1]

theorem Restoring.agree {t t' : Table} (h : Restoring g g' t t') :
    Agree g g' t.restoredLength t'.restoredLength := fun s s' hs => congrArg List.length (h s s' hs)

section Units

variable (hlen : Agree g g' j.len j'.len) (hstyle : j'.style = j.style)
include hlen hstyle

omit hlen in
theorem width_eq_of_style : j'.width = j.width := by
  rw [Job.width, Job.width, hstyle]

theorem Ready.comment (h : Ready g g' pre' r r') (hs : Renamed g g' s s') (hf : Framed s)
    (hf' : Framed s') :
    Tracks g g' pre' (j.comment r s) (j'.comment r' s') ∧ Settled (j.comment r s) := by
  have hblock := hs.like.isPrefixOf (p := ['<', '!', '-', '-']) (free_of_all (by decide))
  unfold Job.comment
  dsimp only
  rw [← hblock, width_eq_of_style hstyle]
  refine ⟨tracks_tagWritten ?_ (h.tag hlen rfl hs hf hf' _ _) rfl, settled_emit hf _ _ _ _⟩
  simpa using h.nesting

theorem Tracks.afterClose (h : Tracks g g' pre' r r') {name name' : List Char}
    (hname : Renamed g g' name name') :
    Tracks g g' pre' (j.afterClose r name) (j'.afterClose r' name') ∧
      Settled (j.afterClose r name) := by
  unfold Job.afterClose
  dsimp only
  rw [← Element.isBlockLevel_eq_of_renamed hname, ← h.breaksBeforeTag, width_eq_of_style hstyle]
  refine ⟨tracks_tagWritten ?_ ?_ rfl, settled_emit (framed_closeText name) _ _ _ _⟩
  · simpa using h.pop.nesting
  · exact h.pop.buffer.emit hlen h.pop.depth (renamed_closeText hname) (framed_closeText name) _

theorem Tracks.closeTag (h : Tracks g g' pre' r r') {name name' : List Char}
    (hname : Renamed g g' name name') (hfree : g.entries.namesIn name = []) {o : Nat}
    (hr : j.closeTag r name o = .ok r₀) :
    ∃ r₀', (∀ o', j'.closeTag r' name' o' = .ok r₀') ∧ Tracks g g' pre' r₀ r₀' ∧
      Settled r₀ := by
  have he := hname.eq_of_namesIn_nil hfree
  rw [he] at hname ⊢
  cases hv : r.nesting.topIsElement name with
  | false =>
    rw [j.closeTag_unmatched hv] at hr
    simp at hr
  | true =>
    rw [j.closeTag_open hv] at hr
    obtain rfl := Except.ok.inj hr
    exact ⟨_, fun o' => j'.closeTag_open (h.topIsElement hfree hv),
      h.afterClose hlen hstyle hname⟩

omit hstyle in
theorem Tracks.afterBody (h : Tracks g g' pre' r r') (hlast : LastFree r.buffer.text)
    {content content' : List Char} (hcontent : Renamed g g' content content') :
    Tracks g g' pre' (j.afterBody r content) (j'.afterBody r' content') := by
  obtain ⟨pre, x, x', hlead, hfollows, hgrown⟩ := h.buffer
  have hbody : Abreast g g' pre' (r.buffer.write j.len (Text.trimRight content))
      (r'.buffer.write j'.len (Text.trimRight content')) :=
    ⟨pre, _, _, hlead, hfollows.write hlen hcontent.trimRight (.inl (hfollows.lastFree hlast)),
      hgrown.append _⟩
  unfold Job.afterBody
  rw [← hcontent.like.allBlank]
  split
  · exact ⟨h.nesting, hbody, h.last, h.endsBlank, h.isEmpty⟩
  · exact ⟨h.nesting, hbody, rfl, h.endsBlank, h.isEmpty⟩

theorem Tracks.rawText (h : Tracks g g' pre' r r') (hlast : LastFree r.buffer.text)
    {name name' content content' closeTag closeTag' : List Char} (hname : Renamed g g' name name')
    (hcontent : Renamed g g' content content') (hclose : closeTag ≠ []) (hclose' : closeTag' ≠ []) :
    Tracks g g' pre' (j.rawText r name content closeTag)
      (j'.rawText r' name' content' closeTag') ∧ Settled (j.rawText r name content closeTag) := by
  have hbody := (h.afterBody hlen hlast hcontent).pop
  rw [j.rawText_closed r name content hclose, j'.rawText_closed r' name' content' hclose',
    ← hcontent.like.endsBlank, width_eq_of_style hstyle]
  refine ⟨tracks_tagWritten ?_ ?_ rfl, settled_emit (framed_closeText name) _ _ _ _⟩
  · simpa using hbody.nesting
  · exact hbody.buffer.emit hlen hbody.depth (renamed_closeText hname) (framed_closeText name) _

theorem inlineWidth_eq (hn : r.nesting.depth = r'.nesting.depth)
    {name name' attrs attrs' : List Char}
    (hname : Renamed g g' name name') (hattrs : Renamed g g' attrs attrs') (closing : Closing) :
    j.inlineWidth r name attrs (inlineClosing closing) =
      j'.inlineWidth r' name' attrs' (inlineClosing closing) := by
  have hfree := free_inlineClosing closing
  have hbare : Renamed g g' ('<' :: name ++ inlineClosing closing)
      ('<' :: name' ++ inlineClosing closing) :=
    Renamed.append (.cons (by decide) hname) (.of_free hfree) (.inr hfree.headFree)
  unfold Job.inlineWidth Job.codeWidth
  dsimp only
  rw [← hattrs.like.allBlank, width_eq_of_style hstyle, hn, hname.like.length_eq]
  split
  · rw [hlen _ _ hbare]
  · rw [hlen _ _ (renamed_inline hname hattrs.normalize hfree)]

/-- The room for an open tag, and the column where it begins, in both runs. -/
theorem Ready.beforeOpen (h : Ready g g' pre' r r') {name name' attrs attrs' : List Char}
    (hname : Renamed g g' name name') (hattrs : Renamed g g' attrs attrs') (closing : Closing) :
    Ready g g' pre' (j.beforeOpen r name attrs closing) (j'.beforeOpen r' name' attrs' closing) ∧
      (if r.breaksBeforeTag (Element.isBlockLevel name) then 2 * r.nesting.depth
        else (j.beforeOpen r name attrs closing).buffer.column) =
      (if r'.breaksBeforeTag (Element.isBlockLevel name') then 2 * r'.nesting.depth
        else (j'.beforeOpen r' name' attrs' closing).buffer.column) := by
  have hblock := Element.isBlockLevel_eq_of_renamed hname
  have hwidth := inlineWidth_eq hlen hstyle h.depth hname hattrs closing
  unfold Job.beforeOpen
  cases h with
  | tracks h =>
    rw [← hblock, ← h.breaksBeforeTag, ← hwidth, width_eq_of_style hstyle]
    split
    · exact ⟨.tracks h, congrArg _ h.depth⟩
    · have hroom := h.buffer.makeRoom hlen j.width
        (j.inlineWidth r name attrs (inlineClosing closing))
      exact ⟨.tracks ⟨h.nesting, hroom, h.last, h.endsBlank, h.isEmpty⟩, hroom.column⟩
  | fresh h hpre =>
    obtain ⟨hno, hyes⟩ := h.breaksBeforeTag (Element.isBlockLevel name)
    rw [← hblock, hno, hyes, if_neg (by simp), if_pos rfl, if_neg (by simp), if_pos rfl,
      h.nesting', h.buffer]
    refine ⟨.fresh ⟨h.nesting, h.nesting', rfl, h.last, h.gap, h.size, h.breaks⟩ hpre, rfl⟩

omit hlen in
/-- An open tag is written in both runs. -/
theorem Ready.afterOpen (h : Ready g g' pre' r r') (hsame : Restoring g g' j.table j'.table)
    {name name' attrs attrs' : List Char} (hname : Renamed g g' name name')
    (hattrs : Renamed g g' attrs attrs') (closing : Closing) :
    Tracks g g' pre' (j.afterOpen r name attrs closing) (j'.afterOpen r' name' attrs' closing) ∧
      Settled (j.afterOpen r name attrs closing) := by
  have hlen : Agree g g' j.len j'.len := hsame.agree
  obtain ⟨hbefore, hcolumn⟩ := h.beforeOpen hlen hstyle hname hattrs closing
  have hlayout : (j.attributesIn r name attrs closing).Renamed g g'
      (j'.attributesIn r' name' attrs' closing) := by
    unfold Job.attributesIn
    rw [hcolumn, h.depth, width_eq_of_style hstyle]
    exact renamed_of hlen hname hattrs (free_inlineClosing closing)
  have htag := renamed_openText hname hlayout r.nesting.depth closing
  unfold Job.afterOpen
  dsimp only
  rw [← Element.isBlockLevel_eq_of_renamed hname, ← Element.isSelfClosing_eq_of_renamed hname,
    width_eq_of_style hstyle, ← h.depth,
    ← breaksBeforeTag_beforeOpen (j := j) (r := r) name attrs closing,
    ← breaksBeforeTag_beforeOpen (j := j') (r := r') name' attrs' closing]
  generalize j.attributesIn r name attrs closing = layout at hlayout htag ⊢
  generalize j'.attributesIn r' name' attrs' closing = layout' at hlayout htag ⊢
  have hnoted : Ready g g' pre'
      ((j.beforeOpen r name attrs closing).note (layoutLog r.nesting.depth layout))
      ((j'.beforeOpen r' name' attrs' closing).note (layoutLog r.nesting.depth layout')) :=
    hbefore.congr (Run.samePlace_note _ _) (Run.samePlace_note _ _) rfl rfl
  have hwritten := hnoted.tag hlen rfl htag (framed_openText _ _ _ _)
    (framed_openText _ _ _ _) j.width (Element.isBlockLevel name)
  have hsettled := settled_emit (framed_openText r.nesting.depth name layout closing)
    ((j.beforeOpen r name attrs closing).note (layoutLog r.nesting.depth layout)) j.len j.width
    ((j.beforeOpen r name attrs closing).breaksBeforeTag (Element.isBlockLevel name))
  split
  · refine ⟨tracks_tagWritten ?_ hwritten rfl, hsettled⟩
    simpa using hbefore.nesting
  · refine ⟨tracks_tagWritten ?_ hwritten rfl, hsettled⟩
    rw [← hsame _ _ htag]
    simpa using ⟨.element _ hname, hbefore.nesting⟩

omit hlen in
theorem Ready.openTag (h : Ready g g' pre' r r') (hsame : Restoring g g' j.table j'.table)
    {name name' attrs attrs' : List Char} (hname : Renamed g g' name name')
    (hattrs : Renamed g g' attrs attrs') (closing : Closing) {o : Nat}
    (hr : j.openTag r name attrs closing o = .ok r₀) :
    ∃ r₀', (∀ o', j'.openTag r' name' attrs' closing o' = .ok r₀') ∧ Tracks g g' pre' r₀ r₀' ∧
      Settled r₀ := by
  cases hv : Element.isValidName name with
  | false =>
    rw [j.openTag_invalid hv] at hr
    simp at hr
  | true =>
    rw [j.openTag_valid hv] at hr
    obtain rfl := Except.ok.inj hr
    have hv' : Element.isValidName name' = true :=
      (Element.isValidName_eq_of_renamed hname).symm.trans hv
    exact ⟨_, fun o' => j'.openTag_valid hv', h.afterOpen hstyle hsame hname hattrs closing⟩

/-- A code tag is built and written in both runs. -/
theorem Ready.afterCode (h : Ready g g' pre' r r') {tag tag' : Erb.Tag}
    (htag : Erb.Tag.Renamed g g' tag tag') (kind : Ruby.Kind) {code code' : List Char}
    (hcode : Renamed g g' code code') :
    Tracks g g' pre' (j.afterCode r tag kind code) (j'.afterCode r' tag' kind code') ∧
      Settled (j.afterCode r tag kind code) := by
  have hindent : r'.indent = r.indent := congrArg Nesting.indentOf h.depth.symm
  have hbuilt := Erb.Tag.renamed_build (free_opener tag.opener) (free_closer tag.closer)
    (indentOf_allBlank r.nesting.depth) hcode
  have hframed := framed_build tag.opener code tag.closer r.indent
  have hwritten : Abreast g g' pre' _
      (r'.emit j'.len j.width _ (kind.isControlFlow || r'.breaksBeforeCode)).buffer :=
    h.emit hlen rfl hbuilt hframed (framed_build tag.opener code' tag.closer r.indent) j.width
      (fun ht => congrArg (kind.isControlFlow || ·) ht.breaksBeforeCode)
      fun hf => by rw [hf.breaksBeforeCode, Bool.or_true]
  have hsettled := settled_emit hframed r j.len j.width (kind.isControlFlow || r.breaksBeforeCode)
  unfold Job.afterCode
  dsimp only
  rw [hindent, htag.opener, htag.closer, width_eq_of_style hstyle]
  split
  · refine ⟨⟨?_, hwritten, rfl, rfl, rfl⟩, hsettled⟩
    simpa using ⟨.block hcode, h.nesting⟩
  · refine ⟨⟨?_, hwritten, rfl, rfl, rfl⟩, hsettled⟩
    simpa using h.nesting

theorem Ready.codeTag (h : Ready g g' pre' r r') (hp : j.style.reformatter = Ruby.passThrough)
    {text : List Char} (htext : g.entries.namesIn text = []) (htext' : g'.entries.namesIn text = [])
    {o : Nat} (hr : j.codeTag r text o = .ok r₀) :
    ∃ r₀', (∀ o', j'.codeTag r' text o' = .ok r₀') ∧ Tracks g g' pre' r₀ r₀' ∧ Settled r₀ := by
  cases ht : Erb.Tag.split? text with
  | none =>
    rw [Job.codeTag, ht] at hr
    simp at hr
  | some tag =>
    have hnames {code : List Char} (hcode : Text.words code = Text.words tag.code) :
        Renamed g g' code code :=
      .of_namesIn_nil (namesIn_code _ ht hcode htext) (namesIn_code _ ht hcode htext')
    have htag : Erb.Tag.Renamed g g' tag tag := ⟨rfl, hnames rfl, rfl⟩
    have hcode := hnames (words_laidCode j.style.checker tag.code)
    cases hk : closes (Ruby.classify j.style.checker tag.code) with
    | true =>
      rw [laidCode, if_pos hk] at hcode
      cases hb : r.nesting.topIsBlock with
      | false =>
        obtain ⟨r₁, he, -⟩ := j.codeTag_unmatched o ht hk hb
        rw [he] at hr
        simp at hr
      | true =>
        cases h with
        | fresh h _ => simp [h.nesting, Nesting.topIsBlock] at hb
        | tracks h =>
          obtain ⟨r₁, he, hn, hs⟩ := j.codeTag_close o ht hk hb
          obtain ⟨r₁', he', hn', hs'⟩ := j'.codeTag_close o ht (hstyle ▸ hk) (h.topIsBlock ▸ hb)
          obtain rfl := Except.ok.inj (he.symm.trans hr)
          refine ⟨_, Job.codeTag_offset he', ?_⟩
          rw [hstyle]
          exact (Ready.tracks (h.popped hs hs' hn hn')).afterCode hlen hstyle htag _ hcode
    | false =>
      rw [laidCode, if_neg (by simp [hk])] at hcode
      have hgiven (i : Job) (hi : i.style = j.style) (r : Run) :
          (i.style.reformatter (codeGiven i.style.checker tag.code) (i.codeWidth r)).result =
            .ok (codeGiven j.style.checker tag.code) := by
        rw [hi, hp]
        rfl
      obtain ⟨r₁, he, hn, hs⟩ := j.codeTag_open o ht hk (hgiven j rfl r)
      obtain ⟨r₁', he', hn', hs'⟩ := j'.codeTag_open o ht (hstyle ▸ hk) (hgiven j' hstyle r')
      obtain rfl := Except.ok.inj (he.symm.trans hr)
      refine ⟨_, Job.codeTag_offset he', ?_⟩
      rw [hstyle]
      exact (h.congr hs hs' hn hn').afterCode hlen hstyle htag _ hcode

end Units

end ErbLayout.Template
