import ErbLayout.Proofs.Layout.Margin
import ErbLayout.Proofs.Template.Placed
/-!
The output for the cells of a template, as stretches: what is written for each cell, the white space
before it, how deep the items stand, and how far their lines reach. Text is nowhere so deep that it
runs over the full line.
-/

namespace ErbLayout.Template

open Layout Markup Placeholder
open Job (closes codeGiven)
open Text (Word firstLine spread allBlank)

/-- The depth behind an item that stands at a depth. -/
def Item.depthAfter (checker : Ruby.Checker) (depth : Nat) : Item → Nat
  | .word _ | .body _ | .token (.comment _) => depth
  | .token (.opening _ name _ closing) =>
    if Element.isSelfClosing name closing then depth else depth + 1
  | .token (.close ..) | .rawClose .. => depth - 1
  | .code _ text =>
    match (Erb.Tag.split? text).map fun tag => Ruby.classify checker tag.code with
    | some .blockOpen => depth + 1
    | some .close => depth - 1
    | _ => depth

/-- The depth behind the cells of a template. -/
def depthOf (checker : Ruby.Checker) (cells : List Cell) : Nat :=
  cells.foldl (fun depth c => c.item.depthAfter checker depth) 0

/-- More columns are left than the readability floor wherever a word is to be written. -/
def Roomy (style : Style) (cells : List Cell) : Prop :=
  ∀ pre c post, cells = pre ++ c :: post → c.item.isWord = true →
    readabilityFloor < style.width - 2 * depthOf style.checker pre

theorem roomy_iff {style : Style} {cells : List Cell} : Roomy style cells ↔
    ∀ i : Fin cells.length, cells[i].item.isWord = true →
      readabilityFloor < style.width - 2 * depthOf style.checker (cells.take i) := by
  constructor
  · intro h i hw
    refine h _ cells[i] (cells.drop (i + 1)) ?_ hw
    rw [Fin.getElem_fin, List.cons_getElem_drop_succ, List.take_append_drop]
  · rintro h pre c post rfl hw
    have hat := h ⟨pre.length, by simp⟩
    simp only [Fin.getElem_fin, List.getElem_append_right (le_refl pre.length), Nat.sub_self,
      List.getElem_cons_zero, List.take_left] at hat
    exact hat hw

instance (style : Style) (cells : List Cell) : Decidable (Roomy style cells) :=
  decidable_of_iff _ roomy_iff.symm

theorem depthOf_concat (checker : Ruby.Checker) (cells : List Cell) (c : Cell) :
    depthOf checker (cells ++ [c]) = c.item.depthAfter checker (depthOf checker cells) := by
  rw [depthOf, List.foldl_append]
  rfl

theorem depthOf_append_ofText (checker : Ruby.Checker) (cells : List Cell) (s : List Char) :
    depthOf checker (cells ++ Cell.ofText s) = depthOf checker cells := by
  rw [depthOf, List.foldl_append, Cell.ofText]
  induction Text.wordItems s with
  | nil => rfl
  | cons p ps ih => exact ih

theorem depthAfter_code {checker : Ruby.Checker} {depth : Nat} {n : Name} {text : List Char}
    {tag : Erb.Tag} (ht : Erb.Tag.split? text = some tag) :
    (Item.code n text).depthAfter checker depth =
      match Ruby.classify checker tag.code with
      | .blockOpen => depth + 1
      | .close => depth - 1
      | _ => depth := by
  rw [Item.depthAfter, ht, Option.map_some]
  cases Ruby.classify checker tag.code <;> rfl

theorem effectiveWidth_of_roomy {width : Int} {depth : Nat}
    (h : readabilityFloor < width - 2 * depth) :
    (2 * depth : Nat) + effectiveWidth width depth = width := by
  unfold effectiveWidth
  rw [if_neg (by omega)]
  push_cast
  omega

variable {j : Job}

/-- The code of a fragment as it is laid out, in the run it is written in: a fragment that ends a
block is written outside of it. -/
theorem Job.codeTag_eq_ok (hp : j.style.reformatter = Ruby.passThrough) {r r' : Run}
    {n : Name} {text : List Char} {offset : Nat} (h : j.codeTag r text offset = .ok r') :
    ∃ tag r₁, Erb.Tag.split? text = some tag ∧ r.SamePlace r₁ ∧
      r' = j.afterCode r₁ tag (Ruby.classify j.style.checker tag.code)
        (laidCode j.style.checker tag.code) ∧
      r'.nesting.depth = (Item.code n text).depthAfter j.style.checker r.nesting.depth := by
  have hafter (r : Run) (tag : Erb.Tag) (kind : Ruby.Kind) (code : List Char) :
      (j.afterCode r tag kind code).nesting.depth = r.nesting.depth +
        if kind = .elseLike ∨ kind = .blockOpen then 1 else 0 := by
    cases kind <;> simp [afterCode, Nesting.depth_cons]
  obtain ⟨tag, r₁, code, ht, hs, rfl, hcase⟩ := codeTag_cases h
  rw [depthAfter_code ht]
  rcases hcase with ⟨hk, hb, hn, rfl⟩ | ⟨hk, hn, result, hresult, rfl⟩
  · refine ⟨tag, r₁, ht, hs, ?_, ?_⟩
    · rw [laidCode, if_pos hk]
    · obtain ⟨f, fs, hopen⟩ : ∃ f fs, r.nesting = f :: fs := by
        cases hnest : r.nesting with
        | nil => simp [hnest, Nesting.topIsBlock] at hb
        | cons f fs => exact ⟨f, fs, rfl⟩
      -- What continues a block closes it and opens another, so the depth is what it was.
      rw [hafter, hn, hopen, List.tail_cons, Nesting.depth_cons]
      revert hk
      cases Ruby.classify j.style.checker tag.code <;> simp [closes]
  · have hgiven : result = codeGiven j.style.checker tag.code := by
      rw [hp] at hresult
      exact (Except.ok.inj hresult).symm
    refine ⟨tag, r₁, ht, hs, ?_, ?_⟩
    · rw [laidCode, if_neg (by simp [hk]), hgiven]
    · rw [hafter, hn]
      revert hk
      cases Ruby.classify j.style.checker tag.code <;> simp [closes]

/-- The cells of a template all of whose text has room. -/
structure Fair (j : Job) (cells : List Cell) : Prop where
  proper : j.table.Proper
  sound : ∀ c ∈ cells, c.item.Sound j.table
  joins : cells.IsChain Cell.Joins
  roomy : Roomy j.style cells

theorem Fair.of_append {cells cells' : List Cell} (h : Fair j (cells ++ cells')) :
    Fair j cells where
  proper := h.proper
  sound c hc := h.sound c (List.mem_append_left cells' hc)
  joins := (List.isChain_append.1 h.joins).1
  roomy pre c post he := h.roomy pre c (post ++ cells') (by simp [he])

theorem Fair.textWidth {cells : List Cell} {s w : List Char} {ws : List (List Char)}
    (h : Fair j (cells ++ Cell.ofText s)) (hs : Text.words s = w :: ws) {depth : Nat}
    (hd : depth = depthOf j.style.checker cells) :
    (2 * depth : Nat) + effectiveWidth j.width depth = j.width := by
  subst hd
  refine effectiveWidth_of_roomy
    (h.roomy cells ⟨Text.startsBlank s, .word w⟩ (wordCells ws) ?_ rfl)
  rw [ofText_of_words hs]

theorem linear_len (j : Job) : Linear j.len where
  nil := by
    change (j.table.restore []).length = 0
    rw [Table.restore_nil]
    rfl
  space a b := by
    change (j.table.restore (a ++ ' ' :: b)).length =
      (j.table.restore a).length + 1 + (j.table.restore b).length
    rw [Table.restore_append_cons a (by decide) b]
    simp
    omega

theorem len_of_allBlank {g : List Char} (h : allBlank g = true) : j.len g = g.length :=
  congrArg List.length (Table.restore_allBlank h)

theorem length_spread_restored {ls : List Leaf} (hblank : ∀ l ∈ ls, allBlank l.gap = true)
    (hflat : ∀ l ∈ ls, l.Flat) (column : Nat) :
    column + (spread ((ls.map Leaf.stretch).map (restored j.table))).length =
      reach j.len column ls := by
  induction ls generalizing column with
  | nil => rfl
  | cons l ls ih =>
    obtain ⟨hgap, htext⟩ := hflat l List.mem_cons_self
    have hrest := ih (fun m hm => hblank m (List.mem_cons_of_mem l hm))
      (fun m hm => hflat m (List.mem_cons_of_mem l hm)) (column + j.len l.gap + j.len l.text)
    change _ = reach j.len (advance j.len column l) ls
    rw [advance, if_neg htext, if_neg hgap, ← hrest, len_of_allBlank (hblank l List.mem_cons_self),
      List.map_cons, List.map_cons, Text.spread_cons, List.length_append, List.length_append]
    change _ = column + l.gap.length + (j.table.restore l.text).length + _
    simp only [restored, Leaf.stretch]
    omega

theorem adds_of_seams {ls : List Leaf} (ht : j.table.Proper)
    (hblank : ∀ l ∈ ls, allBlank l.gap = true)
    (hseams : (ls.map Leaf.stretch).IsChain (Seamed j.table)) : Adds j.len ls := by
  rintro pre l post rfl - hflat
  have hpost : ∀ m ∈ post, allBlank m.gap = true := fun m hm => hblank m (by simp [hm])
  have hchain : (([], l.text) :: post.map Leaf.stretch).IsChain (Seamed j.table) := by
    rw [List.map_append, List.map_cons] at hseams
    have hsuffix := (List.isChain_append.1 hseams).2.1
    rw [List.isChain_cons] at hsuffix ⊢
    exact hsuffix
  have hrestore := restore_spread ht (by simpa [Leaf.stretch, allBlank] using hpost)
    (show allBlank [] = true from rfl) hchain
  rw [List.append_nil, List.append_nil, Text.spread_cons, List.nil_append] at hrestore
  rw [← length_spread_restored hpost hflat]
  change (j.table.restore _).length = (j.table.restore _).length + _
  rw [hrestore]
  simp [restored]

/-- The marks of the cells whose text is copied. -/
def marks (cells : List Cell) : List Bool := cells.map (·.item.isBody)

theorem marks_append (cells cells' : List Cell) :
    marks (cells ++ cells') = marks cells ++ marks cells' := List.map_append

theorem length_marks {cells : List Cell} {prev : Option Item} {ps : List (List Char × List Char)}
    (h : List.Forall₂ (Placed j) (follow prev cells) ps) : (marks cells).length = ps.length := by
  rw [marks, List.length_map, ← h.length_eq, ← follow_snd prev cells, List.length_map, follow_snd]

theorem leaves_of_words {cs : List Bool} {qs : List (List Char × List Char)}
    (h : ∀ c ∈ cs, c = false) (hlen : cs.length = qs.length) : leaves cs qs = qs.map laidLeaf := by
  induction cs generalizing qs with
  | nil =>
    rw [List.length_nil] at hlen
    rw [List.eq_nil_of_length_eq_zero hlen.symm]
    rfl
  | cons c cs ih =>
    cases qs with
    | nil => simp at hlen
    | cons q qs =>
      obtain rfl := h c List.mem_cons_self
      exact congrArg _ (ih (fun c hc => h c (List.mem_cons_of_mem _ hc)) (by simpa using hlen))

theorem mem_marks_ofText {s : List Char} : ∀ c ∈ marks (Cell.ofText s), c = false := by
  intro c hc
  obtain ⟨cell, hcell, rfl⟩ := List.mem_map.1 hc
  obtain ⟨w, -, hw⟩ := mem_ofText hcell
  rw [hw]
  rfl

/-- A buffer holds the stretches of the cells and blank lines behind them. If all text has room, its
lines stay inside the margin. -/
structure Output (j : Job) (b : Buffer) (cells : List Cell) (ps : List (List Char × List Char))
    (tail : List Char) : Prop where
  holds : Holds b ps tail
  laid : Laid j cells ps
  blank : allBlank tail = true
  fits : Fair j cells → Fits j.len j.width b (leaves (marks cells) ps) tail

namespace Output

variable {b : Buffer} {cells : List Cell} {ps : List (List Char × List Char)} {tail : List Char}

theorem empty (j : Job) : Output j {} [] [] [] :=
  ⟨holds_empty, .nil, rfl, fun _ => .empty j.len j.width⟩

theorem stretches (h : Output j b cells ps tail) :
    (leaves (marks cells) ps).map Leaf.stretch = ps := map_stretch_leaves (length_marks h.laid)

theorem leaves_append (h : Output j b cells ps tail) (cells' : List Cell)
    (qs : List (List Char × List Char)) : leaves (marks (cells ++ cells')) (ps ++ qs) =
      leaves (marks cells) ps ++ leaves (marks cells') qs := by
  rw [marks_append, Layout.leaves_append (length_marks h.laid)]

theorem adds (h : Output j b cells ps tail) (hfair : Fair j cells) :
    Adds j.len (leaves (marks cells) ps) := by
  refine adds_of_seams hfair.proper (fun l hl => ?_) ?_
  · exact blank_of_placed h.laid _ (h.stretches ▸ List.mem_map_of_mem hl)
  · rw [h.stretches]
    exact seams_of_placed hfair.sound hfair.joins h.laid

theorem makeRoom (h : Output j b cells ps []) (needed : Int) :
    ∃ ps', Output j (b.makeRoom j.len j.width needed) cells ps' [] ∧
      (Fair j cells → Crowded (leaves (marks cells) ps') →
        (reach j.len 0 (leaves (marks cells) ps') : Int) + needed ≤ j.width) := by
  obtain ⟨ps', hholds, hr⟩ := h.holds.makeRoom j.len j.width needed
  have hfits (hfair : Fair j cells) := (h.fits hfair).makeRoom (linear_len j)
    (length_marks h.laid) (h.adds hfair) hholds hr
  exact ⟨ps', ⟨hholds, h.laid.regapped hr.regapped, rfl, fun hfair => (hfits hfair).1⟩,
    fun hfair => (hfits hfair).2⟩

/-- What is written flush needs room for its first line, but a body is only copied. -/
theorem write (h : Output j b cells ps []) {c : Cell} {s : List Char}
    (hp : Placed j (lastItem none cells, c) ([], s))
    (hroom : c.item.isBody = true ∨ (Fair j cells → Crowded (leaves (marks cells) ps) →
      (reach j.len 0 (leaves (marks cells) ps) : Int) + j.len (firstLine s) ≤ j.width)) :
    Output j (b.write j.len s) (cells ++ [c]) (ps ++ [([], s)]) [] := by
  refine ⟨h.holds.write j.len _ (by simp), h.laid.append (.cons hp .nil), rfl, fun hfair => ?_⟩
  rw [h.leaves_append]
  exact (h.fits hfair.of_append).write (linear_len j).nil c.item.isBody s fun hcrowded _ =>
    hroom.imp_right fun hline => hline hfair.of_append hcrowded

theorem writeLine (h : Output j b cells ps tail) {c : Cell} {depth : Nat} {s : List Char}
    (hp : Placed j (lastItem none cells, c) (tail ++ '\n' :: Nesting.indentOf depth, s))
    (hs : Text.trim s = s) : Output j (b.writeLine j.len depth s) (cells ++ [c])
      (ps ++ [(tail ++ '\n' :: Nesting.indentOf depth, s)]) [] := by
  refine ⟨h.holds.writeLine j.len _ (by simp [indented, hs]), h.laid.append (.cons hp .nil), rfl,
    fun hfair => ?_⟩
  rw [h.leaves_append]
  exact (h.fits hfair.of_append).writeLine (linear_len j) c.item.isBody hs

theorem writeWrapped (h : Output j b cells ps []) {s w : List Char} {ws : List (List Char)}
    {groups : List (List (List Char))} {depth : Nat} {newLine : Bool}
    (hlaid : Laid j (cells ++ Cell.ofText s)
      (ps ++ (lineOf depth newLine (w :: ws) ++ groups.flatMap (lineOf depth true))))
    (hne : ∀ g ∈ groups, g ≠ []) (hw : ∀ g ∈ (w :: ws) :: groups, ∀ v ∈ g, Word v)
    (hfirst : Fair j (cells ++ Cell.ofText s) →
      Filled j.len j.width (if newLine then (2 * depth : Nat) else b.column) (w :: ws))
    (hfilled : Fair j (cells ++ Cell.ofText s) →
      ∀ g ∈ groups, Filled j.len j.width (2 * depth : Nat) g)
    (hroom : newLine = false → Fair j cells → Crowded (leaves (marks cells) ps) →
      (reach j.len 0 (leaves (marks cells) ps) : Int) + j.len w ≤ j.width) :
    Output j (b.writeWrapped j.len depth newLine (w :: ws) groups) (cells ++ Cell.ofText s)
      (ps ++ (lineOf depth newLine (w :: ws) ++ groups.flatMap (lineOf depth true))) [] := by
  have hlen : (marks (Cell.ofText s)).length =
      (lineOf depth newLine (w :: ws) ++ groups.flatMap (lineOf depth true)).length := by
    have hall := length_marks hlaid
    rw [marks_append, List.length_append, List.length_append, length_marks h.laid] at hall
    omega
  refine ⟨h.holds.writeWrapped j.len depth newLine (List.forall_mem_cons.2 ⟨by simp, hne⟩) hw,
    hlaid, rfl, fun hfair => ?_⟩
  have hfits := h.fits hfair.of_append
  rw [h.leaves_append, leaves_of_words mem_marks_ofText hlen]
  refine hfits.writeWrapped (linear_len j) (by rw [h.stretches]; exact h.holds) depth newLine hne hw
    ?_ (hfilled hfair) fun hn => hroom hn hfair.of_append
  rw [← hfits.column rfl]
  have hline := hfirst hfair
  cases newLine <;> exact hline

theorem blankLine (h : Output j b cells ps []) : Output j (b.blankLine j.len) cells ps ['\n'] :=
  ⟨h.holds.blankLine j.len, h.laid, rfl, fun hfair => (h.fits hfair).blankLine⟩

end Output

end ErbLayout.Template
