import ErbLayout.Proofs.Placeholder.Plain
import ErbLayout.Proofs.Template.Content
import ErbLayout.Proofs.Template.Drawn
/-!
Indentation is nesting: a unit that begins a line of the layout is indented by two spaces for each
element and each block that is open around it. An open tag that is wrapped has its attributes one
level deeper, their tokens two, and its closing bracket at its own depth.
-/

namespace ErbLayout.Layout

open Markup

/-- The lines of an attribute of a wrapped tag, with their depths. -/
def Row.lines (depth : Nat) : Row → List (Nat × List Char)
  | .whole t => [(depth, Text.trim t)]
  | .tokens name quote ts =>
    (depth, Text.trim (name ++ ['=', quote.mark])) ::
      (ts.map fun t => (depth + 1, Text.trim t)) ++ [(depth, [quote.mark])]

/-- Lines, each behind a line break and the indentation of its depth. -/
def hung (ls : List (Nat × List Char)) : List Char :=
  ls.flatMap fun l => '\n' :: Nesting.indentOf l.1 ++ l.2

theorem hung_cons (l : Nat × List Char) (ls : List (Nat × List Char)) :
    hung (l :: ls) = '\n' :: (Nesting.indentOf l.1 ++ (l.2 ++ hung ls)) := by
  rw [hung, List.flatMap_cons]
  simp [hung]

theorem hung_append (ls ls' : List (Nat × List Char)) : hung (ls ++ ls') = hung ls ++ hung ls' :=
  List.flatMap_append

theorem trim_mark (q : Quote) : Text.trim [q.mark] = [q.mark] := by
  cases q <;> decide

theorem Row.text_eq_hung (depth : Nat) (r : Row) : r.text depth = hung (r.lines depth) := by
  cases r with
  | whole t => simp [Row.text, Row.lines, hung, indented]
  | tokens name quote ts =>
    have htokens : ts.flatMap (indented (depth + 1)) =
        hung (ts.map fun t => (depth + 1, Text.trim t)) := by
      rw [hung, List.flatMap_map]
      rfl
    rw [Row.text, Row.lines, htokens, hung_append]
    simp [hung, indented, trim_mark]

theorem rows_eq_hung (depth : Nat) (rs : List Row) :
    rs.flatMap (Row.text depth) = hung (rs.flatMap (Row.lines depth)) := by
  induction rs with
  | nil => rfl
  | cons r rs ih => rw [List.flatMap_cons, List.flatMap_cons, hung_append, Row.text_eq_hung, ih]

theorem startsBlank_lines {depth : Nat} {r : Row} :
    ∀ l ∈ r.lines depth, Text.startsBlank l.2 = false := by
  intro l hl
  cases r with
  | whole t =>
    obtain rfl : l = (depth, Text.trim t) := by simpa [Row.lines] using hl
    exact Text.startsBlank_trim t
  | tokens name quote ts =>
    rw [Row.lines, List.mem_append, List.mem_cons, List.mem_map, List.mem_singleton] at hl
    rcases hl with (rfl | ⟨t, -, rfl⟩) | rfl
    · exact Text.startsBlank_trim _
    · exact Text.startsBlank_trim t
    · cases quote <;> rfl

end ErbLayout.Layout

namespace ErbLayout.Placeholder.Table

open Layout
open Text (Framed startsBlank endsBlank)

variable {t : Table}

theorem restore_hung (x : List Char) (ls : List (Nat × List Char)) :
    t.restore (x ++ hung ls) = t.restore x ++ hung (ls.map fun l => (l.1, t.restore l.2)) := by
  induction ls generalizing x with
  | nil => simp [hung]
  | cons l ls ih =>
    have hindent := restore_allBlank_append (t := t) (indentOf_allBlank l.1) (l.2 ++ hung ls)
    rw [hung_cons, restore_append_cons x (by decide), hindent, ih, List.map_cons, hung_cons]

/-- Names stand for tags and for words, which neither begin nor end with white space. -/
theorem startsBlank_restore (h : t.Proper) (hp : t.lookalikes.Plain) {s : List Char}
    (hs : startsBlank s = false) : startsBlank (t.restore s) = false := by
  have hcode : startsBlank (t.restoreCodeTags s) = false := by
    unfold restoreCodeTags
    induction s using Entries.restore_induction t.codeTags with
    | nil => rfl
    | char c s hx _ =>
      rw [hx]
      exact hs
    | name e he s hx _ =>
      obtain ⟨u, hu⟩ := h.framed e he
      rw [hx, hu]
      rfl
  exact hp.startsBlank_restore hcode

theorem restoreCodeTags_ne_nil (h : t.Proper) {s : List Char} (hs : s ≠ []) :
    t.restoreCodeTags s ≠ [] := by
  unfold restoreCodeTags
  induction s using Entries.restore_induction t.codeTags with
  | nil => exact absurd rfl hs
  | char c s hx _ => simp [hx]
  | name e he s hx _ =>
    obtain ⟨u, hu⟩ := h.framed e he
    simp [hx, hu]

theorem endsBlank_restore (h : t.Proper) (hp : t.lookalikes.Plain) {s : List Char}
    (hs : endsBlank s = false) : endsBlank (t.restore s) = false := by
  have hne {s : List Char} (hs : s ≠ []) : t.codeTags.restore s ≠ [] := restoreCodeTags_ne_nil h hs
  have hcode : endsBlank (t.restoreCodeTags s) = false := by
    unfold restoreCodeTags
    induction s using Entries.restore_induction t.codeTags with
    | nil => rfl
    | char c s hx ih =>
      rw [hx]
      by_cases hnil : s = []
      · subst hnil
        exact hs
      · rw [← List.singleton_append, Text.endsBlank_append (hne hnil)]
        refine ih ?_
        rwa [← List.singleton_append, Text.endsBlank_append hnil] at hs
    | name e he s hx ih =>
      rw [hx]
      by_cases hnil : s = []
      · obtain ⟨u, hu⟩ := h.framed e he
        rw [hnil, Entries.restore_nil, List.append_nil, hu, Text.endsBlank_append (by simp)]
        rfl
      · rw [Text.endsBlank_append (hne hnil)]
        refine ih ?_
        rwa [Text.endsBlank_append hnil] at hs
  exact hp.endsBlank_restore hcode

end ErbLayout.Placeholder.Table

namespace ErbLayout.Template

open Layout Markup Placeholder
open Text (spread allBlank startsBlank endsBlank lastLine)
open Job (inlineClosing openText)

/-- What stands before a unit on its line of the layout. -/
def Row.lead (pre : List Row) (row : Row) : List Char :=
  lastLine (spread (pre.map Row.after) ++ row.after.1)

/-- A wrapped open tag at a depth: its lines, without their indentation. -/
def wrappedLines (j : Job) (depth : Nat) (attrs : List Char) (closing : Closing) :
    List (Nat × List Char) :=
  (((Attribute.all (Text.normalize attrs)).map (Row.ofAttribute j.len j.width (depth + 1))).flatMap
    (Row.lines (depth + 1))).map (fun l => (l.1, j.table.restore l.2)) ++ [(depth, closing.text)]

/-- How an open tag stands at a depth: all on one line, or with its attributes, their tokens and its
closing bracket on lines of their own. -/
inductive Hangs (j : Job) (depth : Nat) (name attrs : List Char) (closing : Closing) :
    List Char → Prop
  | inline {x : List Char} : '\n' ∉ x →
    Hangs j depth name attrs closing (j.table.restore ('<' :: name ++ x ++ inlineClosing closing))
  | wrapped : (∀ l ∈ wrappedLines j depth attrs closing, startsBlank l.2 = false) →
    Hangs j depth name attrs closing
      ('<' :: j.table.restore name ++ hung (wrappedLines j depth attrs closing))

/-- An item and one that ends what it opens: over the items between them it stays open, and then it
is the innermost thing open again. Blocks that are continued between them are still that block. -/
structure Partners (checker : Ruby.Checker) (pre mid : List Item) (a b : Item) : Prop where
  same : ∃ o, a.opens checker = some o ∧ b.ends checker = some o
  inside : ∀ m, m <+: mid →
    a.beyond checker (openedBy checker [] pre) <:+ openedBy checker [] (pre ++ a :: m)
  back : openedBy checker [] (pre ++ a :: mid) = a.beyond checker (openedBy checker [] pre)

section Partners

variable {checker : Ruby.Checker}

/-- Both stand where what is between them is not open. -/
theorem Partners.around {pre mid : List Item} {a b : Item} (h : Partners checker pre mid a b) :
    b.around checker (openedBy checker [] (pre ++ a :: mid)) =
      a.around checker (openedBy checker [] pre) := by
  obtain ⟨o, ha, hb⟩ := h.same
  rw [h.back, Item.around, hb, Item.beyond, ha]
  rfl

/-- What is open was opened by an item, and has been open since. -/
theorem exists_opener {o : Opened} {rest : List Opened} (pre : List Item) (inner : List Opened)
    (h : openedBy checker [] pre = inner ++ o :: rest) :
    ∃ pre' a mid, pre = pre' ++ a :: mid ∧ a.opens checker = some o ∧
      a.beyond checker (openedBy checker [] pre') = o :: rest ∧
      ∀ m, m <+: mid → o :: rest <:+ openedBy checker [] (pre' ++ a :: m) := by
  induction pre using List.reverseRecOn generalizing inner with
  | nil => simp [openedBy] at h
  | append_singleton pre i ih =>
    have hlast : openedBy checker [] (pre ++ [i]) = i.beyond checker (openedBy checker [] pre) :=
      openedBy_append checker [] pre [i]
    rw [hlast, Item.beyond] at h
    -- It was open before `i` too, so it was opened before, and `i` is one of those between.
    have hbefore {inner' : List Opened}
        (ha : i.around checker (openedBy checker [] pre) = inner' ++ o :: rest) :
        ∃ pre' a mid, pre ++ [i] = pre' ++ a :: mid ∧ a.opens checker = some o ∧
          a.beyond checker (openedBy checker [] pre') = o :: rest ∧
          ∀ m, m <+: mid → o :: rest <:+ openedBy checker [] (pre' ++ a :: m) := by
      obtain ⟨outer, hopen⟩ : ∃ outer, openedBy checker [] pre = outer ++ o :: rest := by
        unfold Item.around at ha
        split at ha
        · cases hp : openedBy checker [] pre with
          | nil => simp [hp] at ha
          | cons x xs => exact ⟨x :: inner', by rw [hp] at ha; simpa using ha⟩
        · exact ⟨inner', ha⟩
      obtain ⟨pre', a, mid, rfl, hopens, hbeyond, hinside⟩ := ih outer hopen
      refine ⟨pre', a, mid ++ [i], by simp, hopens, hbeyond, ?_⟩
      intro m hm
      rcases List.prefix_concat_iff.1 hm with rfl | hm
      · rw [← List.cons_append, ← List.append_assoc, openedBy_append]
        refine List.suffix_append_of_suffix ?_
        exact ⟨inner', ha.symm⟩
      · exact hinside m hm
    cases ho : i.opens checker with
    | none =>
      rw [ho] at h
      exact hbefore h
    | some o' =>
      rw [ho, Option.toList_some, List.singleton_append] at h
      cases inner with
      | nil =>
        obtain ⟨rfl, ha⟩ := List.cons.inj h
        refine ⟨pre, i, [], by simp, ho, ?_, ?_⟩
        · rw [Item.beyond, ho, ha]
          rfl
        · intro m hm
          rw [List.prefix_nil.1 hm, hlast, Item.beyond, ho, ha]
          exact List.suffix_rfl
      | cons x inner => exact hbefore (List.cons.inj h).2

/-- What an item ends was opened by another. -/
theorem exists_partner {items pre post : List Item} {b : Item} {o : Opened}
    (h : Matched checker [] items) (he : items = pre ++ b :: post)
    (hb : b.ends checker = some o) :
    ∃ pre' a mid, pre = pre' ++ a :: mid ∧ Partners checker pre' mid a b := by
  rw [he, matched_append] at h
  have htop := h.2.1 o hb
  obtain ⟨rest, hrest⟩ := List.head?_eq_some_iff.1 htop
  obtain ⟨pre', a, mid, rfl, hopens, hbeyond, hinside⟩ := exists_opener pre [] hrest
  exact ⟨pre', a, mid, rfl, ⟨o, hopens, hb⟩, fun m hm => hbeyond ▸ hinside m hm,
    hrest.trans hbeyond.symm⟩

end Partners

section Hangs

variable {j : Job}

theorem newline_not_mem_joinWords_words (s : List Char) : '\n' ∉ Text.normalize s := by
  refine newline_not_mem_joinWords fun w hw => ?_
  exact Text.word_of_mem_words hw

/-- An open tag stands as the layout of its attributes has it. -/
theorem hangs_openText (ht : j.table.Proper) (hp : j.table.lookalikes.Plain) (depth column : Nat)
    (name attrs : List Char) (closing : Closing) :
    Hangs j depth name attrs closing (j.table.restore (openText depth name
      (AttributeLayout.of j.len j.width depth column name attrs (inlineClosing closing))
      closing)) := by
  unfold AttributeLayout.of
  split
  · exact .inline (x := []) (by simp)
  · dsimp only
    split
    · refine .inline (x := ' ' :: Text.normalize attrs) ?_
      simp [newline_not_mem_joinWords_words]
    · have hclosing : j.table.restore closing.text = closing.text := by
        have hfree := Table.restore_free_append (t := j.table) (free_closing closing) []
        rwa [List.append_nil, Table.restore_nil, List.append_nil] at hfree
      have htext : j.table.restore (openText depth name (.rows ((Attribute.all
          (Text.normalize attrs)).map (Row.ofAttribute j.len j.width (depth + 1)))) closing) =
          '<' :: j.table.restore name ++ hung (wrappedLines j depth attrs closing) := by
        generalize hrows : (Attribute.all (Text.normalize attrs)).map
          (Row.ofAttribute j.len j.width (depth + 1)) = rows
        have hopen : openText depth name (.rows rows) closing =
            '<' :: (name ++ hung (rows.flatMap (Row.lines (depth + 1)) ++
              [(depth, closing.text)])) := by
          rw [openText, AttributeLayout.text, rows_eq_hung, hung_append]
          simp [AttributeLayout.isBroken, indented, hung, Text.trim, Text.trimLeft, Text.trimRight]
        rw [hopen, Table.restore_cons (by decide), Table.restore_hung, wrappedLines, hrows,
          List.map_append, List.map_cons, List.map_nil, hclosing]
        rfl
      rw [htext]
      refine .wrapped ?_
      intro l hl
      rw [wrappedLines, List.mem_append, List.mem_map, List.mem_singleton] at hl
      rcases hl with ⟨l, hl, rfl⟩ | rfl
      · obtain ⟨r, -, hl⟩ := List.mem_flatMap.1 hl
        exact Table.startsBlank_restore ht hp (startsBlank_lines l hl)
      · cases closing <;> rfl

end Hangs

section Lead

variable {style : Style} {names : Names} {source t : List Char} {rows : List Row}

/-- Behind units no white space ends the layout. -/
theorem Drawn.solid_end (h : Drawn style names source t rows)
    (ht : (protect names source).table.Proper) {pre post : List Row} (he : rows = pre ++ post)
    (hne : pre ≠ []) :
    spread (pre.map Row.after) ≠ [] ∧ endsBlank (spread (pre.map Row.after)) = false := by
  have hhead := head_ofPieces (protect names source).table
    (Piece.cut_ordered (protect names source).working)
  induction pre using List.reverseRecOn generalizing post with
  | nil => exact absurd rfl hne
  | append_singleton pre row ih =>
    have hfits := h.fits pre row post (by simpa using he)
    have hafter : spread ((pre ++ [row]).map Row.after) =
        spread (pre.map Row.after) ++ row.after.1 ++ row.after.2 := by simp
    have hend : endsBlank row.after.2 = false := by
      cases hbody : row.item.isBody with
      | false => exact (hfits.tight hbody).2.finish
      | true =>
        obtain ⟨x, hset, hx⟩ := hfits.after
        have hsound := hfits.sound
        cases hi : row.item with
        | body b =>
          rw [hi] at hset hsound
          cases hset
          rw [hx]
          exact Table.endsBlank_restore ht (plain_lookalikes names source) hsound
        | word w | code n text | token tok | rawClose name closeTag => simp [hi, Item.isBody] at hbody
    by_cases hnil : row.after.2 = []
    · -- Only a body may be empty. It is not the first unit, and it stands flush.
      have hbody : row.item.isBody = true := by
        by_contra hbody
        exact (hfits.tight (by simpa using hbody)).2.ne_nil hnil
      have hpre : pre ≠ [] := by
        rintro rfl
        have hfirst := hhead row.cell (by
          change row.cell ∈ (Cell.ofProtected (protect names source)).head?
          rw [← h.cells, he]
          rfl)
        rw [show row.cell.item = row.item from rfl, hbody] at hfirst
        exact absurd hfirst (by simp)
      rw [hafter, hnil, hfits.flush hbody, List.append_nil, List.append_nil]
      exact ih (by simpa using he) hpre
    · rw [hafter]
      exact ⟨by simp [hnil], (Text.endsBlank_append hnil).trans hend⟩

theorem not_allBlank_lastLine {s g : List Char} (hne : s ≠ []) (hend : endsBlank s = false)
    (hg : '\n' ∉ g) : allBlank (lastLine (s ++ g)) = false := by
  rcases List.eq_nil_or_concat s with rfl | ⟨u, c, rfl⟩
  · exact absurd rfl hne
  rw [List.concat_eq_append, Text.endsBlank_append (by simp)] at hend
  have hc : isBlank c = false := hend
  have hbreak : '\n' ∉ [c] := by
    rw [List.mem_singleton]
    rintro rfl
    exact absurd hc (by decide)
  rw [List.concat_eq_append, Text.lastLine_append_of_not_mem _ hg,
    Text.lastLine_append_of_not_mem _ hbreak, Text.allBlank_append, Text.allBlank_append]
  simp [allBlank, hc]

/-- A unit that begins a line is indented to the depth of what is open around it. -/
theorem Drawn.lead (h : Drawn style names source t rows)
    (ht : (protect names source).table.Proper) {pre post : List Row} {row : Row}
    (he : rows = pre ++ row :: post) (hlead : allBlank (row.lead pre) = true) :
    row.lead pre = Nesting.indentOf (row.around style.checker pre).length := by
  have hfits := h.fits pre row post he
  have hline {g : List Char} (depth : Nat) :
      lastLine (g ++ '\n' :: Nesting.indentOf depth) = Nesting.indentOf depth := by
    refine Text.lastLine_append_cons g ?_
    simp [Nesting.indentOf]
  have hflush {g : List Char} (hg : '\n' ∉ g)
      (hlead : allBlank (lastLine (spread (pre.map Row.after) ++ g)) = true) : pre = [] := by
    by_contra hpre
    obtain ⟨hne, hend⟩ := h.solid_end ht he hpre
    rw [not_allBlank_lastLine hne hend hg] at hlead
    exact absurd hlead (by simp)
  have hmargin := hfits.margin
  unfold Row.lead at hlead ⊢
  generalize hgap : row.after.1 = g at hlead hmargin ⊢
  cases hmargin with
  | none =>
    obtain rfl := hflush (by simp) hlead
    simp [Row.around, Item.around, openedBy, Nesting.indentOf, lastLine]
  | space =>
    obtain rfl := hflush (by simp) hlead
    rw [h.start row (by simp [he])] at hgap
    simp at hgap
  | line hblank => rw [← List.append_assoc, hline]

end Lead

/-- In the layout of a template a unit that begins a line is indented by two spaces for each element
and each block that is open around it, so an item and one that ends what it opened are indented
alike where both begin a line; and every unit that ends something has such a partner. The lines of a
wrapped open tag are indented by the depths that they are given. -/
theorem format_indents (style : Style) (names : Names) (source t : List Char)
    (ha : names.Ample (3 * source.length)) (h : format style names source = .ok t) :
    let j : Job := ⟨style, protect names source⟩
    ∃ rows, Drawn style names source t rows ∧
      (∀ pre row post, rows = pre ++ row :: post → allBlank (row.lead pre) = true →
        row.lead pre = List.replicate (2 * (row.around style.checker pre).length) ' ') ∧
      (∀ pre a mid b post, rows = pre ++ a :: (mid ++ b :: post) →
        Partners style.checker (pre.map Row.item) (mid.map Row.item) a.item b.item →
        allBlank (a.lead pre) = true → allBlank (b.lead (pre ++ a :: mid)) = true →
        b.lead (pre ++ a :: mid) = a.lead pre) ∧
      (∀ pre b post, rows = pre ++ b :: post → b.item.ends style.checker ≠ none →
        ∃ pre' a mid, pre = pre' ++ a :: mid ∧
          Partners style.checker (pre'.map Row.item) (mid.map Row.item) a.item b.item) ∧
      (∀ pre row post text name attrs closing, rows = pre ++ row :: post →
        row.item = .token (.opening text name attrs closing) →
        Hangs j (row.around style.checker pre).length name attrs closing row.after.2) := by
  intro j
  obtain ⟨ws, ts, hm⟩ := exists_marking ha
  have ht : j.table.Proper := hm.proper
  obtain ⟨rows, hrows⟩ := exists_drawn ha h
  refine ⟨rows, hrows, ?_, ?_, ?_, ?_⟩
  · intro pre row post he hlead
    exact hrows.lead hm.proper he hlead
  · intro pre a mid b post he hpartners ha hb
    have he' : rows = (pre ++ a :: mid) ++ b :: post := by simpa using he
    have hb' := hrows.lead hm.proper he' hb
    rw [hb', hrows.lead hm.proper he ha, Row.around, Row.around, List.map_append, List.map_cons,
      hpartners.around]
  · intro pre b post he hends
    obtain ⟨o, ho⟩ := Option.ne_none_iff_exists'.1 hends
    obtain ⟨is, i, is', hpre, hpartners⟩ := exists_partner hrows.matched
      (show rows.map Row.item = pre.map Row.item ++ b.item :: post.map Row.item by simp [he]) ho
    obtain ⟨pre', rest, rfl, rfl, hrest⟩ := List.map_eq_append_iff.1 hpre
    obtain ⟨a, mid, rfl, rfl, rfl⟩ := List.map_eq_cons_iff.1 hrest
    exact ⟨pre', a, mid, rfl, hpartners⟩
  · intro pre row post text name attrs closing he hitem
    obtain ⟨x, hset, hx⟩ := (hrows.fits pre row post he).after
    rw [hitem] at hset
    cases hset with
    | opening _ _ _ _ column =>
      rw [hx]
      exact hangs_openText ht (plain_lookalikes names source) _ column name attrs closing

theorem format_indents_else :
    let style : Style := { width := 16, checker := fun code => code != "if a".toList }
    let source := "<div><% if a %><p class=\"b c\" id=d>e</p><% else %>f<% end %></div>".toList
    let t := "<div>\n  <% if a %>\n    <p\n      class=\"\n        b\n        c\n".toList ++
      "      \"\n      id=d\n    >e</p>\n  <% else %>\n    f\n  <% end %>\n</div>\n".toList
    format style (Names.counting 256) source = .ok t ∧
      ∃ rows, Drawn style (Names.counting 256) source t rows ∧
        ∀ pre row post, rows = pre ++ row :: post → allBlank (row.lead pre) = true →
          row.lead pre = List.replicate (2 * (row.around style.checker pre).length) ' ' := by
  intro style source t
  have hf : format style (Names.counting 256) source = .ok t := by decide +kernel
  have ha : (Names.counting 256).Ample (3 * source.length) :=
    Names.ample_counting (by decide) (by decide)
  obtain ⟨rows, hrows, hlead, -⟩ := format_indents style (Names.counting 256) source t ha hf
  exact ⟨hf, rows, hrows, hlead⟩

end ErbLayout.Template
