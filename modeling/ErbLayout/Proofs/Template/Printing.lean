import ErbLayout.Proofs.Template.Standing
/-!
Runs print the items of a template one after another, each at the depth of what is open around it,
whatever reformats their code. Room is made before a word at the depth of that word.
-/

namespace ErbLayout.Template

open Layout Markup Placeholder
open Text (Found Framed Word spread allBlank endsBlank)
open Job (closes codeFrom codeGiven inlineClosing openText)

variable {j : Job}

/-- What is open behind the cells of a template. -/
def stackOf (j : Job) (cells : List Cell) : List Opened :=
  openedBy j.style.checker [] (cells.map Cell.item)

/-- The cells of a template, each with what is open around it. -/
def placesOf (j : Job) (cells : List Cell) : List (List Opened × Cell) :=
  surround j.style.checker [] cells

theorem stackOf_concat (cells : List Cell) (c : Cell) :
    stackOf j (cells ++ [c]) = c.item.beyond j.style.checker (stackOf j cells) := by
  rw [stackOf, List.map_append, openedBy_append]
  rfl

theorem placesOf_concat (cells : List Cell) (c : Cell) :
    placesOf j (cells ++ [c]) =
      placesOf j cells ++ [(c.item.around j.style.checker (stackOf j cells), c)] := by
  rw [placesOf, surround_append]
  rfl

theorem stackOf_append_ofText (cells : List Cell) (s : List Char) :
    stackOf j (cells ++ Cell.ofText s) = stackOf j cells := by
  rw [stackOf, List.map_append, openedBy_append]
  exact (surround_ofText _ _ s).2.1

theorem placesOf_append_ofText (cells : List Cell) (s : List Char) :
    placesOf j (cells ++ Cell.ofText s) =
      placesOf j cells ++ (Cell.ofText s).map (stackOf j cells, ·) := by
  rw [placesOf, surround_append]
  exact congrArg _ (surround_ofText _ _ s).1

/-- A buffer holds the stretches of the cells, and blank lines behind them. The space that may
become a line break keeps the depth of the cell behind it. -/
structure Print (j : Job) (b : Buffer) (cells : List Cell) (ps : List (List Char × List Char))
    (tail : List Char) : Prop where
  holds : Holds b ps tail
  lies : List.Forall₂ (Lies j) (placesOf j cells) ps
  parted : List.Forall₂ (Parted j.style.checker) (follow none cells) ps
  plain : Plain tail
  breakable : ∀ k, b.breakable = some k → ∃ pre w post sc, ps = pre ++ ([' '], w) :: post ∧
    k.offset = (spread pre).length ∧ (placesOf j cells)[pre.length]? = some sc ∧
    sc.1.length = k.depth

/-- The white space before one stretch becomes a line break of its depth. -/
theorem lies_broken {scs : List (List Opened × Cell)} {pre post : List (List Char × List Char)}
    {w : List Char} (h : List.Forall₂ (Lies j) scs (pre ++ ([' '], w) :: post))
    {sc : List Opened × Cell} (hsc : scs[pre.length]? = some sc) :
    List.Forall₂ (Lies j) scs
      (pre ++ ('\n' :: Nesting.indentOf sc.1.length, w) :: post) := by
  induction pre generalizing scs with
  | nil =>
    cases h with
    | cons hp hps =>
      obtain rfl := Option.some.inj hsc
      exact .cons ⟨⟨hp.typeset, .line (g := []) rfl, plain_line plain_nil _,
        fun hb => absurd (hp.flush hb) (by simp)⟩, fun _ => by simp⟩ hps
  | cons p pre ih =>
    cases h with
    | cons hp hps => exact .cons hp (ih hps hsc)

theorem parted_broken {checker : Ruby.Checker} {pcs : List (Option Item × Cell)}
    {pre post : List (List Char × List Char)} {w : List Char} (depth : Nat)
    (h : List.Forall₂ (Parted checker) pcs (pre ++ ([' '], w) :: post)) :
    List.Forall₂ (Parted checker) pcs (pre ++ ('\n' :: Nesting.indentOf depth, w) :: post) := by
  induction pre generalizing pcs with
  | nil =>
    cases h with
    | cons hp hps =>
      refine .cons ⟨fun prev hprev => ?_, by simp⟩ hps
      rw [← hp.apart prev hprev]
      simp
  | cons p pre ih =>
    cases h with
    | cons hp hps => exact .cons hp (ih hps)

namespace Print

variable {b : Buffer} {cells : List Cell} {ps : List (List Char × List Char)} {tail : List Char}

theorem blank (h : Print j b cells ps tail) : allBlank tail = true := h.plain.blank

theorem empty (j : Job) : Print j {} [] [] [] :=
  ⟨holds_empty, .nil, .nil, plain_nil, fun k hk => by simp at hk⟩

/-- A marked space of the first cells is one of all cells. -/
theorem breakable_append (h : Print j b cells ps tail) {cells' : List Cell}
    (hcells : ∃ scs, placesOf j (cells ++ cells') = placesOf j cells ++ scs)
    (qs : List (List Char × List Char)) {k : Break} (hk : b.breakable = some k) :
    ∃ pre w post sc, ps ++ qs = pre ++ ([' '], w) :: post ∧ k.offset = (spread pre).length ∧
      (placesOf j (cells ++ cells'))[pre.length]? = some sc ∧ sc.1.length = k.depth := by
  obtain ⟨pre, w, post, sc, rfl, hoffset, hsc, hdepth⟩ := h.breakable k hk
  obtain ⟨scs, hscs⟩ := hcells
  refine ⟨pre, w, post ++ qs, sc, by simp, hoffset, ?_, hdepth⟩
  rw [hscs, List.getElem?_append_left (List.getElem?_eq_some_iff.1 hsc).1, hsc]

theorem lies_concat (h : Print j b cells ps tail) {c : Cell} {p : List Char × List Char}
    (hp : Lies j (c.item.around j.style.checker (stackOf j cells), c) p) :
    List.Forall₂ (Lies j) (placesOf j (cells ++ [c])) (ps ++ [p]) := by
  rw [placesOf_concat]
  exact List.rel_append h.lies (.cons hp .nil)

theorem parted_concat (h : Print j b cells ps tail) {c : Cell} {p : List Char × List Char}
    (hp : Parted j.style.checker (lastItem none cells, c) p) :
    List.Forall₂ (Parted j.style.checker) (follow none (cells ++ [c])) (ps ++ [p]) := by
  rw [follow_append]
  exact List.rel_append h.parted (.cons hp .nil)

theorem write (h : Print j b cells ps []) {c : Cell} {s : List Char}
    (hp : Lies j (c.item.around j.style.checker (stackOf j cells), c) ([], s))
    (hpart : Parted j.style.checker (lastItem none cells, c) ([], s)) :
    Print j (b.write j.len s) (cells ++ [c]) (ps ++ [([], s)]) [] :=
  ⟨h.holds.write j.len _ (by simp), h.lies_concat hp, h.parted_concat hpart, plain_nil, fun _ hk =>
    h.breakable_append ⟨_, placesOf_concat cells c⟩ _ (Buffer.breakable_write j.len hk)⟩

theorem writeLine (h : Print j b cells ps tail) {c : Cell} {depth : Nat} {s : List Char}
    (hp : Lies j (c.item.around j.style.checker (stackOf j cells), c)
      (tail ++ '\n' :: Nesting.indentOf depth, s))
    (hpart : Parted j.style.checker (lastItem none cells, c)
      (tail ++ '\n' :: Nesting.indentOf depth, s)) (hs : Text.trim s = s) :
    Print j (b.writeLine j.len depth s) (cells ++ [c])
      (ps ++ [(tail ++ '\n' :: Nesting.indentOf depth, s)]) [] :=
  ⟨h.holds.writeLine j.len _ (by simp [indented, hs]), h.lies_concat hp,
    h.parted_concat hpart, plain_nil, fun _ hk =>
    h.breakable_append ⟨_, placesOf_concat cells c⟩ _ (Buffer.breakable_write j.len hk)⟩

theorem blankLine (h : Print j b cells ps []) : Print j (b.blankLine j.len) cells ps ['\n'] :=
  ⟨h.holds.blankLine j.len, h.lies, h.parted, by simp [Plain], fun k hk =>
    h.breakable k (Buffer.breakable_write j.len hk)⟩

theorem makeRoom (h : Print j b cells ps []) (needed : Int) :
    ∃ ps', Print j (b.makeRoom j.len j.width needed) cells ps' [] := by
  obtain ⟨ps', hholds, hroomed⟩ := h.holds.makeRoom j.len j.width needed
  refine ⟨ps', hholds, ?_, ?_, plain_nil, ?_⟩
  · cases hroomed with
    | kept => exact h.lies
    | broken hk hoffset he hnone hcolumn =>
      obtain ⟨pre, w, post, sc, he', hoffset', hsc, hdepth⟩ := h.breakable _ hk
      have hlen := Int.ofNat_inj.1 (hoffset.symm.trans hoffset')
      obtain rfl := eq_of_length_spread (he.symm.trans he') hlen
      rw [← hdepth]
      exact lies_broken (he ▸ h.lies) hsc
  · cases hroomed with
    | kept => exact h.parted
    | broken hk hoffset he hnone hcolumn => exact parted_broken _ (he ▸ h.parted)
  · intro k hk
    cases hroomed with
    | kept hb hfits => exact h.breakable k (hb ▸ hk)
    | broken _ _ _ hnone _ =>
      rw [hnone] at hk
      simp at hk

end Print

theorem margin_lineOf {depth : Nat} {newLine : Bool} {g : List (List Char)} :
    ∀ p ∈ lineOf depth newLine g, Margin depth p.1 ∧ Plain p.1 := by
  intro p hp
  cases g with
  | nil => simp [lineOf] at hp
  | cons w ws =>
    rw [lineOf, List.mem_cons, List.mem_map] at hp
    rcases hp with rfl | ⟨v, -, rfl⟩
    · cases newLine with
      | true => exact ⟨.line (g := []) rfl, plain_line plain_nil depth⟩
      | false => exact ⟨.none, plain_nil⟩
    · exact ⟨.space, plain_space⟩

theorem lies_words {stack : List Opened} {ws : List (List Char)}
    {qs : List (List Char × List Char)} (h : List.Forall₂ Behind ws qs)
    (hm : ∀ q ∈ qs, Margin stack.length q.1 ∧ Plain q.1) :
    List.Forall₂ (Lies j) ((wordCells ws).map (stack, ·)) qs := by
  induction h with
  | nil => exact .nil
  | cons hq _ ih =>
    obtain ⟨⟨hm, hplain⟩, hms⟩ := List.forall_mem_cons.1 hm
    refine .cons ⟨⟨hq.text ▸ .word _, hm, hplain, ?_⟩, fun _ => hq.apart⟩ (ih hms)
    simp [Item.isBody]

theorem parted_words {checker : Ruby.Checker} {prev : Option Item} {ws : List (List Char)}
    {qs : List (List Char × List Char)} (hprev : ∃ w, prev = some (.word w))
    (h : List.Forall₂ Behind ws qs) :
    List.Forall₂ (Parted checker) (follow prev (wordCells ws)) qs := by
  induction h generalizing prev with
  | nil => exact .nil
  | cons hq _ ih =>
    obtain ⟨w, rfl⟩ := hprev
    exact .cons ⟨fun u _ => ⟨fun _ => rfl, fun _ => hq.apart⟩, fun _ => ⟨⟨_, rfl, rfl⟩, rfl⟩⟩
      (ih ⟨_, rfl⟩)

/-- Text that is no white space is wrapped at the depth of what is open around it. -/
theorem Print.text {b : Buffer} {cells : List Cell} {ps : List (List Char × List Char)}
    (h : Print j b cells ps []) {s : List Char} (hs : allBlank s = false) {depth : Nat}
    (hd : depth = (stackOf j cells).length) {newLine : Bool}
    (hn : Text.startsBlank s = true → newLine = true)
    (hlast : ∀ i ∈ lastItem none cells,
      newLine = (Text.startsBlank s || i.isControl j.style.checker)) :
    ∃ g groups ps', wrap j.len s ((2 * depth : Nat) + effectiveWidth j.width depth)
        (if newLine then (2 * depth : Nat) else (roomFor j b s newLine).column)
        (2 * depth : Nat) = (g :: groups).map Text.joinWords ∧
      Print j ((roomFor j b s newLine).writeWrapped j.len depth newLine g groups)
        (cells ++ Cell.ofText s) ps' [] := by
  subst hd
  generalize hdepth : (stackOf j cells).length = depth
  obtain ⟨groups, hgroups, hflat, hnonempty, -⟩ := wrap_groups j.len s
    ((2 * depth : Nat) + effectiveWidth j.width depth)
    (if newLine then (2 * depth : Nat) else (roomFor j b s newLine).column) (2 * depth : Nat)
  rcases groups with _ | ⟨_ | ⟨w, ws⟩, groups⟩
  · rw [List.flatten_nil] at hflat
    rw [Text.words_eq_nil_iff.1 hflat.symm] at hs
    exact absurd hs (by simp)
  · exact absurd rfl (hnonempty [] List.mem_cons_self)
  have hws : Text.words s = w :: (ws ++ groups.flatten) := hflat.symm
  have hwords : ∀ g ∈ (w :: ws) :: groups, ∀ v ∈ g, Word v := fun g hg v hv =>
    Text.word_of_mem_words (hflat ▸ List.mem_flatten.2 ⟨g, hg, hv⟩)
  obtain ⟨ps', hprint⟩ : ∃ ps', Print j (roomFor j b s newLine) cells ps' [] := by
    cases newLine with
    | true => exact ⟨ps, h⟩
    | false => exact h.makeRoom _
  obtain ⟨_, _, gap, qs, hsplit, hlines, hgap, hapart, hqs⟩ :=
    exists_wrapped depth newLine (List.cons_ne_nil w ws) groups
  obtain ⟨rfl, rfl⟩ := List.cons.inj (hws ▸ hflat ▸ hsplit)
  have hmargins : ∀ p ∈ lineOf depth newLine (w :: ws) ++ groups.flatMap (lineOf depth true),
      Margin depth p.1 ∧ Plain p.1 := by
    intro p hp
    rcases List.mem_append.1 hp with hp | hp
    · exact margin_lineOf p hp
    · obtain ⟨g, -, hp⟩ := List.mem_flatMap.1 hp
      exact margin_lineOf p hp
  have hlies : List.Forall₂ (Lies j) (placesOf j (cells ++ Cell.ofText s))
      (ps' ++ (lineOf depth newLine (w :: ws) ++ groups.flatMap (lineOf depth true))) := by
    rw [placesOf_append_ofText, ofText_of_words hws, List.map_cons]
    rw [hlines] at hmargins ⊢
    obtain ⟨⟨hfirst, hplain⟩, hrest⟩ := List.forall_mem_cons.1 hmargins
    refine List.rel_append hprint.lies (.cons ⟨⟨.word w, hdepth ▸ hfirst, hplain, ?_⟩, fun hb => ?_⟩
      (lies_words hqs (hdepth ▸ hrest)))
    · simp [Item.isBody]
    · exact hapart.2 (hn hb)
  have hparted : List.Forall₂ (Parted j.style.checker) (follow none (cells ++ Cell.ofText s))
      (ps' ++ (lineOf depth newLine (w :: ws) ++ groups.flatMap (lineOf depth true))) := by
    have hspace : gap ≠ [' '] := by
      obtain ⟨rfl, -⟩ := Prod.mk.inj (List.cons.inj hlines).1
      cases newLine <;> simp
    rw [hlines, ofText_of_words hws, follow_append]
    refine List.rel_append hprint.parted (.cons ⟨fun prev hprev => ?_, fun hgap => ?_⟩
      (parted_words ⟨w, rfl⟩ hqs))
    · rw [hapart, hlast prev hprev]
      simp [separated, Item.isControl, Item.isStructural]
    · exact absurd hgap hspace
  have hne : ∀ g ∈ (w :: ws) :: groups, g ≠ [] := hnonempty
  have hholds := hprint.holds.writeWrapped j.len depth newLine hne hwords
  refine ⟨w :: ws, groups, _, hgroups, hholds, hlies, hparted, plain_nil, fun k hk => ?_⟩
  rcases Buffer.breakable_writeWrapped j.len hwords hk with hold | ⟨hkdepth, hoffset⟩
  · exact hprint.breakable_append ⟨_, placesOf_append_ofText cells s⟩ _ hold
  · -- The space stands behind what was written before, so it is one between two of the words.
    obtain ⟨pre, v, post, he, hplace⟩ := hholds.breakable k hk
    have hsize : (roomFor j b s newLine).size = (spread ps').length := by
      rw [hprint.holds.size, hprint.holds.text, List.append_nil]
    have hlen : ps'.length ≤ pre.length := length_le_of_spread he (by omega)
    have hplaces : (placesOf j cells).length = ps'.length := hprint.lies.length_eq
    have hall := hlies.length_eq
    rw [he, placesOf_append_ofText] at hall
    simp only [List.length_append, List.length_map, List.length_cons] at hall
    have hget : ∃ c, (Cell.ofText s)[pre.length - (placesOf j cells).length]? = some c := by
      refine ⟨_, List.getElem?_eq_getElem (by omega)⟩
    obtain ⟨c, hc⟩ := hget
    refine ⟨pre, v, post, (stackOf j cells, c), he, hplace, ?_, hdepth.trans hkdepth.symm⟩
    rw [placesOf_append_ofText, List.getElem?_append_right (by omega), List.getElem?_map, hc]
    rfl

/-- A run right behind an item. -/
structure Past (j : Job) (r : Run) (cells : List Cell) : Prop where
  print : ∃ ps, Print j r.buffer cells ps []
  landed : Landed j.style.checker r cells
  shows : Shows r.nesting (stackOf j cells)
  matched : Matched j.style.checker [] (cells.map Cell.item)

/-- A run in front of an item that is no text, with white space before it or not. Blank lines stand
there only if there is white space. -/
structure Before (j : Job) (r : Run) (cells : List Cell) (apart : Bool) : Prop where
  print : ∃ ps tail, Print j r.buffer cells ps tail ∧ (tail ≠ [] → apart = true)
  poised : Poised j.style.checker r cells apart
  shows : Shows r.nesting (stackOf j cells)
  matched : Matched j.style.checker [] (cells.map Cell.item)

theorem past_start (j : Job) : Past j j.start [] := ⟨⟨[], .empty j⟩, ⟨rfl, rfl⟩, .nil, trivial⟩

theorem matched_concat {cells : List Cell} {c : Cell}
    (h : Matched j.style.checker [] (cells.map Cell.item))
    (hc : ∀ o, c.item.ends j.style.checker = some o → (stackOf j cells).head? = some o) :
    Matched j.style.checker [] ((cells ++ [c]).map Cell.item) := by
  rw [List.map_append, matched_append]
  exact ⟨h, hc, trivial⟩

/-- A unit is written behind white space on a line of its own, and else perhaps flush. -/
theorem Print.emit {r : Run} {cells : List Cell} {apart : Bool}
    (h : ∃ ps tail, Print j r.buffer cells ps tail ∧ (tail ≠ [] → apart = true)) {i : Item}
    {text : List Char} (ht : Typeset j r.nesting.depth i text)
    (hd : (i.around j.style.checker (stackOf j cells)).length = r.nesting.depth)
    (hf : Framed text) (hbody : i.isBody = false) {newLine : Bool}
    (hn : newLine = breaks j.style.checker (lastItem none cells) ⟨apart, i⟩) :
    ∃ ps, Print j (r.emit j.len j.width text newLine).buffer (cells ++ [⟨apart, i⟩]) ps [] := by
  obtain ⟨ps, tail, hprint, htail⟩ := h
  unfold Run.emit
  cases newLine with
  | true =>
    have hlies : Lies j (i.around j.style.checker (stackOf j cells), ⟨apart, i⟩)
        (tail ++ '\n' :: Nesting.indentOf r.nesting.depth, text) := by
      refine ⟨⟨hd ▸ ht, hd ▸ .line hprint.blank, plain_line hprint.plain _, ?_⟩, ?_⟩
      · simp [hbody]
      · simp
    have hparted : Parted j.style.checker (lastItem none cells, ⟨apart, i⟩)
        (tail ++ '\n' :: Nesting.indentOf r.nesting.depth, text) := by
      refine ⟨fun prev hprev => ?_, fun hspace => ?_⟩
      · dsimp only at hprev
        rw [hprev] at hn
        exact ⟨fun _ => hn.symm, fun _ => by simp⟩
      · have hbreak : '\n' ∈ [' '] := hspace ▸ by simp
        simp at hbreak
    exact ⟨_, hprint.writeLine hlies hparted (trim_framed hf)⟩
  | false =>
    obtain rfl : apart = false := apart_of_breaks hn.symm
    obtain rfl : tail = [] := by simpa using htail
    obtain ⟨ps', hprint'⟩ := hprint.makeRoom (j.len (Text.firstLine text))
    refine ⟨_, hprint'.write ⟨⟨hd ▸ ht, .none, plain_nil, ?_⟩, ?_⟩ ⟨fun prev hprev => ?_, by simp⟩⟩
    · simp [hbody]
    · simp
    · dsimp only at hprev
      rw [hprev] at hn
      change false = separated j.style.checker prev ⟨false, i⟩ at hn
      simp [← hn]

theorem Past.blankText {r : Run} {cells : List Cell} (h : Past j r cells) {s : List Char}
    (hs : allBlank s = true) :
    Before j (r.text j.len j.width s) (cells ++ Cell.ofText s) (endsBlank s) := by
  obtain ⟨ps, hprint⟩ := h.print
  rw [ofText_of_allBlank hs, List.append_nil]
  unfold Run.text
  dsimp only
  rw [if_pos hs]
  split
  · rename_i hcount
    refine ⟨⟨ps, ['\n'], hprint.blankLine, fun _ => ?_⟩,
      poised_of_allBlank hs rfl h.landed.last, h.shows, h.matched⟩
    refine Text.endsBlank_of_allBlank hs ?_
    rintro rfl
    simp at hcount
  · exact ⟨⟨ps, [], hprint, by simp⟩, poised_of_allBlank hs rfl h.landed.last, h.shows,
      h.matched⟩

theorem Past.text {r : Run} {cells : List Cell} (h : Past j r cells) (s : List Char) :
    Before j (r.text j.len j.width s) (cells ++ Cell.ofText s) (endsBlank s) := by
  cases hs : allBlank s with
  | true => exact h.blankText hs
  | false =>
    obtain ⟨ps, hprint⟩ := h.print
    have hdepth : r.nesting.depth = (stackOf j cells).length := h.shows.length_eq
    have hshows : Shows r.nesting (stackOf j (cells ++ Cell.ofText s)) := by
      rw [stackOf_append_ofText]
      exact h.shows
    have hmatched : Matched j.style.checker [] ((cells ++ Cell.ofText s).map Cell.item) := by
      rw [List.map_append, matched_append]
      exact ⟨h.matched, (surround_ofText _ _ s).2.2⟩
    have hnew : Text.startsBlank s = true →
        (Text.startsBlank s || r.last == .control) = true := by
      intro hb
      simp [hb]
    have hbreak : ∀ i ∈ lastItem none cells, (Text.startsBlank s || r.last == .control) =
        (Text.startsBlank s || i.isControl j.style.checker) := by
      intro i hi
      rw [h.landed.last, Option.mem_def.1 hi, control_iff_adjacency]
    unfold Run.text
    dsimp only
    rw [if_neg (by simp [hs])]
    generalize (Text.startsBlank s || r.last == .control) = newLine at hnew hbreak ⊢
    obtain ⟨g, groups, ps', hgroups, hprint'⟩ := hprint.text hs hdepth hnew hbreak
    have hroom : (if newLine then r.buffer else
        r.buffer.makeRoom j.len j.width (j.len (((Text.words s).head?).getD []))) =
        roomFor j r.buffer s newLine := rfl
    obtain ⟨v, hword⟩ := lastItem_ofText cells hs
    rw [hroom, hgroups]
    refine ⟨?_, poised_of_word rfl (by rintro rfl; simp [allBlank] at hs) hword, hshows,
      hmatched⟩
    by_cases htrail : Text.trailingNewlines s > 1
    · rw [if_pos htrail]
      exact ⟨_, ['\n'], hprint'.blankLine, fun _ => endsBlank_of_trailingNewlines htrail⟩
    · rw [if_neg htrail]
      exact ⟨_, [], hprint', by simp⟩

/-- A code tag that could be written: its code, and what is open around it and behind it. -/
theorem Job.codeTag_shows {r r' : Run} {n : Name} {text : List Char} {offset : Nat}
    {stack : List Opened} (hs : Shows r.nesting stack) (h : j.codeTag r text offset = .ok r') :
    ∃ tag code r₁, Erb.Tag.split? text = some tag ∧ r.SamePlace r₁ ∧
      r' = j.afterCode r₁ tag (Ruby.classify j.style.checker tag.code) code ∧
      Recoded j.style r₁.nesting.depth tag.code code ∧
      Shows r₁.nesting ((Item.code n text).around j.style.checker stack) ∧
      Shows r'.nesting ((Item.code n text).beyond j.style.checker stack) ∧
      ∀ o, (Item.code n text).ends j.style.checker = some o → stack.head? = some o := by
  obtain ⟨tag, r₁, code, ht, hplace, rfl, hcase⟩ := codeTag_cases h
  have hafter {around : List Opened} (hr₁ : Shows r₁.nesting around)
      (ha : (Item.code n text).around j.style.checker stack = around) :
      Shows (j.afterCode r₁ tag (Ruby.classify j.style.checker tag.code) code).nesting
        ((Item.code n text).beyond j.style.checker stack) := by
    have hs := shows_afterCode (j := j) hr₁ tag (Ruby.classify j.style.checker tag.code) code
    rw [Item.beyond, ha, Item.opens, ht]
    cases hk : Ruby.classify j.style.checker tag.code with
    | blockOpen | close | elseLike | standalone => simpa [hk] using hs
  rcases hcase with ⟨hk, hb, hn, rfl⟩ | ⟨hk, hn, result, hgiven, rfl⟩
  · have hends : (Item.code n text).ends j.style.checker = some .block := by
      simp [Item.ends, ht, hk]
    have haround : (Item.code n text).around j.style.checker stack = stack.tail := by
      simp [Item.around, hends]
    obtain ⟨rest, rfl⟩ := hs.topIsBlock_iff.1 hb
    have hr₁ : Shows r₁.nesting rest := hn ▸ hs.tail
    refine ⟨tag, tag.code, r₁, ht, hplace, rfl, ?_, ?_, hafter hr₁ haround, ?_⟩
    · rw [Recoded, if_pos hk]
    · rw [haround]
      exact hr₁
    · intro o ho
      exact hends.symm.trans ho
  · have hends : (Item.code n text).ends j.style.checker = none := by
      simp [Item.ends, ht, hk]
    have haround : (Item.code n text).around j.style.checker stack = stack := by
      simp [Item.around, hends]
    have hr₁ : Shows r₁.nesting stack := hn ▸ hs
    refine ⟨tag, _, r₁, ht, hplace, rfl, ?_, ?_, hafter hr₁ haround, by simp [hends]⟩
    · rw [Recoded, if_neg (by simp [hk]), hn]
      exact ⟨result, hgiven, rfl⟩
    · rw [haround]
      exact hr₁

theorem Before.codeTag {r r' : Run} {cells : List Cell} {apart : Bool}
    (h : Before j r cells apart) {n : Name} {text : List Char} {offset : Nat}
    (hr : j.codeTag r text offset = .ok r') : Past j r' (cells ++ [⟨apart, .code n text⟩]) := by
  obtain ⟨tag, code, r₁, ht, hplace, he, hcode, haround, hbeyond, hends⟩ :=
    Job.codeTag_shows (n := n) h.shows hr
  have hdepth : ((Item.code n text).around j.style.checker (stackOf j cells)).length =
      r₁.nesting.depth := haround.length_eq.symm
  have hnew : ((Ruby.classify j.style.checker tag.code).isControlFlow || r₁.breaksBeforeCode) =
      breaks j.style.checker (lastItem none cells) ⟨apart, .code n text⟩ := by
    rw [← h.poised.code n text, hplace.breaksBeforeCode, Item.isControl, ht]
    rfl
  have hemit := Print.emit (hplace.buffer ▸ h.print) (.code ht hcode) hdepth
    (framed_build tag.opener code tag.closer _) rfl hnew
  have hbuffer : r'.buffer = (r₁.emit j.len j.width (Erb.Tag.build tag.opener.text code
      tag.closer.text (Nesting.indentOf r₁.nesting.depth))
      ((Ruby.classify j.style.checker tag.code).isControlFlow || r₁.breaksBeforeCode)).buffer := by
    rw [he]
    unfold Job.afterCode
    dsimp only
    split <;> rfl
  refine ⟨?_, he ▸ landed_afterCode ht code, ?_, matched_concat h.matched hends⟩
  · rw [hbuffer]
    exact hemit
  · rw [stackOf_concat]
    exact hbeyond

theorem Before.openTag {r r' : Run} {cells : List Cell} {apart : Bool}
    (h : Before j r cells apart) {text name attrs : List Char} {closing : Closing} {offset : Nat}
    (hr : j.openTag r name attrs closing offset = .ok r') :
    Past j r' (cells ++ [⟨apart, .token (.opening text name attrs closing)⟩]) := by
  cases hv : Element.isValidName name with
  | false =>
    rw [j.openTag_invalid hv] at hr
    simp at hr
  | true =>
    rw [j.openTag_valid hv] at hr
    obtain rfl : j.afterOpen r name attrs closing = r' := by simpa using hr
    have hnew := h.poised.tag (.token (.opening text name attrs closing)) rfl
    have hbefore : ∃ ps tail, Print j (j.beforeOpen r name attrs closing).buffer cells ps tail ∧
        (tail ≠ [] → apart = true) := by
      unfold Job.beforeOpen
      split
      · exact h.print
      · rename_i hflush
        obtain rfl : apart = false := by
          refine apart_of_breaks (hnew.symm.trans ?_)
          simpa [Item.isBlockLevel] using hflush
        obtain ⟨ps, tail, hprint, htail⟩ := h.print
        obtain rfl : tail = [] := by simpa using htail
        obtain ⟨ps', hprint'⟩ := hprint.makeRoom _
        exact ⟨ps', [], hprint', by simp⟩
    have hnesting := j.nesting_beforeOpen r name attrs closing
    have hdepth : ((Item.token (.opening text name attrs closing)).around j.style.checker
        (stackOf j cells)).length = (j.beforeOpen r name attrs closing).nesting.depth := by
      rw [hnesting]
      exact h.shows.length_eq.symm
    have ht : Typeset j (j.beforeOpen r name attrs closing).nesting.depth
        (.token (.opening text name attrs closing)) (openText r.nesting.depth name
          (j.attributesIn r name attrs closing) closing) := by
      rw [hnesting]
      exact .opening text name attrs closing _
    have hemit := Print.emit
      (r := (j.beforeOpen r name attrs closing).note
        (Job.layoutLog r.nesting.depth (j.attributesIn r name attrs closing)))
      hbefore ht hdepth (framed_openText r.nesting.depth name _ closing) rfl hnew
    refine ⟨?_, landed_tagWritten (i := .token (.opening text name attrs closing)) rfl, ?_,
      matched_concat h.matched (by simp [Item.ends])⟩
    · unfold Job.afterOpen
      cases Element.isSelfClosing name closing <;> exact hemit
    · rw [stackOf_concat, j.nesting_afterOpen, Item.beyond, Item.opens]
      cases Element.isSelfClosing name closing with
      | true => exact h.shows
      | false => exact .cons (.element name _) h.shows

/-- A unit that ends something is written outside of it. -/
theorem Print.emit_pop {r : Run} {cells : List Cell} {apart : Bool}
    (h : ∃ ps tail, Print j r.buffer cells ps tail ∧ (tail ≠ [] → apart = true))
    (hs : Shows r.nesting (stackOf j cells)) {i : Item} {o : Opened} {text : List Char}
    (hends : i.ends j.style.checker = some o) (ht : ∀ depth, Typeset j depth i text)
    (hf : Framed text) (hbody : i.isBody = false) {newLine : Bool}
    (hn : newLine = breaks j.style.checker (lastItem none cells) ⟨apart, i⟩) :
    (∃ ps, Print j (r.pop.emit j.len j.width text newLine).buffer (cells ++ [⟨apart, i⟩]) ps []) ∧
      Shows r.pop.nesting (i.around j.style.checker (stackOf j cells)) := by
  have hshows : Shows r.pop.nesting (i.around j.style.checker (stackOf j cells)) := by
    rw [Run.nesting_pop, Item.around, hends]
    unfold Shows at hs
    generalize r.nesting = nesting at hs
    generalize stackOf j cells = stack at hs
    cases hs with
    | nil => exact .nil
    | cons _ hrest => exact hrest
  have hprint : ∃ ps tail, Print j r.pop.buffer cells ps tail ∧ (tail ≠ [] → apart = true) := by
    rw [(Run.samePlace_pop r).buffer]
    exact h
  exact ⟨Print.emit hprint (ht _) hshows.length_eq.symm hf hbody hn, hshows⟩

theorem Before.closeTag {r r' : Run} {cells : List Cell} {apart : Bool}
    (h : Before j r cells apart) {text name : List Char} {offset : Nat}
    (hr : j.closeTag r name offset = .ok r') :
    Past j r' (cells ++ [⟨apart, .token (.close text name)⟩]) := by
  cases hv : r.nesting.topIsElement name with
  | false =>
    rw [j.closeTag_unmatched hv] at hr
    simp at hr
  | true =>
    rw [j.closeTag_open hv] at hr
    obtain rfl : j.afterClose r name = r' := by simpa using hr
    have hnew := h.poised.tag (.token (.close text name)) rfl
    obtain ⟨hemit, hshows⟩ := Print.emit_pop h.print h.shows (i := .token (.close text name)) rfl
      (fun _ => .close text name) (framed_closeText name) rfl hnew
    refine ⟨hemit, landed_tagWritten (i := .token (.close text name)) rfl, ?_,
      matched_concat h.matched ?_⟩
    · rw [stackOf_concat]
      simpa [Job.afterClose, Item.beyond, Item.opens] using hshows
    · intro o ho
      obtain ⟨rest, hrest⟩ := (h.shows.topIsElement_iff name).1 hv
      rw [hrest]
      exact ho

theorem Before.comment {r : Run} {cells : List Cell} {apart : Bool} (h : Before j r cells apart)
    {text : List Char} (hf : Framed text) :
    Past j (j.comment r text) (cells ++ [⟨apart, .token (.comment text)⟩]) := by
  have hnew := h.poised.tag (.token (.comment text)) rfl
  have hemit := Print.emit h.print (.comment text) h.shows.length_eq.symm hf rfl hnew
  refine ⟨hemit, landed_tagWritten (i := .token (.comment text)) rfl, ?_, matched_concat h.matched (by simp [Item.ends])⟩
  rw [stackOf_concat]
  simpa [Job.comment, Item.beyond, Item.opens, Item.around, Item.ends] using h.shows

/-- What pieces that begin with the body of `raw` stand behind: its open tag. -/
structure Holding (j : Job) (raw : Option (List Char)) (cells : List Cell) : Prop where
  head : ∀ name, raw = some name → (stackOf j cells).head? = some (.element name)
  last : ∀ name, raw = some name → ∃ t, lastItem none cells = some (.token t)

/-- The body of a raw text is printed right behind its open tag. -/
theorem Past.body {r r₁ : Run} {cells : List Cell} (h : Past j r cells) {t : Token}
    (ht : lastItem none cells = some (.token t)) {body : List Char}
    (hbuffer : r₁.buffer = r.buffer.write j.len body) (hnesting : r₁.nesting = r.nesting) :
    (∃ ps, Print j r₁.buffer (cells ++ [⟨false, .body body⟩]) ps []) ∧
      Shows r₁.nesting (stackOf j (cells ++ [⟨false, .body body⟩])) ∧
      Matched j.style.checker [] ((cells ++ [(⟨false, .body body⟩ : Cell)]).map Cell.item) := by
  obtain ⟨ps, hprint⟩ := h.print
  have hparted : Parted j.style.checker (lastItem none cells, ⟨false, .body body⟩) ([], body) := by
    refine ⟨fun prev hprev => ?_, by simp⟩
    dsimp only at hprev
    rw [ht, Option.some.injEq] at hprev
    subst hprev
    simp [separated, Item.isControl, Item.isStructural]
  have hbody := hprint.write (c := ⟨false, .body body⟩) (s := body)
    ⟨⟨.body _, .none, plain_nil, fun _ => rfl⟩, by simp⟩ hparted
  rw [← hbuffer] at hbody
  refine ⟨⟨_, hbody⟩, ?_,
    matched_concat (c := ⟨false, .body body⟩) h.matched (by simp [Item.ends])⟩
  rw [hnesting, stackOf_concat]
  exact h.shows

/-- An unclosed raw text is printed up to its end, and stays open. -/
theorem Past.unclosed {r : Run} {cells : List Cell} (h : Past j r cells) {name : List Char}
    (ho : Holding j (some name) cells) (content : List Char) :
    (∃ ps, Print j (j.rawText r name content []).buffer
      (cells ++ Cell.ofRawText name content []) ps []) ∧
      (j.rawText r name content []).nesting ≠ [] := by
  obtain ⟨t, ht⟩ := ho.last name rfl
  have hbuffer : (j.rawText r name content []).buffer =
      r.buffer.write j.len (Text.trimRight content) := by
    unfold Job.rawText
    split <;> rfl
  have hnesting : (j.rawText r name content []).nesting = r.nesting := by
    unfold Job.rawText
    split <;> rfl
  obtain ⟨hprint, hshows, -⟩ := h.body ht hbuffer hnesting
  refine ⟨hprint, fun hnil => ?_⟩
  have hstack := hshows.nil_iff.1 hnil
  rw [stackOf_concat] at hstack
  have hopen := ho.head name rfl
  rw [show stackOf j cells = [] from hstack] at hopen
  simp at hopen

theorem Past.rawText {r : Run} {cells : List Cell} (h : Past j r cells)
    {name content closeTag : List Char} (ho : Holding j (some name) cells) (hclose : closeTag ≠ []) :
    Past j (j.rawText r name content closeTag)
      (cells ++ Cell.ofRawText name content closeTag) := by
  obtain ⟨t, ht⟩ := ho.last name rfl
  have hif : closeTag.isEmpty = false := by simpa using hclose
  obtain ⟨r₁, hbuffer, hnesting, hr⟩ : ∃ r₁ : Run,
      r₁.buffer = r.buffer.write j.len (Text.trimRight content) ∧ r₁.nesting = r.nesting ∧
      j.rawText r name content closeTag =
        (r₁.pop.emit j.len j.width ('<' :: '/' :: name ++ ['>'])
          (endsBlank content)).tagWritten true := by
    refine ⟨if allBlank content then
        { r with buffer := r.buffer.write j.len (Text.trimRight content) } else
        { r with buffer := r.buffer.write j.len (Text.trimRight content), last := .text },
      ?_, ?_, ?_⟩
    · split <;> rfl
    · split <;> rfl
    · simp only [Job.rawText, hif, Bool.false_eq_true, if_false]
  obtain ⟨⟨ps, hprint⟩, hshows, hmatched⟩ := h.body ht hbuffer hnesting
  have hstack : stackOf j (cells ++ [⟨false, .body (Text.trimRight content)⟩]) =
      stackOf j cells := by
    rw [stackOf_concat]
    rfl
  have hbreak : endsBlank content = breaks j.style.checker
      (lastItem none (cells ++ [⟨false, .body (Text.trimRight content)⟩]))
      ⟨endsBlank content, .rawClose name closeTag⟩ := by
    rw [lastItem_append]
    simp [lastItem, breaks, separated, Item.isControl, Item.isStructural]
  obtain ⟨hemit, hpop⟩ := Print.emit_pop ⟨ps, [], hprint, by simp⟩ hshows
    (i := .rawClose name closeTag) rfl (fun _ => .rawClose name closeTag)
    (framed_closeText name) rfl hbreak
  rw [hr, Cell.ofRawText, if_neg (by simp [hif]), List.append_cons cells]
  refine ⟨hemit, landed_tagWritten (i := .rawClose name closeTag) rfl, ?_,
    matched_concat hmatched ?_⟩
  · rw [stackOf_concat]
    simpa [Item.beyond, Item.opens] using hpop
  · intro o hends
    rw [hstack, ho.head name rfl]
    exact hends

theorem Past.gapFrom {fs : List (Found (Name × List Char))} {cur : List Char} {offset : Nat}
    {r r' : Run} {cells : List Cell} (h : Past j r cells)
    (hr : j.gapFrom cur offset fs r = .ok r') :
    Before j r' (cells ++ Cell.ofFound cur fs)
      (endsBlank (cur.reverse ++ Found.fill (fun e => e.1.text) fs)) := by
  induction fs generalizing cur offset r cells with
  | nil =>
    simp only [Job.gapFrom, Except.ok.injEq] at hr
    subst hr
    simpa [Cell.ofFound] using h.text cur.reverse
  | cons f fs ih =>
    cases f with
    | char c =>
      have hrest := @ih (c :: cur) _ _ _ h hr
      simpa [Cell.ofFound] using hrest
    | value e =>
      obtain ⟨n, text⟩ := e
      obtain ⟨r₁, hc, hrest⟩ := Job.gapFrom_value_eq_ok hr
      have hcode := (h.text cur.reverse).codeTag (n := n) hc
      have hfound := @ih [] _ _ _ hcode hrest
      rw [Found.fill_value, endsBlank_append_name, Cell.ofFound]
      simpa using hfound

theorem Past.gap {r r' : Run} {cells : List Cell} {text : List Char} {offset : Nat}
    (h : Past j r cells) (hr : j.gap r text offset = .ok r') :
    Before j r' (cells ++ Cell.ofGap j.table text) (endsBlank text) := by
  unfold Job.gap at hr
  split at hr
  · simp at hr
  · split at hr
    · simp at hr
    · have hfound := h.gapFrom hr
      rwa [List.reverse_nil, List.nil_append, fill_scan_entries] at hfound

theorem Before.token {r r' : Run} {cells : List Cell} {apart : Bool} (h : Before j r cells apart)
    {t : Token} (ht : Framed t.text) {offset : Nat} (hr : j.piece r offset (.token t) = .ok r') :
    Past j r' (cells ++ [⟨apart, .token t⟩]) := by
  cases t with
  | comment text =>
    obtain rfl : j.comment r text = r' := by simpa [Job.piece] using hr
    exact h.comment ht
  | close text name => exact h.closeTag hr
  | opening text name attrs closing => exact h.openTag hr

theorem holding_none (cells : List Cell) : Holding j none cells := ⟨by simp, by simp⟩

theorem holding_after {cells : List Cell} {apart : Bool} (t : Token) :
    Holding j (Piece.rawTextAfter t) (cells ++ [⟨apart, .token t⟩]) := by
  refine ⟨fun name hname => ?_, fun _ _ => ⟨t, by rw [lastItem_append]; rfl⟩⟩
  cases t with
  | comment text => simp [Piece.rawTextAfter] at hname
  | close text m => simp [Piece.rawTextAfter] at hname
  | opening text m attrs closing =>
    rw [Piece.rawTextAfter] at hname
    split at hname
    · rename_i hcond
      simp only [Bool.and_eq_true, Bool.not_eq_true'] at hcond
      obtain rfl := Option.some.inj hname
      rw [stackOf_concat]
      simp [Item.beyond, Item.opens, hcond.2]
    · simp at hname

/-- A run that comes to its end has printed the cells of all its pieces, every item has found open
what it ends, nothing is left open, and every raw text was closed. -/
theorem Past.pieces {raw : Option (List Char)} {ps : List Piece} (ho : Piece.Ordered raw ps)
    (hframed : ∀ t, .token t ∈ ps → Framed t.text) {r r' : Run} {cells : List Cell}
    {offset : Nat} (h : Past j r cells) (hraw : Holding j raw cells)
    (hr : j.pieces offset ps r = .ok r') :
    ∃ all, all = cells ++ Cell.ofPieces j.table false ps ∧
      (∃ out tail, Print j r'.buffer all out tail) ∧ stackOf j all = [] ∧
      Matched j.style.checker [] (all.map Cell.item) ∧
      ∀ name content, .rawText name content [] ∉ ps := by
  induction ho generalizing r cells offset with
  | nil raw =>
    obtain ⟨hnil, rfl⟩ := Job.pieces_nil_eq_ok hr
    obtain ⟨out, hprint⟩ := h.print
    refine ⟨cells, by simp [Cell.ofPieces], ⟨out, [], hprint⟩, ?_, h.matched, by simp⟩
    exact h.shows.nil_iff.1 hnil
  | unclosed name content =>
    obtain ⟨r₁, hbody, hrest⟩ := Job.pieces_cons_eq_ok hr
    obtain ⟨hnil, rfl⟩ := Job.pieces_nil_eq_ok hrest
    obtain rfl : j.rawText r name content [] = r₁ := by simpa [Job.piece] using hbody
    exact absurd hnil (h.unclosed hraw content).2
  | rawText hne _ ih =>
    rename_i name content closeTag ps _
    obtain ⟨r₁, hbody, hrest⟩ := Job.pieces_cons_eq_ok hr
    obtain rfl : j.rawText r name content closeTag = r₁ := by simpa [Job.piece] using hbody
    obtain ⟨all, hall, hprint, hstack, hmatched, hclosed⟩ :=
      ih (fun t ht => hframed t (List.mem_cons_of_mem _ ht)) (h.rawText hraw hne)
        (holding_none _) hrest
    refine ⟨all, by simpa [Cell.ofPieces] using hall, hprint, hstack, hmatched, ?_⟩
    intro name' content' hmem
    rcases List.mem_cons.1 hmem with he | hmem
    · simp only [Piece.rawText.injEq] at he
      exact hne he.2.2.symm
    · exact hclosed name' content' hmem
  | last text =>
    obtain ⟨r₁, hgap, hrest⟩ := Job.pieces_cons_eq_ok hr
    obtain ⟨hnil, rfl⟩ := Job.pieces_nil_eq_ok hrest
    have hbefore := h.gap hgap
    obtain ⟨out, tail, hprint, -⟩ := hbefore.print
    refine ⟨_, by simp [Cell.ofPieces], ⟨out, tail, hprint⟩, ?_, hbefore.matched, by simp⟩
    exact hbefore.shows.nil_iff.1 hnil
  | token _ ih =>
    rename_i text t ps _
    obtain ⟨r₁, hgap, hrest⟩ := Job.pieces_cons_eq_ok hr
    obtain ⟨r₂, ht, hrest⟩ := Job.pieces_cons_eq_ok hrest
    have htoken := (h.gap hgap).token (hframed t (by simp)) ht
    obtain ⟨all, hall, hprint, hstack, hmatched, hclosed⟩ :=
      ih (fun t ht => hframed t (by simp [ht])) htoken (holding_after t) hrest
    refine ⟨all, by simpa [Cell.ofPieces] using hall, hprint, hstack, hmatched, ?_⟩
    intro name content hmem
    simp only [List.mem_cons, reduceCtorEq, false_or] at hmem
    exact hclosed name content hmem

end ErbLayout.Template
