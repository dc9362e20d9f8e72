import ErbLayout.Proofs.Layout.Reach
import ErbLayout.Proofs.Layout.Sheet
import ErbLayout.Proofs.Layout.Wrap
/-!
The right margin: as long as text is wrapped to the width and room is made before what is written
flush, every line with a space between words stays inside the margin. The space that stays breakable
is the last one of the line.
-/

namespace ErbLayout.Layout

open Text (Word firstLine lastLine joinWords spread)

/-- A measure by which a space is one column wide. -/
structure Linear (len : Measure) : Prop where
  nil : len [] = 0
  space : ∀ a b, len (a ++ ' ' :: b) = len a + 1 + len b

theorem Linear.replicate {len : Measure} (h : Linear len) (n : Nat) (s : List Char) :
    len (List.replicate n ' ' ++ s) = n + len s := by
  induction n with
  | zero => simp
  | succ n ih =>
    have hspace := h.space [] (List.replicate n ' ' ++ s)
    rw [List.nil_append, h.nil, ih] at hspace
    rw [List.replicate_succ, List.cons_append, hspace]
    omega

theorem Linear.indentOf {len : Measure} (h : Linear len) (depth : Nat) (s : List Char) :
    len (Nesting.indentOf depth ++ s) = 2 * depth + len s := h.replicate _ s

theorem Linear.lineBreak {len : Measure} (h : Linear len) (depth : Nat) :
    len (lastLine ('\n' :: Nesting.indentOf depth)) = 2 * depth := by
  have hflat : '\n' ∉ Nesting.indentOf depth := by simp [Nesting.indentOf]
  have hindent := h.indentOf depth []
  rw [List.append_nil, h.nil] at hindent
  rw [← List.nil_append ('\n' :: Nesting.indentOf depth), Text.lastLine_append_cons [] hflat,
    hindent]
  rfl

/-- The stretches with the marks of those that are copied. -/
def leaves (copied : List Bool) (ps : List (List Char × List Char)) : List Leaf :=
  List.zipWith (fun c p => ⟨c, p.1, p.2⟩) copied ps

theorem leaves_append {cs ds : List Bool} {ps qs : List (List Char × List Char)}
    (h : cs.length = ps.length) : leaves (cs ++ ds) (ps ++ qs) = leaves cs ps ++ leaves ds qs :=
  List.zipWith_append h

theorem map_stretch_leaves {cs : List Bool} {ps : List (List Char × List Char)}
    (h : cs.length = ps.length) : (leaves cs ps).map Leaf.stretch = ps := by
  induction cs generalizing ps with
  | nil =>
    rw [List.length_nil] at h
    rw [List.eq_nil_of_length_eq_zero h.symm]
    rfl
  | cons c cs ih =>
    cases ps with
    | nil => simp at h
    | cons p ps => exact congrArg _ (ih (by simpa using h))

theorem exists_marks {cs : List Bool} {pre post : List (List Char × List Char)}
    {p : List Char × List Char} (h : cs.length = (pre ++ p :: post).length) :
    ∃ cs₁ c cs₂, cs = cs₁ ++ c :: cs₂ ∧ cs₁.length = pre.length ∧ cs₂.length = post.length := by
  rw [List.length_append, List.length_cons] at h
  have hlt : pre.length < cs.length := by omega
  refine ⟨cs.take pre.length, cs[pre.length], cs.drop (pre.length + 1), ?_, ?_, ?_⟩
  · rw [List.cons_getElem_drop_succ, List.take_append_drop]
  · rw [List.length_take, Nat.min_eq_left hlt.le]
  · rw [List.length_drop]
    omega

theorem spread_flat {ls : List Leaf} (h : ∀ l ∈ ls, l.Flat) :
    '\n' ∉ spread (ls.map Leaf.stretch) := by
  induction ls with
  | nil => simp
  | cons l ls ih =>
    obtain ⟨hgap, htext⟩ := h l List.mem_cons_self
    have hls := ih fun m hm => h m (List.mem_cons_of_mem l hm)
    rw [List.map_cons, Text.spread_cons, List.mem_append, List.mem_append]
    exact not_or.2 ⟨not_or.2 ⟨hgap, htext⟩, hls⟩

/-- Before one place of the stretches there is only so much. -/
theorem eq_of_offset {pre pre' post post' : List Leaf} {l l' : Leaf}
    (h : pre ++ l :: post = pre' ++ l' :: post') (hl : l.gap ≠ []) (hl' : l'.gap ≠ [])
    (hoffset : (spread (pre.map Leaf.stretch)).length = (spread (pre'.map Leaf.stretch)).length) :
    l = l' ∧ post = post' := by
  have hlonger {ls : List Leaf} {m : Leaf} (hm : m.gap ≠ []) (x : List Leaf) :
      (spread (ls.map Leaf.stretch)).length <
        (spread ((ls ++ m :: x).map Leaf.stretch)).length := by
    have hpos := List.length_pos_iff.2 hm
    simp only [List.map_append, List.map_cons, Text.spread_append, Text.spread_cons,
      List.length_append, Leaf.stretch]
    omega
  rcases List.append_eq_append_iff.1 h with ⟨x, rfl, hx⟩ | ⟨x, rfl, hx⟩
  · cases x with
    | nil => exact List.cons.inj hx
    | cons m x =>
      obtain ⟨rfl, -⟩ := List.cons.inj hx
      exact absurd hoffset (hlonger hl x).ne
  · cases x with
    | nil => exact (List.cons.inj hx).imp Eq.symm Eq.symm
    | cons m x =>
      obtain ⟨rfl, -⟩ := List.cons.inj hx
      exact absurd hoffset.symm (hlonger hl' x).ne

/-- A word behind a space. -/
def spaceLeaf (w : List Char) : Leaf := ⟨false, [' '], w⟩

/-- A stretch that is not copied. -/
def laidLeaf (p : List Char × List Char) : Leaf := ⟨false, p.1, p.2⟩

theorem map_stretch_laidLeaf (ps : List (List Char × List Char)) :
    (ps.map laidLeaf).map Leaf.stretch = ps := by
  rw [List.map_map]
  exact List.map_id ps

theorem newline_not_mem_of_word {w : List Char} (h : Word w) : '\n' ∉ w := fun hmem =>
  absurd (h.solid '\n' hmem) (by decide)

section Words

variable {len : Measure} {width : Int}

theorem advance_spaceLeaf (hlin : Linear len) (column : Nat) {w : List Char} (hw : Word w) :
    advance len column (spaceLeaf w) = column + 1 + len w := by
  have hspace : len [' '] = 1 := by simpa [hlin.nil] using hlin.space [] []
  simp [advance, spaceLeaf, newline_not_mem_of_word hw, hspace]

theorem flat_spaceLeaf {ws : List (List Char)} (hw : ∀ w ∈ ws, Word w) :
    ∀ l ∈ ws.map spaceLeaf, l.Flat := by
  intro l hl
  obtain ⟨w, hmem, rfl⟩ := List.mem_map.1 hl
  exact ⟨by simp [spaceLeaf], newline_not_mem_of_word (hw w hmem)⟩

theorem reach_spaceLeaf (hlin : Linear len) (column : Nat) {ws : List (List Char)}
    (hw : ∀ w ∈ ws, Word w) :
    (reach len column (ws.map spaceLeaf) : Int) = endOf len column ws := by
  induction ws generalizing column with
  | nil => rfl
  | cons w ws ih =>
    change (reach len (advance len column (spaceLeaf w)) (ws.map spaceLeaf) : Int) = _
    rw [advance_spaceLeaf hlin column (hw w List.mem_cons_self),
      ih _ fun v hv => hw v (List.mem_cons_of_mem w hv)]
    push_cast
    rfl

theorem fitting_spaceLeaf (hlin : Linear len) (column : Nat) {ws : List (List Char)}
    (hw : ∀ w ∈ ws, Word w) (h : Inside len width column ws) :
    Fitting len width column (ws.map spaceLeaf) := by
  induction ws generalizing column with
  | nil => trivial
  | cons w ws ih =>
    have hrest : Fitting len width (advance len column (spaceLeaf w)) (ws.map spaceLeaf) := by
      rw [advance_spaceLeaf hlin column (hw w List.mem_cons_self)]
      exact ih _ (fun v hv => hw v (List.mem_cons_of_mem w hv)) (by push_cast; exact h.2)
    refine ⟨fun _ => ⟨by have := h.1; omega, .inl ?_⟩, hrest⟩
    change (lineEnd len column ((w :: ws).map spaceLeaf) : Int) ≤ width
    rw [lineEnd_of_flat (flat_spaceLeaf hw), reach_spaceLeaf hlin column hw]
    exact endOf_le h (by simp)

theorem len_joinWords (hlin : Linear len) (w : List Char) {ws : List (List Char)}
    (hw : ∀ v ∈ ws, Word v) :
    len (joinWords (w :: ws)) = reach len (len w) (ws.map spaceLeaf) := by
  induction ws generalizing w with
  | nil => rfl
  | cons v ws ih =>
    have hws : ∀ u ∈ ws, Word u := fun u hu => hw u (List.mem_cons_of_mem v hu)
    change _ = reach len (advance len (len w) (spaceLeaf v)) (ws.map spaceLeaf)
    rw [Text.joinWords_cons_cons, hlin.space, ih v hws,
      advance_spaceLeaf hlin (len w) (hw v List.mem_cons_self),
      reach_add_of_flat (flat_spaceLeaf hws)]

theorem newline_not_mem_joinWords {ws : List (List Char)} (hw : ∀ w ∈ ws, Word w) :
    '\n' ∉ joinWords ws := by
  induction ws with
  | nil => simp [joinWords]
  | cons w ws ih =>
    have hflat := newline_not_mem_of_word (hw w List.mem_cons_self)
    have hws := ih fun v hv => hw v (List.mem_cons_of_mem w hv)
    cases ws with
    | nil => exact hflat
    | cons v vs =>
      rw [Text.joinWords_cons_cons]
      simpa [hflat] using hws

theorem column_writeWords (hlin : Linear len) (depth : Nat) (b : Buffer) {s : List Char}
    (hs : Text.trim s = s) (hflat : '\n' ∉ s) (newLine : Bool) :
    (b.writeWords len depth s newLine).column =
      (if newLine then 2 * depth else b.column) + len s := by
  cases newLine with
  | true =>
    have hline : lastLine ('\n' :: Nesting.indentOf depth ++ s) = Nesting.indentOf depth ++ s :=
      Text.lastLine_append_cons [] (by simp [Nesting.indentOf, hflat])
    have hcolumn : (b.writeWords len depth s true).column = len (lastLine (indented depth s)) := by
      simp [Buffer.writeWords, Buffer.writeLine, Buffer.write, indented]
    rw [hcolumn, indented, hs, hline, hlin.indentOf, if_pos rfl]
  | false =>
    unfold Buffer.writeWords Buffer.write
    by_cases hempty : s = []
    · simp [hempty, hlin.nil]
    · simp [hempty, hflat]

/-- The first word of a line, on a line of its own or not. -/
def firstLeaf (depth : Nat) (newLine : Bool) (w : List Char) : Leaf :=
  ⟨false, if newLine then '\n' :: Nesting.indentOf depth else [], w⟩

theorem map_laidLeaf_lineOf (depth : Nat) (newLine : Bool) (w : List Char)
    (ws : List (List Char)) : (lineOf depth newLine (w :: ws)).map laidLeaf =
      firstLeaf depth newLine w :: ws.map spaceLeaf := by
  rw [lineOf, List.map_cons, List.map_map]
  rfl

theorem not_spaced_firstLeaf (depth : Nat) (newLine : Bool) (w : List Char) :
    ¬ (firstLeaf depth newLine w).Spaced := by
  cases newLine <;> simp [Leaf.Spaced, firstLeaf]

theorem advance_firstLeaf (hlin : Linear len) (depth : Nat) (newLine : Bool) (column : Nat)
    {w : List Char} (hw : Word w) : advance len column (firstLeaf depth newLine w) =
      (if newLine then 2 * depth else column) + len w := by
  cases newLine <;>
    simp [advance, firstLeaf, newline_not_mem_of_word hw, hlin.lineBreak, hlin.nil]

section Line

variable {depth column : Nat} {newLine : Bool} {w : List Char} {ws : List (List Char)}

theorem reach_line (hlin : Linear len) (hw : ∀ v ∈ w :: ws, Word v) :
    reach len column (firstLeaf depth newLine w :: ws.map spaceLeaf) =
      (if newLine then 2 * depth else column) + len (joinWords (w :: ws)) := by
  obtain ⟨hword, hws⟩ := List.forall_mem_cons.1 hw
  change reach len (advance len column (firstLeaf depth newLine w)) (ws.map spaceLeaf) = _
  rw [advance_firstLeaf hlin depth newLine column hword, reach_add_of_flat (flat_spaceLeaf hws),
    len_joinWords hlin w hws]

theorem fitting_line (hlin : Linear len) (hw : ∀ v ∈ w :: ws, Word v)
    (h : Filled len width (if newLine then 2 * depth else column : Nat) (w :: ws)) :
    Fitting len width column (firstLeaf depth newLine w :: ws.map spaceLeaf) := by
  obtain ⟨hword, hws⟩ := List.forall_mem_cons.1 hw
  refine ⟨fun hs => absurd hs (not_spaced_firstLeaf depth newLine w), ?_⟩
  rw [advance_firstLeaf hlin depth newLine column hword]
  exact fitting_spaceLeaf hlin _ hws (by exact_mod_cast h)

/-- A line is as long as its words, and a line of its own leaves the one before it as it is. -/
theorem lineEnd_line (hlin : Linear len) (hw : ∀ v ∈ w :: ws, Word v) (hne : ws ≠ [])
    (h : Filled len width (if newLine then 2 * depth else column : Nat) (w :: ws))
    (hcolumn : (column : Int) ≤ width) :
    (lineEnd len column (firstLeaf depth newLine w :: ws.map spaceLeaf) : Int) ≤ width := by
  obtain ⟨hword, hws⟩ := List.forall_mem_cons.1 hw
  cases newLine with
  | true =>
    rw [lineEnd, if_pos (by simp [firstLeaf])]
    simpa [firstLeaf, firstLine, hlin.nil] using hcolumn
  | false =>
    have hflat : (firstLeaf depth false w).Flat := by
      simp [Leaf.Flat, firstLeaf, newline_not_mem_of_word hword]
    have hinside : Inside len width (column + len w : Nat) ws := by exact_mod_cast h
    rw [lineEnd_of_flat (List.forall_mem_cons.2 ⟨hflat, flat_spaceLeaf hws⟩)]
    change (reach len (advance len column (firstLeaf depth false w)) (ws.map spaceLeaf) : Int) ≤
      width
    rw [advance_firstLeaf hlin depth false column hword, reach_spaceLeaf hlin _ hws]
    exact endOf_le hinside hne

end Line

end Words

/-- The measure of stretches on one line is the sum of their measures. -/
def Adds (len : Measure) (ls : List Leaf) : Prop :=
  ∀ pre l post, ls = pre ++ l :: post → '\n' ∉ l.text → (∀ m ∈ post, m.Flat) →
    len (l.text ++ spread (post.map Leaf.stretch)) = reach len (len l.text) post

/-- A buffer holds leaves that fit, and its breakable space is the last space on its last line. -/
structure Fits (len : Measure) (width : Int) (b : Buffer) (ls : List Leaf) (tail : List Char) :
    Prop where
  fitting : Fitting len width 0 ls
  starts : firstLine tail = []
  column : tail = [] → b.column = reach len 0 ls
  crowded : tail = [] → Crowded ls → b.breakable ≠ none
  breakable : ∀ k, b.breakable = some k → ∀ pre l post, ls = pre ++ l :: post → l.gap = [' '] →
    k.offset = (spread (pre.map Leaf.stretch)).length →
    '\n' ∉ l.text ∧ ∀ m ∈ post, m.Flat ∧ ¬ m.Spaced

namespace Fits

variable {len : Measure} {width : Int} {b : Buffer} {ls : List Leaf} {tail : List Char}

theorem empty (len : Measure) (width : Int) : Fits len width {} [] [] :=
  ⟨trivial, rfl, fun _ => rfl, fun _ h => by obtain ⟨pre, l, post, he, -⟩ := h; simp at he,
    fun k hk => by simp at hk⟩

theorem mem_of_starts {c : Char} {s : List Char} (h : firstLine (c :: s) = []) : '\n' ∈ c :: s := by
  by_contra hne
  rw [Text.firstLine_of_not_mem hne] at h
  exact absurd h (by simp)

/-- What is written flush fits if the line stays inside the margin, or if it is copied. -/
theorem write (h : Fits len width b ls []) (hnil : len [] = 0) (copied : Bool) (s : List Char)
    (hend : Crowded ls → (reach len 0 ls : Int) ≤ width →
      copied = true ∨ (reach len 0 ls + len (firstLine s) : Int) ≤ width) :
    Fits len width (b.write len s) (ls ++ [⟨copied, [], s⟩]) [] := by
  have hspaced : ¬ Leaf.Spaced ⟨copied, [], s⟩ := fun hs => hs.1 rfl
  have hkept : ∀ k, (b.write len s).breakable = some k → '\n' ∉ s ∧ b.breakable = some k := by
    intro k hk
    unfold Buffer.write at hk
    split at hk
    · rename_i hempty
      rw [List.isEmpty_iff] at hempty
      exact ⟨by simp [hempty], hk⟩
    · split at hk
      · simp at hk
      · rename_i hflat
        exact ⟨by simpa using hflat, hk⟩
  refine ⟨h.fitting.append (fitting_of_not_spaced (by simpa using hspaced))
    fun hcrowded hreach => ?_, rfl, fun _ => ?_, fun _ hcrowded => ?_,
    fun k hk pre l post he hgap hoffset => ?_⟩
  · rw [lineEnd_flush hnil]
    by_cases hfirst : firstLine s = []
    · rw [hfirst, hnil]
      exact .inl hreach
    · rcases hend hcrowded hreach with hcopied | hfits
      · exact .inr ⟨[], _, [], rfl, by simp, hreach, hcopied, by simp, hfirst⟩
      · exact .inl (by exact_mod_cast hfits)
  · rw [reach_append, ← h.column rfl]
    unfold Buffer.write
    by_cases hempty : s = []
    · subst hempty
      simp [reach, advance, hnil]
    · by_cases hbreak : '\n' ∈ s
      · simp [hempty, hbreak, reach, advance]
      · simp [hempty, hbreak, reach, advance, hnil]
  · obtain ⟨hcrowded, hflat⟩ := crowded_of_concat hspaced hcrowded
    have hne := h.crowded rfl hcrowded
    unfold Buffer.write
    split
    · exact hne
    · rw [if_neg (by simpa using hflat.2)]
      exact hne
  · obtain ⟨hflat, hk⟩ := hkept k hk
    rcases eq_concat_cases he.symm with ⟨rfl, -, -⟩ | ⟨post, rfl, rfl⟩
    · simp at hgap
    · obtain ⟨htext, hpost⟩ := h.breakable k hk pre l post rfl hgap hoffset
      refine ⟨htext, List.forall_mem_append.2 ⟨hpost, ?_⟩⟩
      simpa [Leaf.Flat, Leaf.Spaced] using hflat

theorem writeLine (h : Fits len width b ls tail) (hlin : Linear len) (copied : Bool) {depth : Nat}
    {s : List Char} (hs : Text.trim s = s) :
    Fits len width (b.writeLine len depth s)
      (ls ++ [⟨copied, tail ++ '\n' :: Nesting.indentOf depth, s⟩]) [] := by
  have hspaced : ¬ Leaf.Spaced ⟨copied, tail ++ '\n' :: Nesting.indentOf depth, s⟩ :=
    fun hs => hs.2 (by simp)
  have hwritten : (b.writeLine len depth s).column = len (lastLine (indented depth s)) ∧
      (b.writeLine len depth s).breakable = none := by
    simp [Buffer.writeLine, Buffer.write, indented]
  have hgap : firstLine (tail ++ '\n' :: Nesting.indentOf depth) = [] := by
    cases tail with
    | nil => rfl
    | cons c tail => exact (Text.firstLine_append_of_mem (mem_of_starts h.starts) _).trans h.starts
  refine ⟨h.fitting.append (fitting_of_not_spaced (by simpa using hspaced))
    fun hcrowded hreach => ?_, rfl, fun _ => ?_, fun _ hcrowded => ?_,
    fun k hk => by simp [hwritten.2] at hk⟩
  · left
    rw [lineEnd, if_pos (by simp), hgap, hlin.nil]
    exact hreach
  · rw [hwritten.1, reach_append]
    have hindent : '\n' ∉ Nesting.indentOf depth := by simp [Nesting.indentOf]
    have hgap : len (lastLine (tail ++ '\n' :: Nesting.indentOf depth)) = 2 * depth := by
      rw [Text.lastLine_append_of_mem tail (by simp), hlin.lineBreak]
    rw [indented, hs]
    by_cases hbreak : '\n' ∈ s
    · rw [Text.lastLine_append_of_mem _ hbreak]
      simp [reach, advance, hbreak]
    · have hline : lastLine ('\n' :: Nesting.indentOf depth ++ s) = Nesting.indentOf depth ++ s :=
        Text.lastLine_append_cons [] (by simp [hindent, hbreak])
      rw [hline, hlin.indentOf]
      simp [reach, advance, hbreak, hgap]
  · exact absurd (crowded_of_concat hspaced hcrowded).2.1 (by simp)

/-- Once room is made, a line with a space between words has the room. -/
theorem makeRoom {cs : List Bool} {ps ps' : List (List Char × List Char)}
    (h : Fits len width b (leaves cs ps) []) (hlin : Linear len) (hlen : cs.length = ps.length)
    (hadds : Adds len (leaves cs ps)) {needed : Int} {b' : Buffer} (hholds : Holds b' ps' [])
    (hr : Roomed len width needed b b' ps ps') :
    Fits len width b' (leaves cs ps') [] ∧
      (Crowded (leaves cs ps') → (reach len 0 (leaves cs ps') : Int) + needed ≤ width) := by
  cases hr with
  | kept he hroom =>
    subst he
    refine ⟨h, fun hcrowded => ?_⟩
    obtain ⟨k, hk⟩ := Option.ne_none_iff_exists'.1 (h.crowded rfl hcrowded)
    rw [← h.column rfl]
    exact hroom k hk
  | broken hk hoffset he hnone hcolumn =>
    rename_i k pre post w
    subst he
    obtain ⟨cs₁, c, cs₂, rfl, hpre, hpost⟩ := exists_marks hlen
    have hleaves (gap : List Char) : leaves (cs₁ ++ c :: cs₂) (pre ++ (gap, w) :: post) =
        leaves cs₁ pre ++ ⟨c, gap, w⟩ :: leaves cs₂ post := leaves_append hpre
    rw [hleaves] at h hadds ⊢
    obtain ⟨hflat, hlast⟩ := h.breakable k hk _ _ _ rfl rfl
      (by rw [map_stretch_leaves hpre, hoffset])
    -- The space was the last one of its line: what stood behind it is the new line, and has none.
    have hpostFlat : ∀ m ∈ leaves cs₂ post, m.Flat := fun m hm => (hlast m hm).1
    have hpostSpaced : ∀ m ∈ leaves cs₂ post, ¬ m.Spaced := fun m hm => (hlast m hm).2
    have hgap : '\n' ∈ '\n' :: Nesting.indentOf k.depth := List.mem_cons_self
    have hcrowded : ¬ Crowded (leaves cs₁ pre ++ ⟨c, '\n' :: Nesting.indentOf k.depth, w⟩ ::
        leaves cs₂ post) := not_crowded_of_broken hgap hpostSpaced
    refine ⟨⟨h.fitting.broken hlin.nil ⟨by simp, by simp⟩ hpostSpaced hgap rfl, rfl, fun _ => ?_,
      fun _ hc => absurd hc hcrowded, fun k hk => by simp [hnone] at hk⟩,
      fun hc => absurd hc hcrowded⟩
    have hspread := spread_flat hpostFlat
    rw [map_stretch_leaves hpost] at hspread
    have hline : lastLine b'.text = Nesting.indentOf k.depth ++ (w ++ spread post) := by
      rw [hholds.text, List.append_nil, Text.spread_append, Text.spread_cons]
      simp only [List.append_assoc, List.cons_append]
      exact Text.lastLine_append_cons _ (by simp [Nesting.indentOf, hflat, hspread])
    have hmeasure := hadds _ _ _ rfl hflat hpostFlat
    rw [map_stretch_leaves hpost] at hmeasure
    rw [hcolumn, hline, hlin.indentOf, hmeasure, reach_append]
    change _ = reach len (advance len _ ⟨c, '\n' :: Nesting.indentOf k.depth, w⟩) (leaves cs₂ post)
    rw [advance, if_neg hflat, if_pos hgap, hlin.lineBreak, reach_add_of_flat hpostFlat]

theorem last_space (hholds : Holds b (ls.map Leaf.stretch) []) {depth : Nat} {newLine : Bool}
    {w v : List Char} {ws : List (List Char)} (hw : ∀ u ∈ w :: ws ++ [v], Word u)
    {pre post : List Leaf} {l : Leaf}
    (he : ls ++ firstLeaf depth newLine w :: (ws ++ [v]).map spaceLeaf = pre ++ l :: post)
    (hgap : l.gap = [' '])
    (hoffset : ((b.writeWords len depth (joinWords (w :: ws) ++ ' ' :: v) newLine).size : Int) -
        (joinWords (w :: ws) ++ ' ' :: v).length + (joinWords (w :: ws)).length =
      (spread (pre.map Leaf.stretch)).length) : l = spaceLeaf v ∧ post = [] := by
  have hsplit : ls ++ firstLeaf depth newLine w :: (ws ++ [v]).map spaceLeaf =
      (ls ++ firstLeaf depth newLine w :: ws.map spaceLeaf) ++ spaceLeaf v :: [] := by simp
  have hplace : spread ((ls ++ firstLeaf depth newLine w :: ws.map spaceLeaf).map Leaf.stretch) =
      spread (ls.map Leaf.stretch ++ lineOf depth newLine (w :: ws)) := by
    rw [← map_laidLeaf_lineOf, List.map_append, map_stretch_laidLeaf]
  -- Before both spaces stands as much text, so they are one.
  rw [hholds.offset_writeWords len depth (by simp) hw newLine, ← hplace] at hoffset
  obtain ⟨hl, hpost⟩ := eq_of_offset (hsplit.symm.trans he) (by simp [spaceLeaf]) (by simp [hgap])
    (Int.ofNat_inj.1 hoffset)
  exact ⟨hl.symm, hpost.symm⟩

theorem writeWord (h : Fits len width b ls []) (hlin : Linear len) (depth : Nat) {w : List Char}
    (hw : Word w) (newLine : Bool)
    (hroom : newLine = false → Crowded ls → (reach len 0 ls + len w : Int) ≤ width) :
    Fits len width (b.writeWords len depth w newLine) (ls ++ [firstLeaf depth newLine w]) [] := by
  cases newLine with
  | true => exact h.writeLine hlin false (Text.trim_eq_self hw.startsBlank hw.endsBlank)
  | false =>
    refine h.write hlin.nil false w fun hcrowded _ => .inr ?_
    rw [Text.firstLine_of_not_mem (newline_not_mem_of_word hw)]
    exact hroom rfl hcrowded

/-- A line of text fits when its words do, and behind a crowded line its first one does too. -/
theorem writeText (h : Fits len width b ls []) (hlin : Linear len)
    (hholds : Holds b (ls.map Leaf.stretch) []) (depth : Nat) {w : List Char}
    {ws : List (List Char)} (hw : ∀ v ∈ w :: ws, Word v) (newLine : Bool)
    (hfilled : Filled len width (if newLine then 2 * depth else reach len 0 ls : Nat) (w :: ws))
    (hroom : newLine = false → Crowded ls → (reach len 0 ls + len w : Int) ≤ width) :
    Fits len width (b.writeText len depth (joinWords (w :: ws)) newLine)
      (ls ++ (lineOf depth newLine (w :: ws)).map laidLeaf) [] := by
  rw [map_laidLeaf_lineOf]
  rcases List.eq_nil_or_concat ws with rfl | ⟨ws, v, rfl⟩
  · have hword := hw w List.mem_cons_self
    rw [joinWords, Buffer.writeText_of_word len depth b hword]
    exact h.writeWord hlin depth hword newLine hroom
  · rw [List.concat_eq_append] at hw hfilled ⊢
    have hv : Word v := hw v (by simp)
    have hline : joinWords (w :: (ws ++ [v])) = joinWords (w :: ws) ++ ' ' :: v := by
      rw [← List.cons_append, joinWords_append_singleton (by simp)]
    have hcolumn := column_writeWords hlin depth b (trim_joinWords hw)
      (newline_not_mem_joinWords hw) newLine
    rw [hline] at hcolumn ⊢
    rw [Buffer.writeText_append len depth b _ hv]
    refine ⟨h.fitting.append (fitting_line hlin hw hfilled) fun _ hold =>
        .inl (lineEnd_line hlin hw (by simp) hfilled hold), rfl, fun _ => ?_, fun _ _ => by simp,
      fun k hk pre l post he hgap hoffset => ?_⟩
    · rw [reach_append, reach_line hlin hw, hline, ← h.column rfl]
      exact hcolumn
    · obtain rfl := Option.some.inj hk
      obtain ⟨rfl, rfl⟩ := last_space hholds hw he hgap hoffset
      exact ⟨newline_not_mem_of_word hv, by simp⟩

theorem writeLines (h : Fits len width b ls []) (hlin : Linear len)
    (hholds : Holds b (ls.map Leaf.stretch) []) (depth : Nat) {groups : List (List (List Char))}
    (hne : ∀ g ∈ groups, g ≠ []) (hw : ∀ g ∈ groups, ∀ w ∈ g, Word w)
    (hfilled : ∀ g ∈ groups, Filled len width (2 * depth : Nat) g) :
    Fits len width ((groups.map joinWords).foldl (fun b l => b.writeText len depth l true) b)
      (ls ++ (groups.flatMap (lineOf depth true)).map laidLeaf) [] := by
  induction groups generalizing b ls with
  | nil => simpa using h
  | cons g groups ih =>
    cases g with
    | nil => exact absurd rfl (hne [] List.mem_cons_self)
    | cons w ws =>
      have hwords := hw _ List.mem_cons_self
      have hline := h.writeText hlin hholds depth hwords true (hfilled _ List.mem_cons_self)
        (by simp)
      have hheld := hholds.writeText len depth (by simp) hwords true
      have hlines := ih hline (by rwa [List.map_append, map_stretch_laidLeaf])
        (fun g hg => hne g (List.mem_cons_of_mem _ hg))
        (fun g hg => hw g (List.mem_cons_of_mem _ hg))
        (fun g hg => hfilled g (List.mem_cons_of_mem _ hg))
      rwa [List.append_assoc, ← List.map_append] at hlines

theorem writeWrapped (h : Fits len width b ls []) (hlin : Linear len)
    (hholds : Holds b (ls.map Leaf.stretch) []) (depth : Nat) (newLine : Bool) {w : List Char}
    {ws : List (List Char)} {groups : List (List (List Char))}
    (hne : ∀ g ∈ groups, g ≠ []) (hw : ∀ g ∈ (w :: ws) :: groups, ∀ v ∈ g, Word v)
    (hfirst : Filled len width (if newLine then 2 * depth else reach len 0 ls : Nat) (w :: ws))
    (hfilled : ∀ g ∈ groups, Filled len width (2 * depth : Nat) g)
    (hroom : newLine = false → Crowded ls → (reach len 0 ls + len w : Int) ≤ width) :
    Fits len width (b.writeWrapped len depth newLine (w :: ws) groups)
      (ls ++ (lineOf depth newLine (w :: ws) ++ groups.flatMap (lineOf depth true)).map laidLeaf)
      [] := by
  have hwords := hw _ List.mem_cons_self
  have hline := h.writeText hlin hholds depth hwords newLine hfirst hroom
  have hheld := hholds.writeText len depth (by simp) hwords newLine
  have hlines := hline.writeLines hlin (by rwa [List.map_append, map_stretch_laidLeaf]) depth hne
    (fun g hg => hw g (List.mem_cons_of_mem _ hg)) hfilled
  rwa [List.append_assoc, ← List.map_append] at hlines

theorem blankLine (h : Fits len width b ls []) : Fits len width (b.blankLine len) ls ['\n'] :=
  ⟨h.fitting, rfl, by simp, by simp, fun k hk => by simp [Buffer.blankLine, Buffer.write] at hk⟩

end Fits

end ErbLayout.Layout
