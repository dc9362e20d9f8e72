import ErbLayout.Proofs.Layout.Renamed
/-!
Two buffers that hold the same text, up to its names, behind whatever else. Writing the same to both
keeps them so: their lines break at the same places.
-/

namespace ErbLayout.Layout

open Placeholder (Glossary HeadFree LastFree Renamed headFree_cons)
open Text (startsBlank)

variable {α : Type} {g g' : Glossary α} {len len' : Measure} {pre pre' x x' s s' : List Char}
variable {b b' : Buffer} {k k' : Option Break}

/-- The same space of two texts is breakable, or none. -/
inductive Breaks (pre pre' x x' : List Char) : Option Break → Option Break → Prop
  | none : Breaks pre pre' x x' none none
  | some {u v u' v' : List Char} (depth : Nat) : x = u ++ ' ' :: v → x' = u' ++ ' ' :: v' →
    u.length = u'.length → Breaks pre pre' x x' (some ⟨(pre ++ u).length, depth⟩)
      (some ⟨(pre' ++ u').length, depth⟩)

/-- Buffers that hold `x` behind `pre` and `x'` behind `pre'`, where `x'` is `x` renamed. -/
structure Follows (g g' : Glossary α) (pre pre' : List Char) (b b' : Buffer) (x x' : List Char) :
    Prop where
  text : b.text = pre ++ x
  text' : b'.text = pre' ++ x'
  size : b.size = b.text.length
  size' : b'.size = b'.text.length
  renamed : Renamed g g' x x'
  column : b.column = b'.column
  breaks : Breaks pre pre' x x' b.breakable b'.breakable

/-- A text that begins with no white space, where anything stands before it. -/
def Grown (pre x : List Char) : Prop := pre = [] ∨ (x ≠ [] ∧ startsBlank x = false)

theorem Breaks.append (h : Breaks pre pre' x x' k k') (s s' : List Char) :
    Breaks pre pre' (x ++ s) (x' ++ s') k k' := by
  cases h with
  | none => exact .none
  | @some u v u' v' depth hx hx' hlen =>
    subst hx hx'
    exact .some depth (List.append_assoc u (' ' :: v) s) (List.append_assoc u' (' ' :: v') s') hlen

theorem size_write (len : Measure) (h : b.size = b.text.length) (s : List Char) :
    (b.write len s).size = (b.write len s).text.length := by
  rw [Buffer.text_write, List.length_append, ← h, Buffer.write]
  split
  · simp_all
  · split <;> rfl

theorem column_write (len : Measure) (b : Buffer) {s : List Char} (h : s ≠ []) :
    (b.write len s).column =
      if '\n' ∈ s then len (Text.lastLine s) else b.column + len s := by
  rw [Buffer.write, if_neg (by simpa using h)]
  by_cases hs : '\n' ∈ s
  · rw [if_pos (by simpa using hs), if_pos hs]
  · rw [if_neg (by simpa using hs), if_neg hs]

theorem breakable_write (len : Measure) (b : Buffer) (s : List Char) :
    (b.write len s).breakable = if '\n' ∈ s then none else b.breakable := by
  rw [Buffer.write]
  by_cases hnil : s = []
  · subst hnil
    rfl
  · rw [if_neg (by simpa using hnil)]
    by_cases hs : '\n' ∈ s
    · rw [if_pos (by simpa using hs), if_pos hs]
    · rw [if_neg (by simpa using hs), if_neg hs]

theorem before_append (u v : List Char) : before (u.length : Int) (u ++ v) = u := by
  rw [before, if_pos (by omega), Int.toNat_natCast, List.take_left]

theorem after_append (u : List Char) (c : Char) (v : List Char) :
    after ((u.length : Int) + 1) (u ++ c :: v) = v := by
  rw [after, if_pos (by omega), show ((u.length : Int) + 1).toNat = u.length + 1 by omega,
    ← List.drop_drop, List.drop_left, List.drop_one, List.tail_cons]

theorem lastSpace_eq_some {line : List Char} {n : Nat} (h : lastSpace line = some n) :
    ∃ u v, line = u ++ ' ' :: v ∧ u.length = n := by
  unfold lastSpace at h
  split at h
  · simp at h
  · rename_i a c r hspan
    obtain rfl := Option.some.inj h
    rw [List.span_eq_takeWhile_dropWhile, Prod.mk.injEq] at hspan
    have hc := Placeholder.head_dropWhile (· != ' ') line.reverse c (by rw [hspan.2]; rfl)
    obtain rfl : c = ' ' := by simpa using hc
    refine ⟨r.reverse, a.reverse, ?_, List.length_reverse⟩
    rw [← List.reverse_reverse line,
      ← List.takeWhile_append_dropWhile (p := (· != ' ')) (l := line.reverse), hspan.1, hspan.2]
    simp

theorem lastSpace_eq_of_like (h : Placeholder.Like s s') : lastSpace s = lastSpace s' := by
  have hspan := (h.reverse.span (Placeholder.blind_ne (c := ' ') (by decide))).2
  unfold lastSpace
  rw [List.span_eq_takeWhile_dropWhile, List.span_eq_takeWhile_dropWhile]
  generalize s.reverse.dropWhile (· != ' ') = t at hspan ⊢
  generalize s'.reverse.dropWhile (· != ' ') = t' at hspan ⊢
  cases hspan with
  | nil => rfl
  | cons _ hrest => exact congrArg some hrest.length_eq

theorem Buffer.writeText_eq {line : List Char} {n : Nat} (h : lastSpace line = some n)
    (len : Measure) (depth : Nat) (b : Buffer) (newLine : Bool) :
    b.writeText len depth line newLine = { b.writeWords len depth line newLine with
      breakable := some ⟨((b.writeWords len depth line newLine).size : Int) - line.length + n,
        depth⟩ } := by
  rw [writeText, h]
  rfl

/-- What stands before a line of wrapped text. -/
def lead (depth : Nat) (newLine : Bool) : List Char :=
  if newLine then '\n' :: Nesting.indentOf depth else []

/-- Lines as they are written, the first on a line of its own or not. -/
def Buffer.writeAll (len : Measure) (depth : Nat) (newLine : Bool) (b : Buffer) :
    List (List Char) → Buffer
  | [] => b
  | l :: ls =>
    ls.foldl (fun b l => b.writeText len depth l true) (b.writeText len depth l newLine)

theorem Buffer.text_writeText (len : Measure) (depth : Nat) (b : Buffer) {line : List Char}
    (h : Text.trim line = line) (newLine : Bool) :
    (b.writeText len depth line newLine).text = b.text ++ (lead depth newLine ++ line) := by
  have hwords : (b.writeWords len depth line newLine).text =
      b.text ++ (lead depth newLine ++ line) := by
    cases newLine with
    | true =>
      have hline : (b.writeLine len depth line).text = b.text ++ indented depth line :=
        text_writeLine len depth b line
      rwa [indented, h] at hline
    | false => exact text_write len b line
  cases hspace : lastSpace line with
  | none =>
    rw [writeText, hspace]
    exact hwords
  | some n =>
    rw [writeText_eq hspace]
    exact hwords

theorem Buffer.exists_text_writeAll (len : Measure) (depth : Nat) {lines : List (List Char)}
    (hne : lines ≠ []) (h : ∀ l ∈ lines, Text.trim l = l) (b : Buffer) (newLine : Bool) :
    ∃ u, ∃ l ∈ lines, (b.writeAll len depth newLine lines).text = u ++ l := by
  induction lines generalizing b newLine with
  | nil => exact absurd rfl hne
  | cons l ls ih =>
    obtain ⟨hl, hls⟩ := List.forall_mem_cons.1 h
    cases ls with
    | nil =>
      refine ⟨b.text ++ lead depth newLine, l, List.mem_cons_self, ?_⟩
      rw [List.append_assoc]
      exact text_writeText len depth b hl newLine
    | cons m ls =>
      obtain ⟨u, k, hk, he⟩ := ih (by simp) hls (b.writeText len depth l newLine) true
      exact ⟨u, k, List.mem_cons_of_mem l hk, he⟩

section LineFeed

variable (hnil : len [] = 0) (b : Buffer)
include hnil

theorem column_blankLine : (b.blankLine len).column = 0 := by
  rw [Buffer.blankLine, column_write len b (by simp), if_pos (by simp)]
  exact hnil

/-- A line feed may be written first. -/
theorem write_lineFeed (s : List Char) :
    b.write len ('\n' :: s) = (b.blankLine len).write len s := by
  have hfirst : b.write len ('\n' :: s) = ⟨s.reverse ++ '\n' :: b.written,
      b.size + (s.length + 1), len (Text.lastLine ('\n' :: s)), none⟩ := by
    simp [Buffer.write]
  have hblank : b.blankLine len = ⟨'\n' :: b.written, b.size + 1, len [], none⟩ := rfl
  have hsize : b.size + (s.length + 1) = b.size + 1 + s.length := by omega
  rw [hfirst, hblank, Buffer.write, hsize]
  by_cases hs : s = []
  · subst hs
    rfl
  · rw [if_neg (by simpa using hs)]
    by_cases hmem : '\n' ∈ s
    · have hlast : Text.lastLine ('\n' :: s) = Text.lastLine s :=
        Text.lastLine_append_of_mem ['\n'] hmem
      rw [if_pos (by simpa using hmem), hlast]
    · rw [if_neg (by simpa using hmem), ← List.nil_append ('\n' :: s),
        Text.lastLine_append_cons _ hmem, hnil, Nat.zero_add]

theorem writeText_lineFeed {line : List Char} (htrim : Text.trim line = line) :
    b.writeText len 0 line true = (b.blankLine len).writeText len 0 line false := by
  have hwords : b.writeWords len 0 line true = (b.blankLine len).writeWords len 0 line false := by
    change b.write len ('\n' :: Text.trim line) = (b.blankLine len).write len line
    rw [htrim, write_lineFeed hnil]
  cases hspace : lastSpace line with
  | none =>
    rw [Buffer.writeText, Buffer.writeText, hspace]
    exact hwords
  | some n => rw [Buffer.writeText_eq hspace, Buffer.writeText_eq hspace, hwords]

theorem writeAll_lineFeed {lines : List (List Char)} (hne : lines ≠ [])
    (hlines : ∀ l ∈ lines, Text.trim l = l) :
    b.writeAll len 0 true lines = (b.blankLine len).writeAll len 0 false lines := by
  cases lines with
  | nil => exact absurd rfl hne
  | cons l ls =>
    rw [Buffer.writeAll, Buffer.writeAll,
      writeText_lineFeed hnil b (hlines l List.mem_cons_self)]

end LineFeed

theorem Grown.append (h : Grown pre x) (s : List Char) : Grown pre (x ++ s) := by
  rcases h with h | ⟨hne, hstart⟩
  · exact .inl h
  · exact .inr ⟨by simp [hne], by rw [Text.startsBlank_append hne, hstart]⟩

theorem Grown.of_space {u v : List Char} (h : Grown pre (u ++ ' ' :: v)) (w : List Char) :
    Grown pre (u ++ w) := by
  refine h.imp id fun hsolid => ?_
  have hblank := hsolid.2
  have hne : u ≠ [] := by
    rintro rfl
    simp [startsBlank, Text.isBlank_space] at hblank
  rw [Text.startsBlank_append hne] at hblank
  exact ⟨by simp [hne], by rw [Text.startsBlank_append hne, hblank]⟩

namespace Follows

theorem lastFree (h : Follows g g' pre pre' b b' x x') (hb : LastFree b.text) : LastFree x := by
  by_cases hnil : x = []
  · simp [hnil, LastFree, HeadFree]
  · rw [h.text] at hb
    exact hb.of_append hnil

theorem break_parts (h : Follows g g' pre pre' b b' x x') {u v u' v' : List Char}
    (hx : x = u ++ ' ' :: v) (hx' : x' = u' ++ ' ' :: v') (hu : u.length = u'.length) :
    Renamed g g' u u' ∧ Renamed g g' v v' := by
  have hr := h.renamed
  rw [hx] at hr
  obtain ⟨w, z, hsplit, hw, hz⟩ := hr.split_cons (by decide)
  rw [hx'] at hsplit
  obtain ⟨rfl, hcons⟩ := List.append_inj hsplit (hu.symm.trans hw.like.length_eq)
  obtain ⟨-, rfl⟩ := List.cons.inj hcons
  exact ⟨hw, hz⟩

variable (h : Follows g g' pre pre' b b' x x') (hlen : Agree g g' len len')
include h hlen

theorem write (hs : Renamed g g' s s') (hseam : LastFree x ∨ HeadFree s) :
    Follows g g' pre pre' (b.write len s) (b'.write len' s') (x ++ s) (x' ++ s') := by
  have hmem : '\n' ∈ s ↔ '\n' ∈ s' :=
    ⟨hs.like.mem (by decide), hs.like.symm.mem (by decide)⟩
  refine ⟨?_, ?_, size_write len h.size s, size_write len' h.size' s', h.renamed.append hs hseam,
    ?_, ?_⟩
  · rw [Buffer.text_write, h.text, List.append_assoc]
  · rw [Buffer.text_write, h.text', List.append_assoc]
  · by_cases hnil : s = []
    · obtain rfl := hs.like.eq_nil_iff.1 hnil
      subst hnil
      exact h.column
    · rw [column_write len b hnil, column_write len' b' fun he => hnil (hs.like.eq_nil_iff.2 he),
        h.column, hlen _ _ hs, hlen _ _ hs.lastLine]
      simp only [hmem]
  · rw [breakable_write, breakable_write]
    simp only [hmem]
    split
    · exact .none
    · exact h.breaks.append s s'

theorem writeLine (depth : Nat) (hs : Renamed g g' s s') :
    Follows g g' pre pre' (b.writeLine len depth s) (b'.writeLine len' depth s')
      (x ++ indented depth s) (x' ++ indented depth s') :=
  h.write hlen (renamed_indented depth hs) (.inr (headFree_indented depth s))

theorem blankLine :
    Follows g g' pre pre' (b.blankLine len) (b'.blankLine len') (x ++ ['\n']) (x' ++ ['\n']) :=
  h.write hlen (.cons (by decide) .nil) (.inr (headFree_cons (by decide) []))

theorem makeRoom (width needed : Int) :
    ∃ y y', Follows g g' pre pre' (b.makeRoom len width needed) (b'.makeRoom len' width needed)
      y y' ∧ (LastFree x → LastFree y) ∧ (Grown pre' x → Grown pre' y) := by
  have hbreaks := h.breaks
  unfold Buffer.makeRoom
  generalize hk : b.breakable = k at hbreaks ⊢
  generalize hk' : b'.breakable = k' at hbreaks ⊢
  cases hbreaks with
  | none => exact ⟨x, x', h, id, id⟩
  | @some u v u' v' depth hx hx' hu =>
    dsimp only
    rw [h.column]
    split
    · exact ⟨x, x', h, id, id⟩
    · obtain ⟨hu', hv'⟩ := h.break_parts hx hx' hu
      have hfree := Placeholder.free_of_allBlank (lineBreak_allBlank depth)
      have hv := (renamed_lineBreak depth).append hv' (.inl hfree.lastFree)
      rw [h.text, h.text', hx, hx', ← List.append_assoc, ← List.append_assoc, before_append,
        after_append, before_append, after_append]
      refine ⟨u ++ ('\n' :: Nesting.indentOf depth ++ v),
        u' ++ ('\n' :: Nesting.indentOf depth ++ v'), ⟨?_, ?_, ?_, ?_, ?_, ?_, .none⟩, ?_, ?_⟩
      · simp [Buffer.text]
      · simp [Buffer.text]
      · simp [Buffer.text]
      · simp [Buffer.text]
      · exact hu'.append hv (.inr (headFree_cons (by decide) _))
      · change len (Text.lastLine _) = len' (Text.lastLine _)
        rw [List.append_assoc (pre ++ u), List.append_assoc (pre' ++ u'),
          Text.lastLine_append_of_mem (pre ++ u) (by simp),
          Text.lastLine_append_of_mem (pre' ++ u') (by simp)]
        exact hlen _ _ hv.lastLine
      · intro hlast
        have hv₀ : LastFree v := by
          by_cases hnil : v = []
          · simp [hnil, LastFree, HeadFree]
          · rw [List.append_cons] at hlast
            exact hlast.of_append hnil
        exact (hfree.lastFree.append hv₀).behind (by simp) u
      · exact fun hgrown => hgrown.of_space _

theorem writeWords (depth : Nat) {line line' : List Char} (hline : Renamed g g' line line')
    (htrim : Text.trim line = line) (htrim' : Text.trim line' = line') (newLine : Bool)
    (hlast : newLine = false → LastFree x) :
    Follows g g' pre pre' (b.writeWords len depth line newLine)
      (b'.writeWords len' depth line' newLine) (x ++ lead depth newLine ++ line)
      (x' ++ lead depth newLine ++ line') := by
  rw [List.append_assoc, List.append_assoc]
  cases newLine with
  | true =>
    have hwritten := h.writeLine hlen depth hline
    rwa [indented, indented, htrim, htrim'] at hwritten
  | false => exact h.write hlen hline (.inl (hlast rfl))

/-- A line of words is written, and its last space marked. -/
theorem writeText (depth : Nat) {line line' : List Char} (hline : Renamed g g' line line')
    (htrim : Text.trim line = line) (htrim' : Text.trim line' = line') (newLine : Bool)
    (hlast : newLine = false → LastFree x) :
    Follows g g' pre pre' (b.writeText len depth line newLine)
      (b'.writeText len' depth line' newLine) (x ++ lead depth newLine ++ line)
      (x' ++ lead depth newLine ++ line') := by
  have hwords := h.writeWords hlen depth hline htrim htrim' newLine hlast
  have hsame := lastSpace_eq_of_like hline.like
  cases hspace : lastSpace line with
  | none =>
    rw [Buffer.writeText, Buffer.writeText, ← hsame, hspace]
    exact hwords
  | some n =>
    have hspace' := hsame.symm.trans hspace
    rw [Buffer.writeText_eq hspace, Buffer.writeText_eq hspace', hwords.size, hwords.size',
      hwords.text, hwords.text']
    obtain ⟨u, v, rfl, rfl⟩ := lastSpace_eq_some hspace
    obtain ⟨u', v', rfl, hu⟩ := lastSpace_eq_some hspace'
    refine ⟨hwords.text, hwords.text', hwords.size, hwords.size', hwords.renamed,
      hwords.column, ?_⟩
    have hoffset (p y u v : List Char) :
        ((p ++ (y ++ lead depth newLine ++ (u ++ ' ' :: v))).length : Int)
          - (u ++ ' ' :: v).length + u.length = ((p ++ (y ++ lead depth newLine ++ u)).length : Int) := by
      simp only [List.length_append]
      omega
    have hoffset' := hoffset pre' x' u' v'
    rw [hu] at hoffset'
    rw [hoffset, hoffset']
    refine .some depth (List.append_assoc _ u _).symm (List.append_assoc _ u' _).symm ?_
    simp only [List.length_append, h.renamed.like.length_eq, hu]

section Lines

variable {lines lines' : List (List Char)} (hlines : List.Forall₂ (Renamed g g') lines lines')
variable (htrim : ∀ l ∈ lines, Text.trim l = l) (htrim' : ∀ l ∈ lines', Text.trim l = l)
include hlines htrim htrim'

theorem writeLines (depth : Nat) :
    ∃ z z', Follows g g' pre pre' (lines.foldl (fun b l => b.writeText len depth l true) b)
      (lines'.foldl (fun b l => b.writeText len' depth l true) b') (x ++ z) (x' ++ z') := by
  induction hlines generalizing b b' x x' with
  | nil => exact ⟨[], [], by simpa using h⟩
  | cons hl _ ih =>
    obtain ⟨hl₁, hls⟩ := List.forall_mem_cons.1 htrim
    obtain ⟨hl₁', hls'⟩ := List.forall_mem_cons.1 htrim'
    obtain ⟨z, z', hz⟩ := ih (h.writeText hlen depth hl hl₁ hl₁' true (by simp)) hls hls'
    exact ⟨_, _, by simpa using hz⟩

theorem writeAll (depth : Nat) (newLine : Bool) (hlast : newLine = false → LastFree x) :
    ∃ z z', Follows g g' pre pre' (b.writeAll len depth newLine lines)
      (b'.writeAll len' depth newLine lines') (x ++ z) (x' ++ z') ∧
      (newLine = false → ∀ l ∈ lines.head?, l <+: z) := by
  cases hlines with
  | nil => exact ⟨[], [], by simpa [Buffer.writeAll] using h, by simp⟩
  | @cons l l' ls ls' hl hls =>
    obtain ⟨hl₁, hls₁⟩ := List.forall_mem_cons.1 htrim
    obtain ⟨hl₁', hls₁'⟩ := List.forall_mem_cons.1 htrim'
    obtain ⟨z, z', hz⟩ := (h.writeText hlen depth hl hl₁ hl₁' newLine hlast).writeLines hlen hls
      hls₁ hls₁' depth
    refine ⟨lead depth newLine ++ l ++ z, lead depth newLine ++ l' ++ z', ?_, ?_⟩
    · simpa only [Buffer.writeAll, List.append_assoc] using hz
    rintro rfl m hm
    obtain rfl := Option.some.inj hm
    simp [lead]

end Lines

end Follows

end ErbLayout.Layout
