import Mathlib.Data.List.TakeDrop
import ErbLayout.Layout.Buffer
import ErbLayout.Proofs.Text.Spread
/-!
What a buffer holds, as stretches of text with white space between them. Writing adds stretches at
the end, and making room turns the space before one stretch into a line break.
-/

namespace ErbLayout.Layout

open Text (spread Word allBlank joinWords)

theorem joinWords_append_singleton {ws : List (List Char)} (h : ws ≠ []) (w : List Char) :
    joinWords (ws ++ [w]) = joinWords ws ++ ' ' :: w := by
  induction ws with
  | nil => exact absurd rfl h
  | cons v ws ih =>
    cases ws with
    | nil => rfl
    | cons u ws =>
      rw [List.cons_append, List.cons_append, Text.joinWords_cons_cons, ← List.cons_append,
        ih (by simp), Text.joinWords_cons_cons, List.append_assoc, List.cons_append]

theorem spread_words (w : List Char) (ws : List (List Char)) (gap : List Char) :
    spread ((gap, w) :: ws.map fun v => ([' '], v)) = gap ++ joinWords (w :: ws) := by
  induction ws generalizing gap w with
  | nil => simp [joinWords]
  | cons v ws ih =>
    rw [List.map_cons, Text.spread_cons, ih, Text.joinWords_cons_cons]
    simp

theorem ne_space_of_word {w : List Char} (h : Word w) : ∀ c ∈ w.reverse, (c != ' ') = true := by
  intro c hc
  rw [bne_iff_ne]
  rintro rfl
  have hspace := h.solid ' ' (List.mem_reverse.1 hc)
  rw [Text.isBlank_space] at hspace
  exact absurd hspace (by simp)

theorem lastSpace_of_word {w : List Char} (h : Word w) : lastSpace w = none := by
  have hspan : w.reverse.span (· != ' ') = (w.reverse, []) := by
    rw [List.span_eq_takeWhile_dropWhile, List.takeWhile_eq_self_iff.2 (ne_space_of_word h),
      List.dropWhile_eq_nil_iff.2 (ne_space_of_word h)]
  rw [lastSpace, hspan]

theorem lastSpace_append {w : List Char} (h : Word w) (s : List Char) :
    lastSpace (s ++ ' ' :: w) = some s.length := by
  have hspan : (s ++ ' ' :: w).reverse.span (· != ' ') = (w.reverse, ' ' :: s.reverse) := by
    rw [List.span_eq_takeWhile_dropWhile, List.reverse_append, List.reverse_cons,
      List.append_assoc, List.takeWhile_append_of_pos (ne_space_of_word h),
      List.dropWhile_append_of_pos (ne_space_of_word h)]
    simp
  rw [lastSpace, hspan]
  simp

/-- A buffer holds stretches, and blank lines after them. A breakable space is all of the white
space before a stretch. -/
structure Holds (b : Buffer) (ps : List (List Char × List Char)) (tail : List Char) : Prop where
  text : b.text = spread ps ++ tail
  size : b.size = b.text.length
  breakable : ∀ k, b.breakable = some k → ∃ pre w post, ps = pre ++ ([' '], w) :: post ∧
    k.offset = (spread pre).length

/-- The same stretches, of which one or the other stands behind other white space. -/
def Regapped (ps ps' : List (List Char × List Char)) : Prop :=
  List.Forall₂ (fun p p' => p'.2 = p.2 ∧
    (p'.1 = p.1 ∨ p.1 ≠ [] ∧ p'.1 ≠ [] ∧ allBlank p'.1 = true)) ps ps'

theorem Regapped.refl (ps : List (List Char × List Char)) : Regapped ps ps :=
  List.forall₂_same.2 fun _ _ => ⟨rfl, .inl rfl⟩

theorem holds_empty : Holds {} [] [] := ⟨rfl, rfl, fun k h => by simp at h⟩

namespace Holds

variable {b : Buffer} {ps : List (List Char × List Char)} {tail : List Char}

theorem write (h : Holds b ps tail) (len : Measure) (qs : List (List Char × List Char))
    {s : List Char} (hs : spread qs = tail ++ s) : Holds (b.write len s) (ps ++ qs) [] := by
  have htext : (b.write len s).text = spread (ps ++ qs) ++ [] := by
    rw [Buffer.text_write, h.text, Text.spread_append, hs, List.append_nil, List.append_assoc]
  have hkept : ∀ k, b.breakable = some k → ∃ pre w post, ps ++ qs = pre ++ ([' '], w) :: post ∧
      k.offset = (spread pre).length := by
    intro k hk
    obtain ⟨pre, w, post, rfl, hoffset⟩ := h.breakable k hk
    exact ⟨pre, w, post ++ qs, by simp, hoffset⟩
  refine ⟨htext, ?_, ?_⟩
  · rw [Buffer.text_write, List.length_append, ← h.size, Buffer.write]
    split
    · simp_all
    · split <;> rfl
  · rw [Buffer.write]
    split
    · exact hkept
    · split
      · intro k hk
        simp at hk
      · exact hkept

theorem writeLine (h : Holds b ps tail) (len : Measure) (qs : List (List Char × List Char))
    {depth : Nat} {s : List Char} (hs : spread qs = tail ++ indented depth s) :
    Holds (b.writeLine len depth s) (ps ++ qs) [] := h.write len qs hs

theorem blankLine (h : Holds b ps tail) (len : Measure) :
    Holds (b.blankLine len) ps (tail ++ ['\n']) := by
  refine ⟨?_, ?_, ?_⟩
  · rw [Buffer.text_blankLine, h.text, List.append_assoc]
  · rw [Buffer.text_blankLine, List.length_append, ← h.size]
    rfl
  · intro k hk
    simp [Buffer.blankLine, Buffer.write] at hk

end Holds

theorem indentOf_allBlank (depth : Nat) : allBlank (Nesting.indentOf depth) = true := by
  simp [allBlank, Nesting.indentOf, Text.isBlank_space]

/-- What making room does to the stretches: nothing when what is needed fits or no space is
breakable; else the white space before one stretch becomes a line break. -/
inductive Roomed (len : Measure) (width needed : Int) (b b' : Buffer)
    (ps : List (List Char × List Char)) : List (List Char × List Char) → Prop
  | kept : b' = b → (∀ k, b.breakable = some k → b.column + needed ≤ width) →
    Roomed len width needed b b' ps ps
  | broken {k : Break} {pre post : List (List Char × List Char)} {w : List Char} :
    b.breakable = some k → k.offset = (spread pre).length → ps = pre ++ ([' '], w) :: post →
    b'.breakable = none → b'.column = len (Text.lastLine b'.text) →
    Roomed len width needed b b' ps (pre ++ ('\n' :: Nesting.indentOf k.depth, w) :: post)

theorem lineBreak_allBlank (depth : Nat) : allBlank ('\n' :: Nesting.indentOf depth) = true :=
  indentOf_allBlank depth

theorem Roomed.regapped {len : Measure} {width needed : Int} {b b' : Buffer}
    {ps ps' : List (List Char × List Char)} (h : Roomed len width needed b b' ps ps') :
    Regapped ps ps' := by
  cases h with
  | kept => exact .refl ps
  | broken hk hoffset he hnone hcolumn =>
    rw [he]
    exact List.rel_append (Regapped.refl _) (.cons ⟨rfl, .inr ⟨by simp, by simp,
      lineBreak_allBlank _⟩⟩ (Regapped.refl _))

theorem Holds.makeRoom {b : Buffer} {ps : List (List Char × List Char)} {tail : List Char}
    (h : Holds b ps tail) (len : Measure) (width needed : Int) :
    ∃ ps', Holds (b.makeRoom len width needed) ps' tail ∧
      Roomed len width needed b (b.makeRoom len width needed) ps ps' := by
  unfold Buffer.makeRoom
  split
  · rename_i hnone
    exact ⟨ps, h, .kept rfl fun k hk => by simp [hnone] at hk⟩
  · rename_i k hk
    split
    · rename_i hfits
      exact ⟨ps, h, .kept rfl fun _ _ => hfits⟩
    · obtain ⟨pre, w, post, rfl, hoffset⟩ := h.breakable k hk
      have htext : b.text = spread pre ++ ' ' :: (w ++ spread post ++ tail) := by
        rw [h.text]
        simp
      have hbefore : before k.offset b.text = spread pre := by
        rw [before, hoffset, if_pos (by omega), htext]
        simp
      have hafter : after (k.offset + 1) b.text = w ++ spread post ++ tail := by
        rw [after, hoffset, if_pos (by omega), htext,
          show ((spread pre).length + 1 : Int).toNat = (spread pre).length + 1 by omega,
          ← List.drop_drop]
        simp
      refine ⟨_, ⟨?_, ?_, ?_⟩, .broken hk hoffset rfl rfl ?_⟩
      · change (before k.offset b.text ++ '\n' :: Nesting.indentOf k.depth ++
          after (k.offset + 1) b.text).reverse.reverse = _
        rw [List.reverse_reverse, hbefore, hafter]
        simp
      · simp [Buffer.text]
      · intro k' hk'
        simp at hk'
      · simp [Buffer.text]

theorem startsBlank_joinWords {w : List Char} {ws : List (List Char)} (h : Word w) :
    Text.startsBlank (joinWords (w :: ws)) = false := by
  cases ws with
  | nil => exact h.startsBlank
  | cons v vs => rw [Text.joinWords_cons_cons, Text.startsBlank_append h.ne_nil, h.startsBlank]

theorem endsBlank_joinWords {ws : List (List Char)} (h : ∀ w ∈ ws, Word w) :
    Text.endsBlank (joinWords ws) = false := by
  rcases List.eq_nil_or_concat ws with rfl | ⟨ws, w, rfl⟩
  · rfl
  · rw [List.concat_eq_append] at h ⊢
    have hw := h w (by simp)
    by_cases hnil : ws = []
    · subst hnil
      exact hw.endsBlank
    · rw [joinWords_append_singleton hnil, Text.endsBlank_append (by simp),
        ← List.singleton_append, Text.endsBlank_append hw.ne_nil, hw.endsBlank]

theorem trim_joinWords {ws : List (List Char)} (h : ∀ w ∈ ws, Word w) :
    Text.trim (joinWords ws) = joinWords ws := by
  refine Text.trim_eq_self ?_ (endsBlank_joinWords h)
  cases ws with
  | nil => rfl
  | cons w ws => exact startsBlank_joinWords (h w List.mem_cons_self)

/-- The stretches of a line of words, on a line of its own or not. -/
def lineOf (depth : Nat) (newLine : Bool) : List (List Char) → List (List Char × List Char)
  | [] => []
  | w :: ws =>
    (if newLine then '\n' :: Nesting.indentOf depth else [], w) :: ws.map fun v => ([' '], v)

theorem lineOf_concat (depth : Nat) (newLine : Bool) {g : List (List Char)} (hg : g ≠ [])
    (v : List Char) : lineOf depth newLine (g ++ [v]) = lineOf depth newLine g ++ [([' '], v)] := by
  cases g with
  | nil => exact absurd rfl hg
  | cons w ws => simp [lineOf]

theorem spread_lineOf (depth : Nat) (newLine : Bool) {g : List (List Char)} (hg : g ≠ [])
    (hw : ∀ v ∈ g, Word v) : spread (lineOf depth newLine g) =
      if newLine then indented depth (joinWords g) else joinWords g := by
  cases g with
  | nil => exact absurd rfl hg
  | cons w ws =>
    rw [lineOf, spread_words]
    cases newLine with
    | true => rw [if_pos rfl, if_pos rfl, indented, trim_joinWords hw]
    | false => rfl

/-- A line of text as it is written, before its last space is marked. -/
def Buffer.writeWords (len : Measure) (depth : Nat) (b : Buffer) (line : List Char)
    (newLine : Bool) : Buffer :=
  if newLine then b.writeLine len depth line else b.write len line

theorem Buffer.writeText_of_word (len : Measure) (depth : Nat) (b : Buffer) {w : List Char}
    (hw : Word w) (newLine : Bool) :
    b.writeText len depth w newLine = b.writeWords len depth w newLine := by
  rw [writeText, lastSpace_of_word hw]
  rfl

theorem Buffer.writeText_append (len : Measure) (depth : Nat) (b : Buffer) (s : List Char)
    {w : List Char} (hw : Word w) (newLine : Bool) :
    b.writeText len depth (s ++ ' ' :: w) newLine =
      { b.writeWords len depth (s ++ ' ' :: w) newLine with
        breakable := some ⟨((b.writeWords len depth (s ++ ' ' :: w) newLine).size : Int) -
          (s ++ ' ' :: w).length + s.length, depth⟩ } := by
  rw [writeText, lastSpace_append hw]
  rfl

theorem Holds.writeWords {b : Buffer} {ps : List (List Char × List Char)} (h : Holds b ps [])
    (len : Measure) (depth : Nat) {g : List (List Char)} (hg : g ≠ []) (hw : ∀ v ∈ g, Word v)
    (newLine : Bool) : Holds (b.writeWords len depth (joinWords g) newLine)
      (ps ++ lineOf depth newLine g) [] := by
  have hspread := spread_lineOf depth newLine hg hw
  unfold Buffer.writeWords
  cases newLine with
  | true => exact h.writeLine len _ hspread
  | false => exact h.write len _ hspread

theorem Holds.offset_writeWords {b : Buffer} {ps : List (List Char × List Char)} (h : Holds b ps [])
    (len : Measure) (depth : Nat) {g : List (List Char)} (hg : g ≠ []) {v : List Char}
    (hw : ∀ u ∈ g ++ [v], Word u) (newLine : Bool) :
    ((b.writeWords len depth (joinWords g ++ ' ' :: v) newLine).size : Int) -
        (joinWords g ++ ' ' :: v).length + (joinWords g).length =
      (spread (ps ++ lineOf depth newLine g)).length := by
  have hline := h.writeWords len depth (by simp) hw newLine
  rw [joinWords_append_singleton hg, lineOf_concat depth newLine hg v, ← List.append_assoc] at hline
  have hsize := hline.size
  rw [hline.text, Text.spread_append] at hsize
  simp only [Text.spread_cons, Text.spread_nil, List.append_nil, List.length_append,
    List.length_cons, List.length_nil] at hsize ⊢
  rw [hsize]
  push_cast
  omega

theorem Holds.writeText {b : Buffer} {ps : List (List Char × List Char)} (h : Holds b ps [])
    (len : Measure) (depth : Nat) {g : List (List Char)} (hg : g ≠ []) (hw : ∀ v ∈ g, Word v)
    (newLine : Bool) : Holds (b.writeText len depth (joinWords g) newLine)
      (ps ++ lineOf depth newLine g) [] := by
  have hline := h.writeWords len depth hg hw newLine
  rcases List.eq_nil_or_concat g with rfl | ⟨g, v, rfl⟩
  · exact absurd rfl hg
  · rw [List.concat_eq_append] at hw hline ⊢
    by_cases hnil : g = []
    · subst hnil
      rw [List.nil_append, joinWords, Buffer.writeText_of_word len depth b (hw v (by simp))]
      exact hline
    · have hoffset := h.offset_writeWords len depth hnil hw newLine
      rw [joinWords_append_singleton hnil] at hline ⊢
      rw [Buffer.writeText_append len depth b _ (hw v (by simp))]
      refine ⟨hline.text, hline.size, fun k hk => ?_⟩
      simp only [Option.some.injEq] at hk
      subst hk
      refine ⟨ps ++ lineOf depth newLine g, v, [], ?_, hoffset⟩
      rw [lineOf_concat depth newLine hnil, List.append_assoc]

/-- A word of wrapped text behind white space. -/
structure Behind (w : List Char) (p : List Char × List Char) : Prop where
  text : p.2 = w
  apart : p.1 ≠ []
  blank : allBlank p.1 = true

theorem behind_space (ws : List (List Char)) :
    List.Forall₂ Behind ws (ws.map fun v => ([' '], v)) := by
  induction ws with
  | nil => exact .nil
  | cons w ws ih => exact .cons ⟨rfl, by simp, rfl⟩ ih

theorem behind_lines (depth : Nat) (groups : List (List (List Char))) :
    List.Forall₂ Behind groups.flatten (groups.flatMap (lineOf depth true)) := by
  induction groups with
  | nil => exact .nil
  | cons g groups ih =>
    refine List.rel_append ?_ ih
    cases g with
    | nil => exact .nil
    | cons w ws => exact .cons ⟨rfl, by simp, lineBreak_allBlank depth⟩ (behind_space ws)

theorem Holds.writeLines {b : Buffer} {ps : List (List Char × List Char)} (h : Holds b ps [])
    (len : Measure) (depth : Nat) {groups : List (List (List Char))}
    (hne : ∀ g ∈ groups, g ≠ []) (hw : ∀ g ∈ groups, ∀ w ∈ g, Word w) :
    Holds ((groups.map joinWords).foldl (fun b l => b.writeText len depth l true) b)
      (ps ++ groups.flatMap (lineOf depth true)) [] := by
  induction groups generalizing b ps with
  | nil => simpa using h
  | cons g groups ih =>
    have hline := h.writeText len depth (hne g List.mem_cons_self) (hw g List.mem_cons_self) true
    have hlines := ih hline (fun g hg => hne g (List.mem_cons_of_mem _ hg))
      (fun g hg => hw g (List.mem_cons_of_mem _ hg))
    rwa [List.append_assoc] at hlines

/-- Wrapped text as it is written: the first line on a line of its own or not, the others on lines
of their own. -/
def Buffer.writeWrapped (len : Measure) (depth : Nat) (newLine : Bool) (b : Buffer)
    (g : List (List Char)) (groups : List (List (List Char))) : Buffer :=
  (groups.map joinWords).foldl (fun b l => b.writeText len depth l true)
    (b.writeText len depth (joinWords g) newLine)

theorem Holds.writeWrapped {b : Buffer} {ps : List (List Char × List Char)} (h : Holds b ps [])
    (len : Measure) (depth : Nat) (newLine : Bool) {g : List (List Char)}
    {groups : List (List (List Char))} (hne : ∀ g' ∈ g :: groups, g' ≠ [])
    (hw : ∀ g' ∈ g :: groups, ∀ w ∈ g', Word w) :
    Holds (b.writeWrapped len depth newLine g groups)
      (ps ++ (lineOf depth newLine g ++ groups.flatMap (lineOf depth true))) [] := by
  have hline := h.writeText len depth (hne g List.mem_cons_self) (hw g List.mem_cons_self) newLine
  have hlines := hline.writeLines len depth (fun g hg => hne g (List.mem_cons_of_mem _ hg))
    (fun g hg => hw g (List.mem_cons_of_mem _ hg))
  rwa [List.append_assoc] at hlines

/-- Wrapped text is its words, each behind white space, but perhaps for the first one. -/
theorem exists_wrapped (depth : Nat) (newLine : Bool) {g : List (List Char)} (hg : g ≠ [])
    (groups : List (List (List Char))) :
    ∃ w ws gap qs, (g :: groups).flatten = w :: ws ∧
      lineOf depth newLine g ++ groups.flatMap (lineOf depth true) = (gap, w) :: qs ∧
      allBlank gap = true ∧ (gap ≠ [] ↔ newLine = true) ∧ List.Forall₂ Behind ws qs := by
  cases g with
  | nil => exact absurd rfl hg
  | cons w ws =>
    refine ⟨w, ws ++ groups.flatten, _, _, rfl, rfl, ?_, ?_,
      List.rel_append (behind_space ws) (behind_lines depth groups)⟩
    · cases newLine with
      | true => exact lineBreak_allBlank depth
      | false => rfl
    · cases newLine <;> simp

/-- Before one place of the stretches there is only so much. -/
theorem eq_of_length_spread {pre pre' post post' : List (List Char × List Char)} {w w' : List Char}
    (h : pre ++ ([' '], w) :: post = pre' ++ ([' '], w') :: post')
    (hlen : (spread pre).length = (spread pre').length) : pre = pre' := by
  rcases List.append_eq_append_iff.1 h with ⟨x, rfl, hx⟩ | ⟨x, rfl, hx⟩
  · cases x with
    | nil => exact (List.append_nil pre).symm
    | cons p x =>
      obtain ⟨rfl, -⟩ := List.cons.inj hx
      simp at hlen
  · cases x with
    | nil => exact List.append_nil pre'
    | cons p x =>
      obtain ⟨rfl, -⟩ := List.cons.inj hx
      simp at hlen

/-- A place behind which the rest of the stretches begins with a space, at or behind their first
part, is a place of the second part. -/
theorem length_le_of_spread {ps qs pre post : List (List Char × List Char)} {w : List Char}
    (h : ps ++ qs = pre ++ ([' '], w) :: post) (hlen : (spread ps).length ≤ (spread pre).length) :
    ps.length ≤ pre.length := by
  rcases List.append_eq_append_iff.1 h with ⟨x, rfl, -⟩ | ⟨x, rfl, hx⟩
  · simp
  · cases x with
    | nil => simp
    | cons p x =>
      obtain ⟨rfl, -⟩ := List.cons.inj hx
      simp only [Text.spread_append, Text.spread_cons, List.length_append, List.length_cons] at hlen
      omega

namespace Buffer

variable (len : Measure)

theorem size_write (b : Buffer) (s : List Char) : (b.write len s).size = b.size + s.length := by
  unfold write
  split
  · simp_all
  · split <;> rfl

/-- Writing marks no space. -/
theorem breakable_write {b : Buffer} {s : List Char} {k : Break}
    (h : (b.write len s).breakable = some k) : b.breakable = some k := by
  unfold write at h
  split at h
  · exact h
  · split at h
    · simp at h
    · exact h

theorem length_le_size_writeWords {depth : Nat} {b : Buffer} {line : List Char}
    (hl : Text.trim line = line) (newLine : Bool) :
    b.size + line.length ≤ (b.writeWords len depth line newLine).size := by
  unfold writeWords
  cases newLine with
  | true =>
    rw [if_pos rfl, writeLine, size_write, indented, hl]
    simp only [List.length_cons, List.length_append, List.cons_append]
    omega
  | false => rw [if_neg (by simp), size_write]

/-- The mark that a line of text leaves is an old one, or it stands in the line and has its
depth. -/
theorem breakable_writeText {depth : Nat} {b : Buffer} {line : List Char}
    (hl : Text.trim line = line) {newLine : Bool} {k : Break}
    (h : (b.writeText len depth line newLine).breakable = some k) :
    b.breakable = some k ∨ k.depth = depth ∧ (b.size : Int) ≤ k.offset := by
  have hsize : b.size + line.length ≤ (b.writeWords len depth line newLine).size :=
    length_le_size_writeWords len hl newLine
  have hkept (hk : (b.writeWords len depth line newLine).breakable = some k) :
      b.breakable = some k := by
    unfold writeWords at hk
    split at hk
    · exact breakable_write len hk
    · exact breakable_write len hk
  unfold writeText at h
  cases hspace : lastSpace line with
  | none =>
    rw [hspace] at h
    exact .inl (hkept h)
  | some n =>
    rw [hspace] at h
    obtain rfl := Option.some.inj h
    refine .inr ⟨rfl, ?_⟩
    change (b.size : Int) ≤ ((b.writeWords len depth line newLine).size : Int) - line.length + n
    omega

theorem size_le_writeText {depth : Nat} {b : Buffer} {line : List Char}
    (hl : Text.trim line = line) (newLine : Bool) :
    b.size ≤ (b.writeText len depth line newLine).size := by
  have hsize : b.size + line.length ≤ (b.writeWords len depth line newLine).size :=
    length_le_size_writeWords len hl newLine
  have hwords : (b.writeText len depth line newLine).size =
      (b.writeWords len depth line newLine).size := by
    unfold writeText
    dsimp only
    split <;> rfl
  omega

theorem breakable_writeLines {depth : Nat} {groups : List (List (List Char))}
    (hw : ∀ g ∈ groups, ∀ w ∈ g, Word w) {b : Buffer} {k : Break}
    (h : ((groups.map joinWords).foldl (fun b l => b.writeText len depth l true) b).breakable =
      some k) : b.breakable = some k ∨ k.depth = depth ∧ (b.size : Int) ≤ k.offset := by
  induction groups generalizing b with
  | nil => exact .inl h
  | cons g groups ih =>
    obtain ⟨hg, hgroups⟩ := List.forall_mem_cons.1 hw
    have hline := trim_joinWords hg
    have hsize : b.size ≤ (b.writeText len depth (joinWords g) true).size :=
      size_le_writeText len hline true
    rcases ih hgroups h with hold | ⟨hdepth, hoffset⟩
    · exact breakable_writeText len hline hold
    · dsimp only at hoffset
      exact .inr ⟨hdepth, by omega⟩

theorem breakable_writeWrapped {depth : Nat} {newLine : Bool} {b : Buffer}
    {g : List (List Char)} {groups : List (List (List Char))}
    (hw : ∀ g' ∈ g :: groups, ∀ w ∈ g', Word w) {k : Break}
    (h : (b.writeWrapped len depth newLine g groups).breakable = some k) :
    b.breakable = some k ∨ k.depth = depth ∧ (b.size : Int) ≤ k.offset := by
  obtain ⟨hg, hgroups⟩ := List.forall_mem_cons.1 hw
  have hfirst := trim_joinWords hg
  have hsize : b.size ≤ (b.writeText len depth (joinWords g) newLine).size :=
    size_le_writeText len hfirst newLine
  rcases breakable_writeLines len hgroups h with hold | ⟨hdepth, hoffset⟩
  · exact breakable_writeText len hfirst hold
  · exact .inr ⟨hdepth, by omega⟩

end Buffer

end ErbLayout.Layout
