import ErbLayout.Proofs.Template.Beside
/-!
Where one template ends and another begins behind a line feed: what the second writes first it
writes as at the start of an output, on a line of its own.
-/

namespace ErbLayout.Text

variable {s t : List Char}

theorem trailingNewlines_of_solid (h : endsBlank s = false) : trailingNewlines s = 0 := by
  rw [trailingNewlines]
  rw [endsBlank] at h
  cases hs : s.reverse with
  | nil => rfl
  | cons c r =>
    have hc : isBlank c = false := by rwa [hs] at h
    rw [List.takeWhile_cons_of_neg (by simp [hc]), List.count_nil]

theorem trailingNewlines_concat (h : endsBlank s = false) :
    trailingNewlines (s ++ ['\n']) = 1 := by
  have hsplit : trailingNewlines (s ++ ['\n']) = trailingNewlines s + 1 := by
    rw [trailingNewlines, trailingNewlines, List.reverse_append, List.reverse_singleton,
      List.singleton_append, List.takeWhile_cons_of_pos (by decide), List.count_cons_self]
  rw [hsplit, trailingNewlines_of_solid h]

theorem trailingNewlines_cons (h : allBlank s = false) (c : Char) :
    trailingNewlines (c :: s) = trailingNewlines s := by
  have hshort : (s.reverse.takeWhile isBlank).length ≠ s.reverse.length := by
    intro hlen
    have hall := (List.takeWhile_prefix isBlank).eq_of_length hlen
    rw [List.takeWhile_eq_self_iff] at hall
    have hblank : allBlank s = true := List.all_eq_true.2 fun d hd => hall d (List.mem_reverse.2 hd)
    rw [hblank] at h
    exact absurd h (by simp)
  rw [trailingNewlines, trailingNewlines, List.reverse_cons, List.takeWhile_append, if_neg hshort]

end ErbLayout.Text

namespace ErbLayout.Template

open Layout Markup Placeholder
open Text (allBlank startsBlank endsBlank)

variable {α : Type} {g g' : Glossary α} {j j' : Job} {len len' : Measure} {width : Int}
variable {r r' : Run} {s t : List Char}

theorem Run.text_of_solid (r : Run) (len : Measure) (width : Int) (hne : s ≠ [])
    (h : endsBlank s = false) : r.text len width s =
      { r with
        gap := s
        last := .text
        buffer := r.wrapped len width s (startsBlank s || r.last == .control) } := by
  rw [r.text_of_not_blank len width (Text.allBlank_of_endsBlank hne h)]
  simp [Text.trailingNewlines_of_solid h]

/-- A line feed behind literal text only makes it a line of its own for what comes next. -/
theorem Run.text_concat (r : Run) (len : Measure) (width : Int) (hne : s ≠ [])
    (h : endsBlank s = false) : r.text len width (s ++ ['\n']) =
      { r.text len width s with gap := s ++ ['\n'] } := by
  have hblank : allBlank (s ++ ['\n']) = false := by
    rw [Text.allBlank_append, Text.allBlank_of_endsBlank hne h, Bool.false_and]
  have hwords : Text.words (s ++ ['\n']) = Text.words s :=
    Text.words_append_allBlank s (by decide)
  rw [r.text_of_not_blank len width hblank, r.text_of_solid len width hne h,
    Text.startsBlank_append hne, r.wrapped_congr len width hwords]
  simp [Text.trailingNewlines_concat h]

theorem endsBlank_text (r : Run) (len : Measure) (width : Int) (hne : s ≠ [])
    (h : endsBlank s = false) :
    (r.text len width s).buffer.text ≠ [] ∧
      endsBlank (r.text len width s).buffer.text = false := by
  have hblank := Text.allBlank_of_endsBlank hne h
  have hlines (i o w : Int) := solid_lines len s w i o
  rw [r.text_of_solid len width hne h]
  dsimp only
  unfold Run.wrapped
  dsimp only
  obtain ⟨u, l, hl, he⟩ := Buffer.exists_text_writeAll len r.nesting.depth
    (wrap_ne_nil len _ _ _ hblank) (fun l hl => (hlines _ _ _ l hl).1) _ _
  obtain ⟨htrim, hnil, -⟩ := hlines _ _ _ l hl
  rw [he, Text.endsBlank_append hnil, ← htrim]
  exact ⟨by simp [htrim, hnil], Text.endsBlank_trimRight _⟩

structure Unwritten (r : Run) : Prop where
  nesting : r.nesting = []
  buffer : r.buffer = {}
  last : r.last = .start
  gap : r.gap = []

theorem unwritten_start (j : Job) : Unwritten j.start := ⟨rfl, rfl, rfl, rfl⟩

/-- Two templates, of which the first ends where a text may be written, and a line feed. -/
structure Borders (len' : Measure) (width : Int) (r' : Run) (s : List Char) : Prop where
  nesting : (r'.text len' width s).nesting = []
  size : (r'.text len' width s).buffer.size = (r'.text len' width s).buffer.text.length
  solid : s ≠ [] → endsBlank s = false

namespace Borders

variable (h : Borders len' width r' s) (hr : Unwritten r)
include h

theorem buffer_lineFeed :
    (r'.text len' width (s ++ ['\n'])).buffer = (r'.text len' width s).buffer := by
  cases s with
  | nil => rfl
  | cons c s => rw [r'.text_concat len' width (by simp) (h.solid (by simp))]

theorem gap_lineFeed : endsBlank (r'.text len' width (s ++ ['\n'])).gap = true := by
  cases s with
  | nil => rfl
  | cons c s =>
    rw [r'.text_concat len' width (by simp) (h.solid (by simp))]
    exact Text.endsBlank_append (by simp)

include hr

theorem fresh (len : Measure) :
    Fresh (r.text len width []) (r'.text len' width (s ++ ['\n'])) := by
  have hnesting : (r'.text len' width (s ++ ['\n'])).nesting = [] := by
    simpa using h.nesting
  refine ⟨hr.nesting, hnesting, hr.buffer, hr.last, rfl, ?_, h.gap_lineFeed⟩
  rw [h.buffer_lineFeed]
  exact h.size

/-- Literal text at the start of a template, and the same text behind a line feed. -/
theorem tracks_text (hlen : Agree g g' len len') (hnil : len' [] = 0) (ht : Renamed g g' t t)
    (hne : t ≠ []) (hstart : startsBlank t = false) (hs : s = []) :
    Tracks g g' ((r'.text len' width s).buffer.text ++ ['\n']) (r.text len width t)
      (r'.text len' width (s ++ '\n' :: t)) := by
  subst hs
  have hblank := Text.allBlank_of_startsBlank hne hstart
  have hblank' : allBlank ('\n' :: t) = false := by
    rw [← List.singleton_append, Text.allBlank_append, hblank, Bool.and_false]
  have hfresh := h.fresh hr len
  have hwritten : Abreast g g' ((r'.text len' width []).buffer.text ++ ['\n'])
      (r.wrapped len width t false) (r'.wrapped len' width t true) :=
    hfresh.wrapped hlen hnil ht hblank width
  rw [List.nil_append, r.text_of_not_blank len width hblank,
    r'.text_of_not_blank len' width hblank', hstart, hr.last,
    Text.trailingNewlines_cons hblank, r'.wrapped_congr len' width
      (Text.words_cons_blank (by decide) t)]
  refine ⟨?_, ?_, rfl, (Text.endsBlank_append (s := ['\n']) hne).symm, ?_⟩
  · dsimp only
    rw [hr.nesting, show r'.nesting = [] by simpa using h.nesting]
    exact .nil
  · dsimp only
    split
    · exact hwritten.blankLine hlen
    · exact hwritten
  · cases t with
    | nil => exact absurd rfl hne
    | cons c t => rfl

/-- A run behind a line feed is side by side with one from the start, or about to be. -/
theorem ready (hlen : Agree g g' len len') (hnil : len' [] = 0) (ht : Renamed g g' t t)
    (hstart : startsBlank t = false) (hst : s = [] ∨ t = []) :
    Ready g g' ((r'.text len' width s).buffer.text ++ ['\n']) (r.text len width t)
      (r'.text len' width (s ++ '\n' :: t)) := by
  by_cases hne : t = []
  · subst hne
    refine .fresh (h.fresh hr len) ?_
    rw [h.buffer_lineFeed]
  · exact .tracks (h.tracks_text hr hlen hnil ht hne hstart (hst.resolve_right hne))

end Borders

namespace Part

theorem exists_literal (xs : List (Part (List Char))) :
    ∃ (t : List Char) (ys : List (Part (List Char))), xs = t.map .char ++ ys ∧
      ∀ x ∈ ys.head?, ∀ c, x ≠ .char c := by
  induction xs with
  | nil => exact ⟨[], [], rfl, by simp⟩
  | cons x xs ih =>
    by_cases hx : ∃ c, x = .char c
    · obtain ⟨c, rfl⟩ := hx
      obtain ⟨t, ys, rfl, hys⟩ := ih
      exact ⟨c :: t, ys, rfl, hys⟩
    · refine ⟨[], x :: xs, rfl, ?_⟩
      intro y hy c hc
      obtain rfl := Option.some.inj hy
      exact hx ⟨c, hc⟩

variable {τ σ : Type} {f : τ → σ}

theorem eq_chars_of_map {xs : List (Part τ)} {t : List Char}
    (h : xs.map (map f) = t.map .char) : xs = t.map .char := by
  induction xs generalizing t with
  | nil =>
    obtain rfl := List.map_eq_nil_iff.1 h.symm
    rfl
  | cons x xs ih =>
    cases t with
    | nil => simp at h
    | cons c t =>
      obtain ⟨hx, hxs⟩ := List.cons.inj h
      cases x <;> simp only [map, char.injEq, reduceCtorEq] at hx
      rw [hx, ih hxs]
      rfl

end Part

section Joint

variable {p' q : Pen} {xs xs' : List (Part (List Char))}

/-- Literal text at the start of a template, and where that template begins behind another. -/
theorem Borders.release (h : Borders j'.len j'.width p'.run p'.held.reverse) (hr : Unwritten r)
    (hlen : Agree g g' j.len j'.len) (hstyle : j'.style = j.style) (ht : Renamed g g' t t)
    (hstart : startsBlank t = false) (hst : p'.held = [] ∨ t = []) :
    Ready g g' ((j'.release p').buffer.text ++ ['\n']) (j.release ⟨r, t.reverse⟩)
        (j'.release ⟨p'.run, t.reverse ++ '\n' :: p'.held⟩) ∧
      (t ≠ [] → Tracks g g' ((j'.release p').buffer.text ++ ['\n']) (j.release ⟨r, t.reverse⟩)
        (j'.release ⟨p'.run, t.reverse ++ '\n' :: p'.held⟩)) := by
  have hheld : p'.held = [] → p'.held.reverse = [] := fun hnil => by rw [hnil, List.reverse_nil]
  have hreverse : (t.reverse ++ '\n' :: p'.held).reverse = p'.held.reverse ++ '\n' :: t := by simp
  rw [Job.release, Job.release, Job.release, List.reverse_reverse, hreverse,
    width_eq_of_style hstyle] at *
  refine ⟨h.ready hr hlen rfl ht hstart (hst.imp_left hheld), fun hne => ?_⟩
  exact h.tracks_text hr hlen rfl ht hne hstart (hheld (hst.resolve_right hne))

theorem Borders.writesAll (h : Borders j'.len j'.width p'.run p'.held.reverse) (hr : Unwritten r)
    (hsame : Restoring g g' j.table j'.table) (hstyle : j'.style = j.style)
    (hpass : j.style.reformatter = Ruby.passThrough) (hsound : ∀ x ∈ xs, x.Sound g.entries)
    (hsound' : ∀ x ∈ xs', x.Sound g'.entries) (hended : ∀ x ∈ xs, x.Ended g.entries)
    (hplain : Part.Plain g.entries xs)
    (hplain' : Part.Plain g'.entries (p'.ahead (.char '\n' :: xs')))
    (hxs : xs.map (Part.map g.reveal) = xs'.map (Part.map g'.reveal)) (hne : xs ≠ [])
    (hstart : ∀ c, xs.head? = some (.char c) → isBlank c = false)
    (hraw : ∀ (t : List Char) name content closeTag ys,
      xs ≠ t.map .char ++ .rawText name content closeTag :: ys)
    (hst : p'.held = [] ∨ ∀ c, xs.head? ≠ some (.char c)) (hw : j.WritesAll ⟨r, []⟩ xs q) :
    ∃ q', j'.WritesAll p' (.char '\n' :: xs') q' ∧
      Tracks g g' ((j'.release p').buffer.text ++ ['\n']) (j.release q) (j'.release q') := by
  obtain ⟨t, ys, rfl, hys⟩ := Part.exists_literal xs
  rw [List.map_append] at hxs
  obtain ⟨us, ys', rfl, hus, hys'⟩ := List.map_eq_append_iff.1 hxs.symm
  rw [List.map_map] at hus
  obtain rfl := Part.eq_chars_of_map hus
  -- what stands before the first unit
  obtain ⟨p, hp, hwys⟩ := hw.split
  rw [Job.writesAll_chars_iff, List.append_nil] at hp
  subst hp
  have hfirst : j'.WritesAll p' (.char '\n' :: t.map .char)
      ⟨p'.run, t.reverse ++ '\n' :: p'.held⟩ :=
    .cons (.char p'.run p'.held '\n') ((Job.writesAll_chars_iff _ _ _).2 rfl)
  have hahead : p'.ahead (.char '\n' :: (t.map .char ++ ys')) =
      Pen.ahead ⟨p'.run, t.reverse ++ '\n' :: p'.held⟩ ys' := by
    simp [Pen.ahead]
  have ht : Renamed g g' t t := by
    apply Renamed.of_namesIn_nil
    · exact hplain t (List.prefix_append _ _).isInfix
    · exact hplain' t ⟨p'.held.reverse.map .char ++ [.char '\n'], ys', by simp [Pen.ahead]⟩
  have hblank : startsBlank t = false := by
    cases t with
    | nil => rfl
    | cons c t => exact hstart c rfl
  have hone : p'.held = [] ∨ t = [] := by
    refine hst.imp_right fun hst => ?_
    cases t with
    | nil => rfl
    | cons c t => exact absurd rfl (hst c)
  obtain ⟨hready, htracks⟩ := h.release hr hsame.agree hstyle ht hblank hone
  by_cases hnil : ys = []
  · subst hnil
    obtain rfl := List.map_eq_nil_iff.1 hys'
    cases hwys
    rw [List.append_nil]
    exact ⟨_, hfirst, htracks (by simpa using hne)⟩
  · have hahead₀ : t.map .char ++ ys = Pen.ahead ⟨r, t.reverse⟩ ys := by simp [Pen.ahead]
    rw [hahead₀] at hplain
    rw [hahead] at hplain'
    have hbody (x : Part (List Char)) (hx : x ∈ ys.head?) (name content closeTag : List Char) :
        x ≠ .rawText name content closeTag := by
      rintro rfl
      obtain ⟨zs, rfl⟩ := List.head?_eq_some_iff.1 hx
      exact hraw t name content closeTag zs rfl
    obtain ⟨q', hq', hend⟩ := hready.writesAll hsame hstyle hpass
      (fun x hx => hsound x (List.mem_append_right _ hx))
      (fun x hx => hsound' x (List.mem_append_right _ hx))
      (fun x hx => hended x (List.mem_append_right _ hx)) hplain hplain' hys'.symm hnil hys
      hbody hwys
    exact ⟨q', hfirst.append hq', hend⟩

end Joint

end ErbLayout.Template
