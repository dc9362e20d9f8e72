import ErbLayout.Proofs.Template.Replay
import ErbLayout.Proofs.Template.Parts
/-!
Two runs side by side over parts that differ in their names only: part by part the second follows
the first.
-/

namespace ErbLayout.Template

open Layout Markup Placeholder
open Text (Framed allBlank)

namespace Part

/-- What holds of the parts of every protected template. -/
def Sound (es : Entries) : Part (List Char) → Prop
  | .code text => es.namesIn text = []
  | .comment text => Framed text
  | _ => True

/-- What holds besides of the parts of a template that is laid out. -/
def Ended (es : Entries) : Part (List Char) → Prop
  | .close _ name => es.namesIn name = []
  | .rawText _ _ closeTag => closeTag ≠ []
  | _ => True

/-- Parts whose literal text holds no names. -/
def Plain (es : Entries) (xs : List (Part (List Char))) : Prop :=
  ∀ u, u.map .char <:+: xs → es.namesIn u = []

theorem Plain.among {es : Entries} {xs ys : List (Part (List Char))} (h : Plain es ys)
    (hxs : xs <:+: ys) : Plain es xs := fun u hu => h u (hu.trans hxs)

end Part

variable {α : Type} {g g' : Glossary α} {j j' : Job} {pre' : List Char} {p p' q : Pen}
variable {x x' : Part (List Char)} {xs xs' : List (Part (List Char))}

/-- Pens that hold the same text in runs side by side. -/
structure Level (g g' : Glossary α) (pre' : List Char) (p p' : Pen) : Prop where
  tracks : Tracks g g' pre' p.run p'.run
  lastFree : LastFree p.run.buffer.text
  held : p.held = p'.held

/-- The parts yet to come, behind the text that is held. -/
def Pen.ahead (p : Pen) (xs : List (Part (List Char))) : List (Part (List Char)) :=
  p.held.reverse.map .char ++ xs

theorem Level.release (h : Level g g' pre' p p') (hlen : Agree g g' j.len j'.len)
    (hstyle : j'.style = j.style) (hheld : Renamed g g' p.held.reverse p.held.reverse) :
    Tracks g g' pre' (j.release p) (j'.release p') := by
  rw [Job.release, Job.release, width_eq_of_style hstyle, ← h.held]
  exact h.tracks.text hlen h.lastFree hheld

theorem level_of_writes {r r' : Run} (h : Tracks g g' pre' r r') (hr : Settled r) :
    Level g g' pre' ⟨r, []⟩ ⟨r', []⟩ := ⟨h, hr.lastFree, rfl⟩

section Steps

variable (hsame : Restoring g g' j.table j'.table) (hstyle : j'.style = j.style)
variable (hpass : j.style.reformatter = Ruby.passThrough)
variable (hsound : x.Sound g.entries) (hsound' : x'.Sound g'.entries) (hended : x.Ended g.entries)
variable (hx : x.map g.reveal = x'.map g'.reveal)
include hsame hstyle hpass hsound hsound' hended hx

theorem Ready.writes (h : Ready g g' pre' (j.release p) (j'.release p'))
    (hw : j.Writes p x q) (hchar : ∀ c, x ≠ .char c)
    (hraw : ∀ name content closeTag, x ≠ .rawText name content closeTag) :
    ∃ q', j'.Writes p' x' q' ∧ Level g g' pre' q q' ∧ Settled q.run := by
  cases hw with
  | char r cur c => exact absurd rfl (hchar c)
  | rawText r name content closeTag => exact absurd rfl (hraw name content closeTag)
  | code hcode =>
    cases x' <;> simp only [Part.map, Part.code.injEq, reduceCtorEq] at hx
    subst hx
    obtain ⟨r', hr', htracks, hsettled⟩ :=
      h.codeTag hsame.agree hstyle hpass hsound hsound' (hcode 0)
    exact ⟨_, .code hr', level_of_writes htracks hsettled, hsettled⟩
  | comment p text =>
    cases x' <;> simp only [Part.map, Part.comment.injEq, reduceCtorEq] at hx
    obtain ⟨htracks, hsettled⟩ := h.comment hsame.agree hstyle hx hsound hsound'
    exact ⟨_, .comment p' _, level_of_writes htracks hsettled, hsettled⟩
  | close text hclose =>
    cases x' <;> simp only [Part.map, Part.close.injEq, reduceCtorEq] at hx
    cases h with
    | fresh h _ =>
      have hopen := hclose 0
      rw [j.closeTag_unmatched (by rw [h.nesting]; rfl)] at hopen
      simp at hopen
    | tracks h =>
      obtain ⟨r', hr', htracks, hsettled⟩ := h.closeTag hsame.agree hstyle hx.2 hended (hclose 0)
      exact ⟨_, .close _ hr', level_of_writes htracks hsettled, hsettled⟩
  | opening text hopen =>
    cases x' <;> simp only [Part.map, Part.opening.injEq, reduceCtorEq] at hx
    obtain ⟨-, hname, hattrs, rfl⟩ := hx
    obtain ⟨r', hr', htracks, hsettled⟩ := h.openTag hstyle hsame hname hattrs _ (hopen 0)
    exact ⟨_, .opening _ hr', level_of_writes htracks hsettled, hsettled⟩

theorem Level.writes (h : Level g g' pre' p p') (hheld : Renamed g g' p.held.reverse p.held.reverse)
    (hw : j.Writes p x q) :
    ∃ q', j'.Writes p' x' q' ∧ Level g g' pre' q q' ∧ (q.held = [] → Settled q.run) := by
  have hrelease := Ready.tracks (h.release hsame.agree hstyle hheld)
  have hready := hrelease.writes hsame hstyle hpass hsound hsound' hended hx hw
  cases x with
  | char c =>
    cases x' <;> simp only [Part.map, Part.char.injEq, reduceCtorEq] at hx
    subst hx
    cases hw
    exact ⟨_, .char p'.run p'.held c, ⟨h.tracks, h.lastFree, congrArg (c :: ·) h.held⟩, by simp⟩
  | rawText name content closeTag =>
    cases x' <;> simp only [Part.map, Part.rawText.injEq, reduceCtorEq] at hx
    obtain ⟨hname, hcontent, hclose⟩ := hx
    cases hw
    obtain ⟨r', held'⟩ := p'
    obtain rfl : [] = held' := h.held
    have hclose' := fun hnil => hended ((Renamed.like hclose).eq_nil_iff.2 hnil)
    obtain ⟨htracks, hsettled⟩ :=
      h.tracks.rawText hsame.agree hstyle h.lastFree hname hcontent hended hclose'
    exact ⟨_, .rawText r' _ _ _, level_of_writes htracks hsettled, fun _ => hsettled⟩
  | code text | comment text | close text name | opening text name attrs closing =>
    obtain ⟨q', hq', hlevel, hsettled⟩ := hready (by simp) (by simp)
    exact ⟨q', hq', hlevel, fun _ => hsettled⟩

end Steps

theorem Level.renamed_held (h : Level g g' pre' p p') (hplain : Part.Plain g.entries (p.ahead xs))
    (hplain' : Part.Plain g'.entries (p'.ahead xs')) :
    Renamed g g' p.held.reverse p.held.reverse := by
  apply Renamed.of_namesIn_nil
  · exact hplain _ (List.prefix_append _ _).isInfix
  · rw [h.held]
    exact hplain' _ (List.prefix_append _ _).isInfix

theorem ahead_of_writes (hw : j.Writes p x q) : q.ahead xs <:+: p.ahead (x :: xs) := by
  have hbehind : ([] : List (Part (List Char))) ++ xs <:+: p.held.reverse.map .char ++ x :: xs :=
    ((List.suffix_cons x xs).trans (List.suffix_append _ _)).isInfix
  cases hw with
  | char r cur c =>
    have hsame : Pen.ahead ⟨r, c :: cur⟩ xs = Pen.ahead ⟨r, cur⟩ (.char c :: xs) := by
      simp [Pen.ahead]
    rw [hsame]
  | code _ | comment | close _ _ | opening _ _ | rawText => exact hbehind

section Runs

variable (hsame : Restoring g g' j.table j'.table) (hstyle : j'.style = j.style)
variable (hpass : j.style.reformatter = Ruby.passThrough)
variable (hsound : ∀ x ∈ xs, x.Sound g.entries) (hsound' : ∀ x ∈ xs', x.Sound g'.entries)
variable (hended : ∀ x ∈ xs, x.Ended g.entries) (hplain : Part.Plain g.entries (p.ahead xs))
variable (hplain' : Part.Plain g'.entries (p'.ahead xs'))
variable (hxs : xs.map (Part.map g.reveal) = xs'.map (Part.map g'.reveal))
include hsame hstyle hpass hsound hsound' hended hplain hplain' hxs

theorem Level.writesAll (h : Level g g' pre' p p') (hw : j.WritesAll p xs q) :
    ∃ q', j'.WritesAll p' xs' q' ∧ Level g g' pre' q q' ∧
      Tracks g g' pre' (j.release q) (j'.release q') ∧
      (xs ≠ [] → q.held = [] → Settled q.run) := by
  induction hw generalizing p' xs' with
  | nil p =>
    obtain rfl := List.map_eq_nil_iff.1 hxs.symm
    exact ⟨p', .nil p', h, h.release hsame.agree hstyle (h.renamed_held hplain hplain'), by simp⟩
  | @cons p q s x xs hx hrest ih =>
    obtain ⟨x', xs', rfl, hx', hxs'⟩ := List.map_eq_cons_iff.1 hxs.symm
    obtain ⟨hsx, hsxs⟩ := List.forall_mem_cons.1 hsound
    obtain ⟨hsx', hsxs'⟩ := List.forall_mem_cons.1 hsound'
    obtain ⟨hex, hexs⟩ := List.forall_mem_cons.1 hended
    obtain ⟨q', hq', hlevel, hsettled⟩ := h.writes hsame hstyle hpass hsx hsx' hex hx'.symm
      (h.renamed_held hplain hplain') hx
    obtain ⟨s', hs', hend, htracks, hlast⟩ := ih hsxs hsxs' hexs
      (hplain.among (ahead_of_writes hx)) (hplain'.among (ahead_of_writes hq')) hxs'.symm
      hlevel
    refine ⟨s', .cons hq' hs', hend, htracks, fun _ => ?_⟩
    cases hrest with
    | nil => exact hsettled
    | cons _ _ => exact hlast (by simp)

theorem Ready.writesAll (h : Ready g g' pre' (j.release p) (j'.release p')) (hne : xs ≠ [])
    (hchar : ∀ x ∈ xs.head?, ∀ c, x ≠ .char c)
    (hraw : ∀ x ∈ xs.head?, ∀ name content closeTag, x ≠ .rawText name content closeTag)
    (hw : j.WritesAll p xs q) :
    ∃ q', j'.WritesAll p' xs' q' ∧ Tracks g g' pre' (j.release q) (j'.release q') := by
  cases hw with
  | nil => exact absurd rfl hne
  | @cons p q s x xs hx hrest =>
    obtain ⟨x', xs', rfl, hx', hxs'⟩ := List.map_eq_cons_iff.1 hxs.symm
    obtain ⟨hsx, hsxs⟩ := List.forall_mem_cons.1 hsound
    obtain ⟨hsx', hsxs'⟩ := List.forall_mem_cons.1 hsound'
    obtain ⟨hex, hexs⟩ := List.forall_mem_cons.1 hended
    obtain ⟨q', hq', hlevel, -⟩ :=
      h.writes hsame hstyle hpass hsx hsx' hex hx'.symm hx (hchar x rfl) (hraw x rfl)
    obtain ⟨s', hs', -, htracks, -⟩ := hlevel.writesAll hsame hstyle hpass hsxs hsxs' hexs
      (hplain.among (ahead_of_writes hx)) (hplain'.among (ahead_of_writes hq')) hxs'.symm
      hrest
    exact ⟨s', .cons hq' hs', htracks⟩

end Runs

end ErbLayout.Template
