import ErbLayout.Proofs.Markup.Calm
import ErbLayout.Proofs.Placeholder.Candidates
import ErbLayout.Proofs.Template.Again
import ErbLayout.Proofs.Template.Tags
/-!
The marks of a template and those of what a run left of it: the same names stand in both, in the
same order, and the same words that look like names.
-/

namespace ErbLayout.Template

open Layout Markup Placeholder
open Text (Found allBlank startsBlank endsBlank words)
open Job (inlineClosing openText)

variable {j : Job} {r : Run} {x y : Part (List Char)}

section Units

variable {α : Type} {f : List Char → List α} (hf : Seamwise f)
variable (hnil : ∀ u, ¬ Placeholder.opening <:+: u → f u = [])
include hf hnil

/-- Whatever is read in a unit is read in what the unit is written as. -/
theorem Job.Becomes.seamwise (hx : j.Becomes r x y) (hread : x.WasRead)
    (hclosed : ∀ name content, x ≠ .rawText name content []) : f y.shown = f x.shown := by
  cases hx with
  | code ht _ _ _ _ _ => exact hf.build ht rfl (indentOf_allBlank _)
  | comment text => rfl
  | close text name =>
    have hsound : (Item.token (.close text name)).Sound j.table := hread
    exact (Written.close text name).seamwise hf hnil hsound (by simp)
  | @opening name attrs attrs' closing text _ _ =>
    have hsound : (Item.token (.opening text name attrs closing)).Sound j.table := hread
    exact (Written.opening text name attrs closing r.nesting.depth
      (j.openColumn r name attrs closing)).seamwise hf hnil hsound (by simp)
  | rawText name content closeTag =>
    obtain ⟨hraw, hclose⟩ := hread
    obtain ⟨rest, hfind⟩ := hclose (by
      rintro rfl
      exact hclosed name content rfl)
    have hend := (Text.find?_eq_some hfind).2
    have hbody : f (Text.trimRight content ++ Job.bodyEnd r content) = f content := by
      refine hf.congr ?_
      rw [Text.words_append_allBlank _ (Job.allBlank_bodyEnd r content), Text.words_trimRight]
    have hsound : (Item.rawClose name closeTag).Sound j.table := ⟨hraw, _, _, hend⟩
    have htag : f ('<' :: '/' :: name ++ ['>']) = f closeTag :=
      (Written.rawClose name closeTag).seamwise hf hnil hsound (by simp)
    have hseam (s u : List Char) : f (s ++ '<' :: u) = f s ++ f ('<' :: u) :=
      hf.append (headFree_cons (by decide) _)
    obtain ⟨u, hu⟩ := Piece.framed_closeTag hend
    have hright : f (content ++ closeTag) = f content ++ f closeTag := by
      rw [hu]
      exact hseam content (u ++ ['>'])
    rw [Part.shown, Part.shown, hright, ← hbody, ← htag]
    exact hseam _ _

end Units

/-- No unit but a code tag gets a `<%` that it did not have. -/
theorem Job.Becomes.opens (hx : j.Becomes r x y) (hread : x.WasRead)
    (hcode : ∀ text, x ≠ .code text) (ho : Opens y.shown) : Opens x.shown := by
  cases hx with
  | code _ _ _ _ _ _ => exact absurd rfl (hcode _)
  | comment text => exact ho
  | close text name =>
    have hsound : (Item.token (.close text name)).Sound j.table := hread
    exact (Written.close text name).opens hsound (by simp) ho
  | @opening name attrs attrs' closing text _ _ =>
    have hsound : (Item.token (.opening text name attrs closing)).Sound j.table := hread
    exact (Written.opening text name attrs closing r.nesting.depth
      (j.openColumn r name attrs closing)).opens hsound (by simp) ho
  | rawText name content closeTag =>
    rcases opens_append ho (by simp) with ho | ho
    · refine (opens_of_words ho ?_).within (List.prefix_append content closeTag).isInfix
      rw [Text.words_append_allBlank _ (Job.allBlank_bodyEnd r content), Text.words_trimRight]
      exact List.Subset.refl _
    · exact absurd ho (not_opens_closeText (angle_not_mem_of_rawText hread.1))

/-- A stride whose unit ends as a tag does, and begins as one behind literal text. -/
structure Stride.Seamed (a : Stride) : Prop where
  last : ∃ u, a.unit.shown = u ++ ['>']
  head : a.literal = [] ∨ ∃ u, a.unit.shown = '<' :: u

/-- A stride of a protected template. -/
structure Stride.Sits (es : Entries) (a : Stride) : Prop where
  read : a.unit.WasRead
  fair : a.unit.Fair
  char : ∀ c, a.unit ≠ .char c
  closed : ∀ name content, a.unit ≠ .rawText name content []
  flush : ∀ name content closeTag, a.unit = .rawText name content closeTag → a.literal = []
  plain : es.namesIn a.literal = []
  sound : a.unit.Sound es
  ended : a.unit.Ended es

section Strides

variable {es : Entries} {a b : Stride}

theorem Stride.seamed_of_framed (h : Text.Framed a.unit.shown) : a.Seamed := by
  obtain ⟨u, hu⟩ := h
  exact ⟨⟨_, hu⟩, .inr ⟨_, hu⟩⟩

theorem Stride.Sits.seamed (h : a.Sits es) : a.Seamed := by
  obtain ⟨literal, unit⟩ := a
  cases unit with
  | char c => exact absurd rfl (h.char c)
  | code text =>
    obtain ⟨s, tag, n, hr⟩ := h.read
    exact seamed_of_framed (Erb.Tag.framed_of_read hr)
  | comment text => exact seamed_of_framed h.fair
  | close text name =>
    obtain ⟨s, hr⟩ := h.read
    exact seamed_of_framed (Token.readAny_framed hr)
  | opening text name attrs closing =>
    obtain ⟨s, hr⟩ := h.read
    exact seamed_of_framed (Token.readAny_framed hr)
  | rawText name content closeTag =>
    obtain ⟨rest, hfind⟩ := h.read.2 (by
      rintro rfl
      exact h.closed name content rfl)
    obtain ⟨u, hu⟩ := Piece.framed_closeTag (Text.find?_eq_some hfind).2
    exact ⟨⟨content ++ '<' :: u, by simp [Part.shown, hu]⟩, .inl (h.flush _ _ _ rfl)⟩

theorem Stride.Relaid.seamed (h : Stride.Relaid j a b) (hfair : a.unit.Fair) : b.Seamed := by
  obtain ⟨r, hx⟩ := h.unit
  by_cases hraw : ∃ name content closeTag, a.unit = .rawText name content closeTag
  · obtain ⟨name, content, closeTag, hunit⟩ := hraw
    obtain ⟨literal, unit⟩ := a
    obtain ⟨literal', unit'⟩ := b
    dsimp only at hunit hx
    subst hunit
    cases hx
    exact ⟨⟨_ ++ ('<' :: '/' :: name), (List.append_assoc _ ('<' :: '/' :: name) ['>']).symm⟩,
      .inl (h.flush _ _ _ rfl)⟩
  · exact seamed_of_framed (hx.framed hfair fun name content closeTag hunit =>
      hraw ⟨name, content, closeTag, hunit⟩)

theorem Part.meant_marks (n : Name) (h : x.Sound es) :
    (x.marks es n).meant = es.restore x.shown := by
  cases x with
  | char c => exact (Entries.restore_of_namesIn_nil (Entries.namesIn_singleton c)).symm
  | code text =>
    rw [show (Part.code text).shown = text from rfl, Entries.restore_of_namesIn_nil h]
    exact List.append_nil text
  | comment | close | opening | rawText => rfl

theorem Part.written_marks (n : Name) (hcode : ∀ text, x ≠ .code text) :
    (x.marks es n).written = x.shown := by
  cases x with
  | char c => rfl
  | code text => exact absurd rfl (hcode text)
  | comment | close | opening | rawText => exact fill_scan_entries es _

/-- What is read in a template is read stride by stride. -/
theorem Stride.Seamed.split {α : Type} {f : List Char → List α} (h : a.Seamed) (hf : Seamwise f)
    (es : Entries) (rest : List Char) :
    f (a.literal ++ (es.restore a.unit.shown ++ rest)) =
      f a.literal ++ (f (es.restore a.unit.shown) ++ f rest) := by
  obtain ⟨u, hu⟩ := h.last
  have hshown : es.restore a.unit.shown = es.restore u ++ ['>'] := by
    rw [hu, Entries.restore_concat u (by decide)]
  have hlast (s rest : List Char) : f (s ++ ['>'] ++ rest) = f (s ++ ['>']) ++ f rest := by
    have hnil := hf.split s '>' [] (by decide)
    rw [hf.nil, List.append_nil] at hnil
    rw [List.append_assoc, List.singleton_append, hf.split s '>' rest (by decide), hnil,
      List.append_assoc]
  have hfirst : f (a.literal ++ es.restore a.unit.shown) =
      f a.literal ++ f (es.restore a.unit.shown) := by
    rcases h.head with hnil | ⟨v, hv⟩
    · rw [hnil, hf.nil]
      rfl
    · rw [hv, Entries.restore_cons (by decide)]
      exact hf.append (headFree_cons (by decide) _)
  rw [hshown] at hfirst ⊢
  rw [← List.append_assoc, ← List.append_assoc, hlast, List.append_assoc, hfirst, List.append_assoc]

namespace Stride.Relaid

variable (h : Stride.Relaid j a b) (hs : a.Sits es)
include h hs

theorem seamwise {α : Type} {f : List Char → List α} (hf : Seamwise f)
    (hnil : ∀ u, ¬ Placeholder.opening <:+: u → f u = []) :
    f b.literal = f a.literal ∧ f (es.restore b.unit.shown) = f (es.restore a.unit.shown) := by
  obtain ⟨r, hx⟩ := h.unit
  refine ⟨hf.congr h.words, hx.seamwise (hf.restored es) (fun u hu => ?_) hs.read hs.closed⟩
  rw [Entries.restore_of_namesIn_nil (Entries.namesIn_of_no_opening hu), hnil u hu]

theorem namesIn : es.namesIn b.unit.shown = es.namesIn a.unit.shown := by
  obtain ⟨r, hx⟩ := h.unit
  exact hx.seamwise es.seamwise_namesIn (fun _ hu => Entries.namesIn_of_no_opening hu) hs.read
    hs.closed

theorem sound : b.unit.Sound es ∧ b.unit.Ended es := by
  have hnames := h.namesIn hs
  obtain ⟨r, hx⟩ := h.unit
  obtain ⟨literal, unit⟩ := a
  obtain ⟨literal', unit'⟩ := b
  have hsound := hs.sound
  have hended := hs.ended
  dsimp only at hx hsound hended hnames ⊢
  cases hx with
  | code _ _ _ _ _ _ => exact ⟨hnames.trans hsound, trivial⟩
  | comment text => exact ⟨hsound, hended⟩
  | close text name => exact ⟨trivial, hended⟩
  | opening text _ _ => exact ⟨trivial, trivial⟩
  | rawText name content closeTag => exact ⟨trivial, by simp [Part.Ended]⟩

/-- The names in a stride stay in it, in order. -/
theorem names (n : Name) : (Found.values (b.marks es n)).map Prod.fst =
    (Found.values (a.marks es n)).map Prod.fst := by
  have hnames := h.namesIn hs
  obtain ⟨r, hx⟩ := h.unit
  obtain ⟨literal, unit⟩ := a
  obtain ⟨literal', unit'⟩ := b
  simp only [Stride.marks, Marked.values_chars] at hnames ⊢
  cases hx with
  | code _ _ _ _ _ _ => rfl
  | comment | close | opening | rawText => exact congrArg _ hnames

end Stride.Relaid

end Strides

theorem forall_of_forall₂ {α β : Type} {R : α → β → Prop} {Q : β → Prop} {as : List α} {bs : List β}
    (h : List.Forall₂ R as bs) (hQ : ∀ a ∈ as, ∀ b, R a b → Q b) : ∀ b ∈ bs, Q b := by
  induction h with
  | nil => simp
  | cons hab _ ih =>
    obtain ⟨ha, has⟩ := List.forall_mem_cons.1 hQ
    exact List.forall_mem_cons.2 ⟨ha _ hab, ih has⟩

/-- A trail as it was left. -/
structure Trail.Relaid (j : Job) (tr tr' : Trail) : Prop where
  strides : List.Forall₂ (fun s s' => s'.2 = s.2 ∧ Stride.Relaid j s.1 s'.1) tr.strides tr'.strides
  words : words tr'.last = words tr.last

section Trails

variable {es : Entries} {tr tr' : Trail}

theorem meant_marks {ss : List (Stride × Name)} (hs : ∀ s ∈ ss, s.1.unit.Sound es)
    (last : List Char) : (Trail.marks es ⟨ss, last⟩).meant =
      ss.flatMap (fun s => s.1.literal ++ es.restore s.1.unit.shown) ++ last := by
  have hchars (l : List Char) (ms : Marked) : Marked.meant (l.map .char ++ ms) = l ++ ms.meant := by
    induction l with
    | nil => rfl
    | cons c l ih => exact congrArg _ ih
  have happend (ms ms' : Marked) : Marked.meant (ms ++ ms') = ms.meant ++ ms'.meant :=
    Found.fill_append _ _ _
  induction ss with
  | nil => simpa [Trail.marks, Marked.meant] using hchars last []
  | cons s ss ih =>
    obtain ⟨hfirst, hrest⟩ := List.forall_mem_cons.1 hs
    rw [Trail.marks_cons, hchars, happend, Part.meant_marks _ hfirst, ih hrest, List.flatMap_cons]
    simp only [List.append_assoc]

theorem Trail.values_marks (es : Entries) (tr : Trail) :
    Found.values (tr.marks es) = tr.strides.flatMap fun s => Found.values (s.1.marks es s.2) := by
  have hlast := Marked.values_chars tr.last []
  rw [List.append_nil] at hlast
  rw [Trail.marks, Marked.values_append, hlast, Found.values_nil, List.append_nil]
  exact List.filterMap_flatMap

variable (h : Trail.Relaid j tr tr') (hsits : ∀ s ∈ tr.strides, s.1.Sits es)
include h hsits

theorem Trail.Relaid.sound : ∀ s ∈ tr'.strides, s.1.unit.Sound es ∧ s.1.unit.Ended es :=
  forall_of_forall₂ h.strides fun s hs _ hrel => hrel.2.sound (hsits s hs)

theorem Trail.Relaid.seamed : ∀ s ∈ tr'.strides, s.1.Seamed :=
  forall_of_forall₂ h.strides fun s hs _ hrel => hrel.2.seamed (hsits s hs).fair

/-- Names, and words that look like names, stand in a trail as they did. -/
theorem Trail.Relaid.threaded : Threaded (tr.marks es).meant (tr'.marks es).meant := by
  intro α f hf hnil
  obtain ⟨ss, last⟩ := tr
  obtain ⟨ss', last'⟩ := tr'
  have hseamed := h.seamed hsits
  rw [meant_marks (fun s hs => (hsits s hs).sound), meant_marks fun s hs => (h.sound hsits s hs).1]
  obtain ⟨hstrides, hwords⟩ := h
  dsimp only at hsits hstrides hwords hseamed ⊢
  induction hstrides with
  | nil => exact hf.congr hwords
  | @cons s s' ss ss' hrel _ ih =>
    obtain ⟨hs, hss⟩ := List.forall_mem_cons.1 hsits
    obtain ⟨hs', hss'⟩ := List.forall_mem_cons.1 hseamed
    obtain ⟨hliteral, hunit⟩ := hrel.2.seamwise hs hf hnil
    rw [List.flatMap_cons, List.flatMap_cons, List.append_assoc, List.append_assoc,
      List.append_assoc, List.append_assoc, hs.seamed.split hf, hs'.split hf, hliteral, hunit,
      ih hss hss']

theorem Trail.Relaid.names : (Found.values (tr'.marks es)).map Prod.fst =
    (Found.values (tr.marks es)).map Prod.fst := by
  rw [Trail.values_marks, Trail.values_marks, List.map_flatMap, List.map_flatMap]
  refine (flatMap_of_forall₂ h.strides fun s hs s' hrel => ?_).symm
  rw [hrel.1, hrel.2.names (hsits s hs)]

end Trails

end ErbLayout.Template
