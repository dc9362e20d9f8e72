import ErbLayout.Proofs.Placeholder.Fresh
import ErbLayout.Proofs.Template.Legible
/-!
What a layout left, taken as a template: the scans find in it what they found in the template that
was laid out, and it falls into the same parts. It is run over in two ways, under names of its own
and as it stood in the first run, and the two runs keep side by side.
-/

namespace ErbLayout.Placeholder

open Text (Found)

namespace Marked

variable {ms : Marked}

/-- Where no `<%` is left, the tags of a text are those that are marked. -/
theorem tagsOf_meant (hms : Entries.Coded (Found.values ms))
    (hopens : ¬ ['<', '%'] <:+: ms.written) : tagsOf ms.meant = ms.map forget := by
  induction ms with
  | nil => rfl
  | cons f ms ih =>
    cases f with
    | char c =>
      have hrest := ih hms fun hi => hopens (hi.trans (List.suffix_cons c (written ms)).isInfix)
      have hnot : ¬ ['<', '%'] <+: c :: meant ms := by
        intro hp
        obtain ⟨rfl, r, hr⟩ := List.cons_prefix_cons.1 hp
        cases ms with
        | nil => simp [meant] at hr
        | cons f ms =>
          cases f with
          | char d =>
            obtain rfl : '%' = d := (List.cons.inj hr).1
            exact hopens ⟨[], written ms, rfl⟩
          | value e =>
            obtain ⟨tag, s, n, hread⟩ := hms e List.mem_cons_self
            obtain ⟨u, hu⟩ := Erb.Tag.framed_of_read hread
            have hhead : '%' :: r = e.2 ++ meant ms := hr
            rw [hu] at hhead
            exact absurd (List.cons.inj hhead).1 (by decide)
      exact (tagsOf_cons_of_none (Erb.Tag.read_eq_none_of_not_opening hnot)).trans
        (congrArg _ hrest)
    | value e =>
      obtain ⟨tag, s, n, hread⟩ := hms e List.mem_cons_self
      have hrest := ih (fun e' he' => hms e' (List.mem_cons_of_mem e he')) fun hi =>
        hopens (hi.trans (List.suffix_append e.1.text (written ms)).isInfix)
      exact (tagsOf_append_of_read hread (meant ms)).trans (congrArg _ hrest)

end Marked

namespace Entries

variable {es es' : Entries} {s : List Char}

theorem namesIn_eq_nil_iff : es.namesIn s = [] ↔ ∀ e ∈ es, ¬ e.1.text <:+: s := by
  refine ⟨fun h => ?_, namesIn_of_free⟩
  have hscan := scan_of_namesIn_nil h
  rw [← List.append_nil (s.map Found.char)] at hscan
  obtain ⟨-, -, -, hfree⟩ := Template.scan_literal hscan
  exact hfree

/-- Under the same names the same is free of names. -/
theorem namesIn_eq_nil_of_names (hnames : es'.map Prod.fst = es.map Prod.fst)
    (h : es.namesIn s = []) : es'.namesIn s = [] := by
  rw [namesIn_eq_nil_iff] at h ⊢
  intro e he
  have hname := List.mem_map_of_mem (f := Prod.fst) he
  rw [hnames] at hname
  obtain ⟨e', he', hsame⟩ := List.mem_map.1 hname
  exact hsame ▸ h e' he'

end Entries

theorem Table.restore_append_allBlank (t : Table) {g : List Char} (hg : Text.allBlank g = true)
    (s : List Char) : t.restore (s ++ g) = t.restore s ++ g := by
  rw [Table.restore, Table.restoreCodeTags, Entries.restore_append_free s (free_of_allBlank hg),
    Entries.restore_append_free _ (free_of_allBlank hg)]
  rfl

end ErbLayout.Placeholder

namespace ErbLayout.Template

open Layout Markup Placeholder
open Text (Found allBlank startsBlank endsBlank words)

/-- A trail of a template that is laid out, in whose literal text nothing begins. -/
structure Trail.Regular (es : Entries) (tr : Trail) : Prop where
  sits : ∀ s ∈ tr.strides, s.1.Sits es
  quiet : ∀ s ∈ tr.strides, s.1.Quiet
  last : Calm tr.last
  plain : es.namesIn tr.last = []
  strung : Strung none (tr.strides.map Prod.fst)
  opens : ∀ s ∈ tr.strides, (∀ text, s.1.unit ≠ .code text) → ¬ Opens s.1.unit.shown

variable {j : Job} {es : Entries} {tr tr' : Trail}

/-- In what is written of a legible trail there is no `<%`, if there is none in its units. -/
theorem not_opens_marks {ss : List (Stride × Name)} {last : List Char}
    (hlegible : ∀ s ∈ ss, s.1.Legible) (hseamed : ∀ s ∈ ss, s.1.Seamed)
    (hunits : ∀ s ∈ ss, (∀ text, s.1.unit ≠ .code text) → ¬ Opens s.1.unit.shown)
    (hlast : Calm last) : ¬ Opens (Trail.marks es ⟨ss, last⟩).written := by
  induction ss with
  | nil =>
    intro ho
    change Opens (Marked.written (last.map .char)) at ho
    rw [written_chars] at ho
    exact (hlast '%' ho).2.2.1 rfl
  | cons s ss ih =>
    obtain ⟨hs, hss⟩ := List.forall_mem_cons.1 hlegible
    obtain ⟨hs', hss'⟩ := List.forall_mem_cons.1 hseamed
    obtain ⟨hs'', hss''⟩ := List.forall_mem_cons.1 hunits
    have hrest := ih hss hss' hss''
    obtain ⟨hopens, hend, hhead⟩ : ¬ Opens (s.1.unit.marks es s.2).written ∧
        (s.1.unit.marks es s.2).written.getLast? ≠ some '<' ∧
        (s.1.literal = [] ∨ ∃ c u, c ≠ '%' ∧ (s.1.unit.marks es s.2).written = c :: u) := by
      by_cases hcode : ∃ text, s.1.unit = .code text
      · obtain ⟨text, hx⟩ := hcode
        have hname : (s.1.unit.marks es s.2).written = s.2.text := by
          rw [hx]
          exact List.append_nil _
        rw [hname]
        refine ⟨not_opens_of_not_mem (Name.angle_not_mem s.2), getLast?_name_ne s.2, .inr ?_⟩
        obtain ⟨u, hu, -⟩ := Name.text_shape s.2
        exact ⟨'e', _, by decide, hu⟩
      · have hnot : ∀ text, s.1.unit ≠ .code text := fun text hx => hcode ⟨text, hx⟩
        rw [Part.written_marks s.2 hnot]
        refine ⟨hs'' hnot, ?_, hs'.head.imp_right ?_⟩
        · obtain ⟨u, hu⟩ := hs'.last
          rw [hu, List.getLast?_concat]
          decide
        · rintro ⟨u, hu⟩
          exact ⟨'<', u, by decide, hu⟩
    rw [Trail.marks_cons, written_append, written_append, written_chars]
    intro ho
    -- A `<%` would stand in the literal text, in the unit, in the rest or across two of them.
    rcases pair_append ho with ho | ho | ⟨hlt, hpercent⟩
    · exact (hs.calm '%' ho).2.2.1 rfl
    · rcases pair_append ho with ho | ho | ⟨hlt, -⟩
      · exact hopens ho
      · exact hrest ho
      · exact hend hlt
    · rcases hhead with hnil | ⟨c, u, hc, hu⟩
      · rw [hnil] at hlt
        simp at hlt
      · rw [hu] at hpercent
        exact hc (Option.some.inj hpercent)

section Left

variable (h : Trail.Relaid j tr tr') (htr : tr.Regular es)
include h htr

theorem Trail.Relaid.legible : ∀ s ∈ tr'.strides, s.1.Legible :=
  forall_of_forall₂ h.strides fun s hs _ hrel => hrel.2.legible (htr.sits s hs) (htr.quiet s hs)

theorem Trail.Relaid.calm_last : Calm tr'.last := htr.last.of_words h.words

theorem Trail.Relaid.strung : Strung none (tr'.strides.map Prod.fst) := by
  refine htr.strung.relaid (j := j) ?_
  rw [List.forall₂_map_left_iff, List.forall₂_map_right_iff]
  exact h.strides.imp fun _ _ hrel => hrel.2

theorem Trail.Relaid.coded (hes : es.Coded) : Entries.Coded (Found.values (tr'.marks es)) := by
  have hunit : ∀ s ∈ tr'.strides, Entries.Coded (Found.values (s.1.marks es s.2)) := by
    refine forall_of_forall₂ h.strides fun s hs s' hrel => ?_
    obtain ⟨-, ⟨-, -, -, r, hx⟩⟩ := hrel
    have hread := (htr.sits s hs).read
    rw [Stride.marks, Marked.values_chars]
    generalize s.1.unit = x at hx hread
    generalize s'.1.unit = y at hx ⊢
    intro e he
    cases hx with
    | @code text code tag ht _ _ _ _ _ =>
      obtain ⟨s, tag', n, hr⟩ := hread
      obtain rfl := Option.some.inj ((Erb.Tag.split?_of_read hr).symm.trans ht)
      obtain ⟨tag'', k, hr', -⟩ :=
        Erb.Tag.read_build hr rfl (indentOf_allBlank (j.codeDepth r tag'))
      obtain rfl := List.mem_singleton.1 he
      exact ⟨tag'', _, k, hr'⟩
    | comment | close | opening | rawText => exact hes e (mem_of_mem_scan (Found.mem_values.1 he))
  intro e he
  rw [Trail.values_marks] at he
  obtain ⟨s, hs, he⟩ := List.mem_flatMap.1 he
  exact hunit s hs e he

theorem Trail.Relaid.not_opens : ¬ Opens (tr'.marks es).written := by
  refine not_opens_marks (h.legible htr) (h.seamed htr.sits) ?_ (h.calm_last htr)
  refine forall_of_forall₂ h.strides fun s hs s' hrel hcode ho => ?_
  obtain ⟨-, ⟨-, -, -, r, hx⟩⟩ := hrel
  have hnot : ∀ text, s.1.unit ≠ .code text := by
    intro text hunit
    rw [hunit] at hx
    generalize s'.1.unit = y at hx hcode
    cases hx with
    | code _ _ _ _ _ _ => exact hcode _ rfl
  exact htr.opens s hs hnot (hx.opens (htr.sits s hs).read hnot ho)

end Left

section Marks

variable {names : Names} {source : List Char} {ws ts : Marked}
variable (hm : Marking names source ws ts) (hmarks : Marks source ws ts)
variable (hcovers : tr.Covers (protect names source)) (h : Trail.Relaid j tr tr')
variable (htr : tr.Regular (protect names source).table.codeTags)

include hm hcovers in
theorem Trail.Covers.marks_eq : tr.marks (protect names source).table.codeTags = ts := by
  rw [hcovers.marks, hm.working, hm.codeTags, hm.tags.scan_part (List.infix_refl ts)]

include hm hcovers h htr in
theorem Trail.Relaid.threaded_words :
    Threaded ws.written (tr'.marks (protect names source).table.codeTags).meant := by
  have hthreaded := h.threaded htr.sits
  rwa [hcovers.marks_eq hm, hm.shielded] at hthreaded

include hm hmarks hcovers h htr

/-- The marks of what a layout leaves of a template are those that a protection finds in it. -/
theorem Trail.Relaid.marks :
    let T := (protect names source).table
    let left := tr'.marks T.codeTags
    Marks (T.lookalikes.restore left.meant) (Text.scan T.lookalikes.read left.meant) left ∧
      Found.values (Text.scan T.lookalikes.read left.meant) = T.lookalikes := by
  intro T left
  have hthreaded : Threaded ws.written left.meant := h.threaded_words hm hcovers htr
  have hscan : Text.scan T.lookalikes.read ws.written = ws := by
    rw [hm.lookalikes, hm.words.scan_part (List.infix_refl ws)]
  have hsource : T.lookalikes.restore ws.written = source := by
    rw [hm.lookalikes, hm.words.restore, hm.plain]
  have hlooks : Found.values (Text.scan T.lookalikes.read left.meant) = T.lookalikes := by
    have hnames := hthreaded.namesIn T.lookalikes
    rw [Entries.namesIn, Entries.namesIn, hscan] at hnames
    rw [hnames, hm.lookalikes]
  have hnames : (Found.values (Text.scan T.lookalikes.read left.meant) ++
      Found.values left).map Prod.fst = (Found.values ws ++ Found.values ts).map Prod.fst := by
    rw [hlooks, List.map_append, List.map_append, h.names htr.sits, hcovers.marks_eq hm,
      hm.lookalikes]
  have hexact : T.lookalikes.Exact left.meant := by
    refine hthreaded.exact (fun e he => (hm.proper.solid e he).ne_nil) ?_
    rw [Entries.Exact, hsource, hscan, hm.found]
  refine ⟨⟨hexact.symm, ?_, ?_, fun e he => ?_⟩, hlooks⟩
  · have hwritten : Marked.written (Text.scan T.lookalikes.read left.meant) = left.meant :=
      fill_scan_entries _ _
    rw [hwritten, Marked.tagsOf_meant (h.coded htr (coded_codeTags names source))
      (h.not_opens htr)]
  · have hdistinct := hmarks.distinct
    rw [← List.pairwise_map, ← hnames, List.pairwise_map] at hdistinct
    exact hdistinct
  · have hname := List.mem_map_of_mem (f := Prod.fst) he
    rw [hnames] at hname
    obtain ⟨e', he', hsame⟩ := List.mem_map.1 hname
    have hrestored := hthreaded.restored T.lookalikes
    rw [hsource] at hrestored
    rw [hrestored.infix_iff e.1, ← hsame]
    exact hmarks.fresh e' he'

/-- With the names of the template drawn first, a protection of what a layout left has its parts. -/
theorem Trail.Relaid.exists_protection {names' : Names} {count : Nat} (ha : names'.Ample count)
    {t : List Char} (ht : (protect names source).table.lookalikes.restore
      (tr'.marks (protect names source).table.codeTags).meant = t) :
    ∃ names₁ ws₁, names₁.Ample count ∧
      Marking names₁ t ws₁ (tr'.marks (protect names source).table.codeTags) ∧
      (protect names₁ t).table.lookalikes = (protect names source).table.lookalikes ∧
      Part.ofProtected (protect names₁ t) = tr'.parts := by
  obtain ⟨hleft, hlooks⟩ := h.marks hm hmarks hcovers htr
  rw [ht] at hleft
  have hm₁ := hleft.marking (Names.Offers.behind _ names')
  refine ⟨_, _, ha.behind _, hm₁, hm₁.lookalikes.trans hlooks, ?_⟩
  exact ofProtected_legible hm₁.tags hm₁.working hm₁.codeTags (h.calm_last htr) (h.legible htr)
    (h.strung htr)

end Marks

section Renewed

variable {es' : Entries} {x : Part (List Char)} {xs : List (Part (List Char))}

theorem Part.Plain.cons {c : Char} (hc : Placeholder.isNameChar c = false) (h : Part.Plain es xs) :
    Part.Plain es (.char c :: xs) := by
  intro u hu
  rcases List.infix_cons_iff.1 hu with hp | hi
  · cases u with
    | nil => rfl
    | cons d u =>
      obtain ⟨hd, hrest⟩ := List.cons_prefix_cons.1 hp
      obtain rfl := Part.char.inj hd
      rw [Entries.namesIn, Entries.scan_cons hc]
      exact h u hrest.isInfix
  · exact h u hi

section Names

variable (hnames : es'.map Prod.fst = es.map Prod.fst)
include hnames

theorem Part.sound_of_names (h : x.Sound es) : x.Sound es' := by
  cases x with
  | code text => exact Entries.namesIn_eq_nil_of_names hnames h
  | char | comment | close | opening | rawText => exact h

theorem Part.ended_of_names (h : x.Ended es) : x.Ended es' := by
  cases x with
  | close text name => exact Entries.namesIn_eq_nil_of_names hnames h
  | char | code | comment | opening | rawText => exact h

theorem Part.plain_of_names (h : Part.Plain es xs) : Part.Plain es' xs :=
  fun u hu => Entries.namesIn_eq_nil_of_names hnames (h u hu)

end Names

section Reveal

variable {α : Type} {g g' : Glossary α}

theorem renamed_of_rawText {name : List Char} (h : Element.isRawText name = true) :
    Renamed g g' name name := by
  have hshort : name.length < Name.size := Nat.lt_trans (length_of_rawText h) (by decide)
  exact .of_namesIn_nil (Entries.namesIn_of_short hshort) (Entries.namesIn_of_short hshort)

/-- A unit that is read alike as a whole is so in its parts. -/
theorem Part.Legible.map_reveal (hx : x.Legible)
    (h : (∀ text, x ≠ .code text) → Renamed g g' x.shown x.shown) :
    x.map g.reveal = x.map g'.reveal := by
  have htoken (tok : Token) (hread : ∀ rest, Token.readAny (tok.text ++ rest) = some tok)
      (h : Renamed g g' tok.text tok.text) : Token.Renamed g g' tok tok := by
    have hrel := Token.renamed_readAny h
    have hself := hread []
    rw [List.append_nil] at hself
    rw [hself] at hrel
    cases hrel with
    | some hrenamed => exact hrenamed
  cases x with
  | char c => rfl
  | code text => rfl
  | comment text => exact congrArg _ (h (by simp))
  | close text name =>
    obtain ⟨tok, htok, hread⟩ := hx
    cases tok <;> simp only [Part.ofToken, Part.close.injEq, reduceCtorEq] at htok
    obtain ⟨rfl, rfl⟩ := htok
    cases htoken _ hread (h (by simp)) with
    | close ht hn =>
      simp only [Part.map]
      rw [ht, hn]
  | opening text name attrs closing =>
    obtain ⟨tok, htok, hread⟩ := hx
    cases tok <;> simp only [Part.ofToken, Part.opening.injEq, reduceCtorEq] at htok
    obtain ⟨rfl, rfl, rfl, rfl⟩ := htok
    cases htoken _ hread (h (by simp)) with
    | opening _ ht hn ha =>
      simp only [Part.map]
      rw [ht, hn, ha]
  | rawText name content closeTag =>
    obtain ⟨hraw, hread⟩ := hx
    obtain ⟨u, hu⟩ := Piece.framed_closeTag (Text.find?_eq_some (hread [])).2
    obtain ⟨hcontent, hclose⟩ := (h (by simp)).cut rfl (.inr (by
      rw [hu]
      exact headFree_cons (by decide) _))
    simp only [Part.map]
    rw [renamed_of_rawText hraw, hcontent, hclose]

end Reveal

/-- A job over what another one left, under names of its own. -/
structure Job.Renews (j j₁ : Job) (tr : Trail) : Prop where
  style : j₁.style = j.style
  lookalikes : j₁.table.lookalikes = j.table.lookalikes
  codeTags : j₁.table.codeTags = Found.values (tr.marks j.table.codeTags)
  faithful : (tr.marks j.table.codeTags).Faithful
  names : j₁.table.codeTags.map Prod.fst = j.table.codeTags.map Prod.fst
  parts : Part.ofProtected j₁.protected_ = tr.parts
  legible : ∀ s ∈ tr.strides, s.1.Legible
  sound : ∀ s ∈ tr.strides, s.1.unit.Sound j.table.codeTags ∧ s.1.unit.Ended j.table.codeTags

theorem Trail.mem_parts {tr : Trail} (h : x ∈ tr.parts) :
    (∃ c, x = .char c) ∨ ∃ s ∈ tr.strides, x = s.1.unit := by
  rcases List.mem_append.1 h with h | h
  · obtain ⟨s, hs, h⟩ := List.mem_flatMap.1 h
    rcases List.mem_append.1 h with h | h
    · obtain ⟨c, -, rfl⟩ := List.mem_map.1 h
      exact .inl ⟨c, rfl⟩
    · exact .inr ⟨s, hs, List.mem_singleton.1 h⟩
  · obtain ⟨c, -, rfl⟩ := List.mem_map.1 h
    exact .inl ⟨c, rfl⟩

/-- Parts begin with a character where what is shown of them does. -/
theorem head_shown {bs : List Stride} (hchar : ∀ b ∈ bs, ∀ c, b.unit ≠ .char c) {last : List Char}
    {c : Char} (h : (bs.flatMap Stride.parts ++ last.map Part.char).head? = some (.char c)) :
    ∃ s, bs.flatMap Stride.shown ++ last = c :: s := by
  cases bs with
  | nil =>
    cases last with
    | nil => simp at h
    | cons d last =>
      obtain rfl : d = c := Part.char.inj (Option.some.inj h)
      exact ⟨last, rfl⟩
  | cons b bs =>
    obtain ⟨literal, unit⟩ := b
    cases literal with
    | nil => exact absurd (Option.some.inj h) (hchar _ List.mem_cons_self c)
    | cons d literal =>
      obtain rfl : d = c := Part.char.inj (Option.some.inj h)
      exact ⟨_, rfl⟩

namespace Job.Renews

variable {j₁ : Job} (h : j.Renews j₁ tr)
include h

theorem restoring :
    Restoring j₁.table.glossary j.table.glossary j₁.table j.table :=
  fun _ _ hs => restore_of_renamed h.lookalikes hs

theorem sound_parts : ∀ x ∈ tr.parts, x.Sound j.table.codeTags ∧ x.Ended j.table.codeTags := by
  intro x hx
  rcases Trail.mem_parts hx with ⟨c, rfl⟩ | ⟨s, hs, rfl⟩
  · exact ⟨trivial, trivial⟩
  · exact h.sound s hs

theorem sound_parts' : ∀ x ∈ tr.parts, x.Sound j₁.table.codeTags ∧ x.Ended j₁.table.codeTags := by
  intro x hx
  obtain ⟨hsound, hended⟩ := h.sound_parts x hx
  exact ⟨Part.sound_of_names h.names hsound, Part.ended_of_names h.names hended⟩

theorem plain' : Part.Plain j₁.table.codeTags tr.parts := by
  rw [← h.parts]
  exact Part.plain_ofPieces _ (Piece.cut_ordered _)

theorem plain : Part.Plain j.table.codeTags tr.parts := Part.plain_of_names h.names.symm h.plain'

/-- Under both sets of names the parts are the same. -/
theorem reveal : tr.parts.map (Part.map j₁.table.glossary.reveal) =
    tr.parts.map (Part.map j.table.glossary.reveal) := by
  refine List.map_congr_left fun x hx => ?_
  rcases Trail.mem_parts hx with ⟨c, rfl⟩ | ⟨s, hs, rfl⟩
  · rfl
  · refine (h.legible s hs).unit.map_reveal fun hcode => ?_
    have hmarks : s.1.unit.marks j.table.codeTags s.2 =
        Text.scan j.table.codeTags.read s.1.unit.shown := by
      have hchar := (h.legible s hs).unit.ne_char
      cases hx : s.1.unit with
      | char c => exact absurd hx (hchar c)
      | code text => exact absurd hx (hcode text)
      | comment | close | opening | rawText => rfl
    have hwithin : s.1.unit.marks j.table.codeTags s.2 <:+: tr.marks j.table.codeTags := by
      obtain ⟨ss, ss', hss⟩ := List.append_of_mem hs
      refine ⟨ss.flatMap (fun s => s.1.marks j.table.codeTags s.2) ++ s.1.literal.map .char,
        ss'.flatMap (fun s => s.1.marks j.table.codeTags s.2) ++ tr.last.map .char, ?_⟩
      simp [Trail.marks, hss, Stride.marks]
    have hscan := h.faithful.scan_part hwithin
    rw [Part.written_marks s.2 hcode, hmarks, ← h.codeTags] at hscan
    exact congrArg _ hscan

section Run

variable {b : Buffer} {bs : List Stride} {last lead : List Char} {r : Run} {e e₁ : Pen}
variable {tr₀ : Trail} (hr : j.Reruns tr₀ b bs last lead r e)
variable (hstrides : tr.strides.map Prod.fst = bs) (hlast : tr.last = last ++ ['\n'])
include hr hstrides hlast

/-- Under the names of its own the run comes to its end. -/
theorem exists_run (hp : j.style.reformatter = Ruby.passThrough) :
    ∃ e₁, j₁.WritesAll ⟨j₁.start, []⟩ tr.parts e₁ ∧ (j₁.release e₁).nesting = [] := by
  obtain ⟨cs, q, hunits, hruns, hq⟩ := hr.opens
  have hnesting : r.nesting = [] := by
    rcases hr.place with ⟨-, rfl⟩ | ⟨⟨-, hahead⟩, -⟩
    · rfl
    · exact hahead.nesting
  have hstart : List.Forall₂ Frame.Kin r.nesting j₁.start.nesting := by
    rw [hnesting]
    exact .nil
  obtain ⟨q₁, hruns₁, hkin⟩ := hruns.of_kin h.style hp hstart hunits.symm
  rw [hq, List.forall₂_nil_left_iff] at hkin
  have hflush : ∀ b ∈ bs, ∀ name content closeTag, b.unit = .rawText name content closeTag →
      b.literal = [] := forall_of_forall₂ hr.relaid fun a _ b hab => hab.flush
  refine ⟨⟨q₁, (last ++ ['\n']).reverse ++ []⟩, ?_, ?_⟩
  · rw [tr.parts_eq, hstrides, hlast, List.append_nil]
    exact (writesAll_of_runs hruns₁ hflush).append (j₁.writesAll_chars q₁ (last ++ ['\n']))
  · exact (Run.nesting_text _ _ _ _).trans hkin

/-- The run under the names of its own, beside the one that follows the first. -/
theorem tracks (hp : j.style.reformatter = Ruby.passThrough)
    (hw : j₁.WritesAll ⟨j₁.start, []⟩ tr.parts e₁) : ∃ pre', allBlank pre' = true ∧
      Tracks j₁.table.glossary j.table.glossary pre' (j₁.release e₁) (j.release e) := by
  have hp₁ : j₁.style.reformatter = Ruby.passThrough := by rw [h.style, hp]
  have hruns := hr.runs
  have hparts := tr.parts_eq
  rw [hstrides, hlast] at hparts
  rw [← hparts] at hruns
  -- The two runs start alike, or the one beside starts behind a line feed that it has not written.
  rcases hr.place with ⟨rfl, rfl⟩ | ⟨⟨rfl, hahead⟩, hne⟩
  · have hplain : Part.Plain j.table.codeTags (Pen.ahead ⟨j.start, []⟩ tr.parts) := h.plain
    have hplain' : Part.Plain j₁.table.codeTags (Pen.ahead ⟨j₁.start, []⟩ tr.parts) := h.plain'
    obtain ⟨q, hq, -, htracks, -⟩ := (level_start j₁.table.glossary j.table.glossary j₁ j).writesAll
      h.restoring h.style.symm hp₁ (fun x hx => (h.sound_parts' x hx).1)
      (fun x hx => (h.sound_parts x hx).1) (fun x hx => (h.sound_parts' x hx).2) hplain' hplain
      h.reveal hw
    obtain rfl := hq.unique hruns
    exact ⟨[], rfl, htracks⟩
  · have hbuffer : (j.release ⟨r, []⟩).buffer = r.buffer := rfl
    obtain ⟨hblank, hsize⟩ : allBlank r.buffer.text = true ∧
        r.buffer.size = r.buffer.text.length := by
      rcases hahead.buffer with hb | ⟨len, hb⟩ <;> rw [hb]
      · exact ⟨rfl, rfl⟩
      · exact ⟨rfl, rfl⟩
    have hhead (c : Char) (hc : tr.parts.head? = some (.char c)) : isBlank c = false := by
      have hchar : ∀ b ∈ bs, ∀ c, b.unit ≠ .char c := by
        rw [← hstrides]
        intro b hb
        obtain ⟨s, hs, rfl⟩ := List.mem_map.1 hb
        exact (h.legible s hs).unit.ne_char
      rw [hparts] at hc
      obtain ⟨s, hs⟩ := head_shown hchar hc
      have hstart := hr.start
      rw [← List.append_assoc] at hs
      rw [← Text.startsBlank_append (t := ['\n']) hne, hs] at hstart
      exact hstart
    have hne' : tr.parts ≠ [] := by
      rw [hparts]
      simp
    have hraw (t name content closeTag : List Char) (ys : List (Part (List Char))) :
        tr.parts ≠ t.map .char ++ .rawText name content closeTag :: ys := by
      rw [← h.parts]
      exact Part.ofPieces_ne_rawText (Piece.cut_ordered _) t name content closeTag ys
    have hplain : Part.Plain j.table.codeTags (Pen.ahead ⟨r, []⟩ (.char '\n' :: tr.parts)) :=
      h.plain.cons (by decide)
    let p₀ : Pen := ⟨r, []⟩
    have hborders : Borders j.len j.width p₀.run p₀.held.reverse :=
      ⟨hahead.nesting, hsize, by simp [p₀]⟩
    obtain ⟨q, hq, htracks⟩ := hborders.writesAll (unwritten_start j₁)
      h.restoring h.style.symm hp₁ (fun x hx => (h.sound_parts' x hx).1)
      (fun x hx => (h.sound_parts x hx).1) (fun x hx => (h.sound_parts' x hx).2) h.plain' hplain
      h.reveal hne' hhead hraw (.inl rfl) hw
    obtain rfl := hq.unique hruns
    refine ⟨_, ?_, htracks⟩
    rw [hbuffer, Text.allBlank_append, hblank]
    rfl

theorem finishes (hp : j.style.reformatter = Ruby.passThrough) :
    ∃ b₁, j₁.Finishes ⟨j₁.start, []⟩ tr.parts b₁ ∧
      Text.trim (j₁.table.restore b₁.text) = Text.trim (j.table.restore b.text) := by
  obtain ⟨e₁, hw, hnesting⟩ := h.exists_run hr hstrides hlast hp
  obtain ⟨pre', hblank', htracks⟩ := h.tracks hr hstrides hlast hp hw
  obtain ⟨pre, x, x', ⟨hblank, -⟩, hfollows, -⟩ := htracks.buffer
  have hsame := h.restoring _ _ hfollows.renamed
  obtain ⟨u, g, g', hg, hg', htext, hout⟩ := hr.output
  refine ⟨_, ⟨e₁, hw, hnesting, rfl⟩, ?_⟩
  rw [hfollows.text, Table.restore_allBlank_append hblank, Text.trim_allBlank_append hblank, hsame,
    ← Text.trim_allBlank_append hblank', ← Table.restore_allBlank_append hblank', ← hfollows.text',
    hout, htext, Table.restore_append_allBlank _ hg, Table.restore_append_allBlank _ hg',
    Text.trim_append_allBlank _ hg, Text.trim_append_allBlank _ hg']

end Run

end Job.Renews

end Renewed

end ErbLayout.Template
