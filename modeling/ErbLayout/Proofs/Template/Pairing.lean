import ErbLayout.Proofs.Template.Unnamed
/-!
Which close tags match. What a run has open was opened by open tags before, whose names stand in the
source between other characters than those of names; so the names of two tags are equal where they
read alike in the source and protection left them alone.
-/

namespace ErbLayout.Markup.Token

open Placeholder

/-- What may stand behind the name of a tag: white space, or the end of the tag. -/
def EndsName (s : List Char) : Prop :=
  ∃ c r, s = c :: r ∧ (isBlank c = true ∨ c = '/' ∨ c = '>')

/-- How a tag holds its name. -/
structure Holds (tag pre name post : List Char) : Prop where
  eq : tag = pre ++ (name ++ post)
  free : Free pre
  ends : EndsName post
  word : ∀ c ∈ name, isWord c = true

variable {tag pre name post : List Char} {t : Table}

theorem EndsName.exists_free (h : EndsName post) :
    ∃ c r, post = c :: r ∧ Placeholder.isNameChar c = false := by
  obtain ⟨c, r, rfl, hc | rfl | rfl⟩ := h
  · exact ⟨c, r, rfl, isNameChar_of_isBlank hc⟩
  · exact ⟨'/', r, rfl, by decide⟩
  · exact ⟨'>', r, rfl, by decide⟩

theorem EndsName.headFree (h : EndsName post) (s : List Char) : HeadFree (post ++ s) := by
  obtain ⟨c, r, rfl, hc⟩ := h.exists_free
  exact headFree_cons hc (r ++ s)

theorem EndsName.restore (h : EndsName post) : EndsName (t.restore post) := by
  obtain ⟨d, u, he, hd⟩ := h.exists_free
  obtain ⟨c, r, rfl, hc⟩ := h
  obtain ⟨rfl, rfl⟩ := List.cons.inj he
  exact ⟨c, t.restore r, Table.restore_cons hd r, hc⟩

theorem Holds.restore (h : Holds tag pre name post) :
    t.restore tag = pre ++ (t.restore name ++ t.restore post) := by
  obtain ⟨c, r, rfl, hc⟩ := h.ends.exists_free
  rw [h.eq, Table.restore_free_append h.free, Table.restore_append_cons name hc,
    Table.restore_cons hc]

theorem endsName_append_blank {gap : List Char} (hgap : Text.allBlank gap = true)
    (h : EndsName post) : EndsName (gap ++ post) := by
  cases gap with
  | nil => exact h
  | cons c gap =>
    rw [Text.allBlank, List.all_cons, Bool.and_eq_true] at hgap
    exact ⟨c, gap ++ post, rfl, .inl hgap.1⟩

theorem exists_holds_close {s text name : List Char}
    (h : readAny s = some (.close text name)) : ∃ gap gap', Text.allBlank gap = true ∧
      Text.allBlank gap' = true ∧ Holds text ('<' :: '/' :: gap) name (gap' ++ ['>']) := by
  obtain ⟨gap, name', gap', he, hgap, hgap', -, hword, -⟩ := readClose_eq_some (readAny_close h)
  simp only [Token.close.injEq] at he
  obtain ⟨rfl, rfl⟩ := he
  refine ⟨gap, gap', hgap, hgap', by simp, ?_, ?_, hword⟩
  · exact (free_of_all (s := ['<', '/']) (by decide)).append (free_of_allBlank hgap)
  · exact endsName_append_blank hgap' ⟨'>', [], rfl, by simp⟩

theorem exists_holds_opening {s text name attrs : List Char} {closing : Closing}
    (h : readAny s = some (.opening text name attrs closing)) :
    ∃ post, Holds text ['<'] name post := by
  obtain ⟨name', as, gap, closing', he, -, hword, has, hgap, -⟩ :=
    readOpening_eq_some (readAny_opening h)
  simp only [Token.opening.injEq] at he
  obtain ⟨rfl, rfl, rfl, rfl⟩ := he
  have hclosing : EndsName closing.text := by cases closing <;> exact ⟨_, _, rfl, by simp⟩
  refine ⟨spacedText as ++ gap ++ closing.text, by simp, free_of_all (by decide), ?_, hword⟩
  cases as with
  | nil => exact endsName_append_blank hgap hclosing
  | cons p as =>
    obtain ⟨hgap₁, hblank, -⟩ := has p List.mem_cons_self
    obtain ⟨c, g, hg⟩ := List.exists_cons_of_ne_nil hgap₁
    rw [hg, Text.allBlank, List.all_cons, Bool.and_eq_true] at hblank
    refine ⟨c, g ++ (p.2.text ++ spacedText as) ++ gap ++ closing.text, ?_, .inl hblank.1⟩
    rw [spacedText_cons, hg]
    rfl

end ErbLayout.Markup.Token

namespace ErbLayout.Template

open Layout Markup Placeholder

theorem topIsElement_iff {n : Nesting} {name : List Char} :
    n.topIsElement name = true ↔ ∃ raw rest, n = .element name raw :: rest := by
  cases n with
  | nil => simp [Nesting.topIsElement]
  | cons f rest => cases f <;> simp [Nesting.topIsElement]

namespace Job

variable {j : Job} {r r' : Run} {offset : Nat} {name raw : List Char}

/-- A run over pieces, with more of the template to come. -/
def along (j : Job) : Nat → List Piece → Run → Step
  | _, [], r => .ok r
  | offset, p :: ps, r => do
    let r ← j.piece r offset p
    j.along (offset + p.text.length) ps r

theorem along_cons_eq_ok {p : Piece} {ps : List Piece} (h : j.along offset (p :: ps) r = .ok r') :
    ∃ r₁, j.piece r offset p = .ok r₁ ∧ j.along (offset + p.text.length) ps r₁ = .ok r' := by
  rw [along] at h
  cases hp : j.piece r offset p with
  | error halt =>
    rw [hp] at h
    simp [bind, Except.bind] at h
  | ok r₁ =>
    rw [hp] at h
    exact ⟨r₁, rfl, h⟩

theorem pieces_append (offset : Nat) (ps qs : List Piece) (r : Run) :
    j.pieces offset (ps ++ qs) r =
      j.along offset ps r >>= j.pieces (offset + (ps.flatMap Piece.text).length) qs := by
  induction ps generalizing offset r with
  | nil => rfl
  | cons p ps ih =>
    rw [List.cons_append, pieces, along, List.flatMap_cons, List.length_append, ← Nat.add_assoc]
    cases j.piece r offset p with
    | error halt => rfl
    | ok r₁ => exact ih _ r₁

/-- Code tags open no elements. -/
theorem element_of_codeTag {text : List Char} (h : j.codeTag r text offset = .ok r')
    (hf : .element name raw ∈ r'.nesting) : .element name raw ∈ r.nesting := by
  obtain ⟨tag, r₁, code, -, -, rfl, hcase⟩ := codeTag_cases h
  have hmem : .element name raw ∈ r₁.nesting := by
    revert hf
    cases Ruby.classify j.style.checker tag.code <;> simp [afterCode]
  rcases hcase with ⟨-, -, hn, -⟩ | ⟨-, hn, -⟩
  · exact List.mem_of_mem_tail (hn ▸ hmem)
  · exact hn ▸ hmem

theorem element_of_gapFrom {cur : List Char} {fs : List (Text.Found (Name × List Char))}
    (h : j.gapFrom cur offset fs r = .ok r') (hf : .element name raw ∈ r'.nesting) :
    .element name raw ∈ r.nesting := by
  induction fs generalizing cur offset r with
  | nil =>
    rw [gapFrom, Except.ok.injEq] at h
    rw [← h] at hf
    simpa using hf
  | cons f fs ih =>
    cases f with
    | char c => exact ih h
    | value e =>
      obtain ⟨r₁, hcode, hrest⟩ := gapFrom_value_eq_ok h
      simpa using element_of_codeTag hcode (ih hrest)

theorem nesting_rawText (r : Run) (name content closeTag : List Char) :
    (j.rawText r name content closeTag).nesting =
      if closeTag.isEmpty then r.nesting else r.nesting.tail := by
  unfold rawText
  cases closeTag.isEmpty <;> cases Text.allBlank content <;> simp

/-- What a piece leaves open was open before, or the piece opens it. -/
theorem element_of_piece {p : Piece} (h : j.piece r offset p = .ok r')
    (hf : .element name raw ∈ r'.nesting) : .element name raw ∈ r.nesting ∨
      ∃ text attrs closing, p = .token (.opening text name attrs closing) := by
  cases p with
  | gap text =>
    rw [piece, gap] at h
    split at h
    · simp at h
    · split at h
      · simp at h
      · exact .inl (element_of_gapFrom h hf)
  | rawText m content closeTag =>
    rw [piece, Except.ok.injEq] at h
    rw [← h, nesting_rawText] at hf
    split at hf
    · exact .inl hf
    · exact .inl (List.mem_of_mem_tail hf)
  | token t =>
    cases t with
    | comment text =>
      rw [piece, Except.ok.injEq] at h
      rw [← h] at hf
      exact .inl (by simpa [comment] using hf)
    | close text m =>
      rw [piece] at h
      cases hopen : r.nesting.topIsElement m with
      | false =>
        rw [j.closeTag_unmatched hopen] at h
        simp at h
      | true =>
        rw [j.closeTag_open hopen, Except.ok.injEq] at h
        rw [← h, nesting_afterClose] at hf
        exact .inl (List.mem_of_mem_tail hf)
    | opening text m attrs closing =>
      rw [piece] at h
      cases hname : Element.isValidName m with
      | false =>
        rw [j.openTag_invalid hname] at h
        simp at h
      | true =>
        rw [j.openTag_valid hname, Except.ok.injEq] at h
        rw [← h, nesting_afterOpen] at hf
        split at hf
        · exact .inl hf
        · rcases List.mem_cons.1 hf with he | hf
          · obtain ⟨rfl, -⟩ := Frame.element.inj he
            exact .inr ⟨text, attrs, closing, rfl⟩
          · exact .inl hf

/-- What a run over pieces leaves open was open before, or one of the pieces opens it. -/
theorem element_of_along {ps : List Piece} (h : j.along offset ps r = .ok r')
    (hf : .element name raw ∈ r'.nesting) : .element name raw ∈ r.nesting ∨
      ∃ ps₁ text attrs closing ps₂, ps = ps₁ ++ .token (.opening text name attrs closing) :: ps₂ := by
  induction ps generalizing offset r with
  | nil =>
    rw [along, Except.ok.injEq] at h
    exact .inl (h ▸ hf)
  | cons p ps ih =>
    obtain ⟨r₁, hp, hps⟩ := along_cons_eq_ok h
    rcases ih hps with hmem | ⟨ps₁, text, attrs, closing, ps₂, rfl⟩
    · rcases element_of_piece hp hmem with hmem | ⟨text, attrs, closing, rfl⟩
      · exact .inl hmem
      · exact .inr ⟨[], text, attrs, closing, ps, rfl⟩
    · exact .inr ⟨p :: ps₁, text, attrs, closing, ps₂, rfl⟩

theorem closeTag_ok_iff_top : (∃ r', j.closeTag r name offset = .ok r') ↔
    ∃ raw rest, r.nesting = .element name raw :: rest := by
  rw [← topIsElement_iff]
  cases htop : r.nesting.topIsElement name with
  | true =>
    rw [j.closeTag_open htop]
    simp
  | false =>
    rw [j.closeTag_unmatched htop]
    simp

end Job

open Text (Framed allBlank)
open Markup.Token (EndsName Holds)

section Places

variable {names : Names} {source : List Char} {ws ts : Marked}
variable {before after before₁ before₂ : List Piece} {text name a b : List Char}

theorem text_of_cut {s : List Char} {p : Piece} (h : Piece.cut s = before ++ p :: after) :
    s = before.flatMap Piece.text ++ (p.text ++ after.flatMap Piece.text) := by
  rw [← Piece.cut_text s, h, List.flatMap_append, List.flatMap_cons]

/-- A tag cuts a protected template where it cuts no name. -/
theorem restore_around (h : Marking names source ws ts) (hf : Framed text)
    (hs : (protect names source).working = a ++ (text ++ b)) :
    source = (protect names source).table.restore a ++
      ((protect names source).table.restore text ++ (protect names source).table.restore b) := by
  rw [← Table.restore_append_of_ends h.proper (ends_of_framed hf),
    ← Table.restore_append_of_begins h.proper a (begins_append (begins_of_framed hf) b), ← hs,
    h.restore_working]

theorem restore_of_short {t : Table} {s : List Char} (h : s.length < Name.size) :
    t.restore s = s :=
  Table.Unnamed.restore ⟨Entries.namesIn_of_short h, Entries.namesIn_of_short h⟩

theorem reads_close (h : Marking names source ws ts)
    (hcut : Piece.cut (protect names source).working =
      before ++ .token (.close text name) :: after) :
    let t := (protect names source).table
    ∃ gap gap', allBlank gap = true ∧ allBlank gap' = true ∧
      source = t.restore (before.flatMap Piece.text) ++ ('<' :: '/' :: gap ++ t.restore name ++
        gap' ++ ['>'] ++ t.restore (after.flatMap Piece.text)) := by
  obtain ⟨u, hu⟩ := Piece.mem_cut_token (hcut ▸ List.mem_append_right before List.mem_cons_self)
  obtain ⟨gap, gap', hgap, hgap', hholds⟩ := Token.exists_holds_close hu
  refine ⟨gap, gap', hgap, hgap', ?_⟩
  conv_lhs => rw [restore_around h (Token.readAny_framed hu) (text_of_cut hcut)]
  rw [Token.text, hholds.restore, Table.restore_allBlank_append hgap',
    restore_of_short (s := ['>']) (by decide)]
  simp only [List.cons_append, List.append_assoc]

theorem reads_opening {attrs : List Char} {closing : Closing} (h : Marking names source ws ts)
    (hcut : Piece.cut (protect names source).working =
      before ++ .token (.opening text name attrs closing) :: after) :
    let t := (protect names source).table
    ∃ post, EndsName post ∧ source = t.restore (before.flatMap Piece.text) ++
      ('<' :: t.restore name ++ post ++ t.restore (after.flatMap Piece.text)) := by
  obtain ⟨u, hu⟩ := Piece.mem_cut_token (hcut ▸ List.mem_append_right before List.mem_cons_self)
  obtain ⟨post, hholds⟩ := Token.exists_holds_opening hu
  refine ⟨_, hholds.ends.restore (t := (protect names source).table), ?_⟩
  conv_lhs => rw [restore_around h (Token.readAny_framed hu) (text_of_cut hcut)]
  rw [Token.text, hholds.restore]
  simp only [List.cons_append, List.nil_append, List.append_assoc]

theorem reads_rawClose {content closeTag : List Char} (h : Marking names source ws ts)
    (hcut : Piece.cut (protect names source).working =
      before ++ .rawText name content closeTag :: after) (hne : closeTag ≠ []) :
    let t := (protect names source).table
    ∃ gap spelled gap', allBlank gap = true ∧ allBlank gap' = true ∧
      sameLetters name spelled = true ∧
      source = t.restore (before.flatMap Piece.text ++ content) ++
        ('<' :: '/' :: gap ++ spelled ++ gap' ++ ['>'] ++
          t.restore (after.flatMap Piece.text)) := by
  obtain ⟨hraw, hread⟩ :=
    Piece.mem_cut_rawText (hcut ▸ List.mem_append_right before List.mem_cons_self)
  obtain ⟨u, n, hu⟩ := hread hne
  obtain ⟨gap, spelled, gap', rfl, hgap, hgap', hsame, -⟩ := Piece.readCloseOf_eq_some hu
  have hshort : spelled.length < Name.size := by
    have hlen := length_of_rawText hraw
    rw [Piece.length_eq_of_sameLetters hsame] at hlen
    exact hlen.trans (by decide)
  have hfree : Free ('<' :: '/' :: gap) :=
    (free_of_all (s := ['<', '/']) (by decide)).append (free_of_allBlank hgap)
  have hclose : (protect names source).table.restore
      ('<' :: '/' :: gap ++ spelled ++ gap' ++ ['>']) =
        '<' :: '/' :: gap ++ spelled ++ gap' ++ ['>'] := by
    rw [Table.restore_concat _ (by decide), Table.restore_append_blank _ hgap',
      Table.restore_free_append hfree, restore_of_short hshort]
  refine ⟨gap, spelled, gap', hgap, hgap', hsame, ?_⟩
  have hframed : Framed ('<' :: '/' :: gap ++ spelled ++ gap' ++ ['>']) :=
    ⟨'/' :: gap ++ spelled ++ gap', rfl⟩
  have hwork := text_of_cut hcut
  rw [Piece.text, List.append_assoc, ← List.append_assoc] at hwork
  conv_lhs => rw [restore_around h hframed hwork, hclose]

/-- The names of an open tag and of a close tag behind it. -/
theorem eq_iff_of_cut {m text₁ attrs : List Char} {closing : Closing}
    (h : Marking names source ws ts)
    (hcut : Piece.cut (protect names source).working =
      (before₁ ++ .token (.opening text₁ m attrs closing) :: before₂) ++
        .token (.close text name) :: after) :
    let t := (protect names source).table
    m = name ↔ t.restore m = t.restore name ∧ Nameless (t.restore name) ∧
      Erb.tagsIn (t.restore name) = [] := by
  obtain ⟨u, hu⟩ := Piece.mem_cut_token (hcut ▸ List.mem_append_right _ List.mem_cons_self)
  obtain ⟨u₁, hu₁⟩ := Piece.mem_cut_token
    (hcut ▸ List.mem_append_left _ (List.mem_append_right before₁ List.mem_cons_self))
  obtain ⟨gap, gap', -, -, hclose⟩ := Token.exists_holds_close hu
  obtain ⟨post, hopen⟩ := Token.exists_holds_opening hu₁
  refine h.eq_iff_restore (a := before₁.flatMap Piece.text ++ ['<'])
    (c := post ++ (before₂.flatMap Piece.text ++ '<' :: '/' :: gap))
    (b := gap' ++ ['>'] ++ after.flatMap Piece.text) ?_ (lastFree_concat _ (by decide))
    (hopen.ends.headFree _) (by simp) ?_ (hclose.ends.headFree _)
    (angle_not_mem_of_word hopen.word) (angle_not_mem_of_word hclose.word)
  · rw [text_of_cut hcut, List.flatMap_append, List.flatMap_cons]
    simp only [Piece.text, Token.text]
    rw [hclose.eq, hopen.eq]
    simp only [List.append_assoc, List.cons_append, List.nil_append]
  · have hlast : LastFree ('<' :: '/' :: gap) := hclose.free.lastFree
    exact (hlast.behind (by simp) _).behind (by simp) _

end Places

theorem exists_ok_of_nesting {out : Step} {n : Nesting}
    (h : out.toOption.map Run.nesting = some n) : ∃ r, out = .ok r ∧ r.nesting = n := by
  cases out with
  | error halt => simp [Except.toOption] at h
  | ok r => exact ⟨r, rfl, by simpa [Except.toOption] using h⟩

/-- A close tag is accepted exactly when the innermost frame is an element, whose name reads in the
template as the close tag's does, and protection left that name alone: no word in it looks like a
name and no ERB tag is in it. Elsewhere each of the two names got its own. The close tags of raw text
are found by the letters of the name, in any case. -/
theorem close_accepted_iff (style : Style) (names : Names) (source : List Char)
    (ha : names.Ample (3 * source.length)) :
    let p := protect names source
    let j : Job := ⟨style, p⟩
    let written := p.table.restore
    let around (ps : List Piece) := written (ps.flatMap Piece.text)
    (∀ before text name after r,
      Piece.cut p.working = before ++ .token (.close text name) :: after →
      j.along 0 before j.start = .ok r →
      j.run = j.pieces (before.flatMap Piece.text).length (.token (.close text name) :: after) r ∧
      (∃ gap gap', allBlank gap = true ∧ allBlank gap' = true ∧ source = around before ++
        ('<' :: '/' :: gap ++ written name ++ gap' ++ ['>'] ++ around after)) ∧
      (∀ m raw, .element m raw ∈ r.nesting → ∃ before₁ text₁ attrs closing before₂ post,
        before = before₁ ++ .token (.opening text₁ m attrs closing) :: before₂ ∧ EndsName post ∧
        source = around before₁ ++ ('<' :: written m ++ post ++
          around (before₂ ++ .token (.close text name) :: after))) ∧
      ((∃ r', j.piece r (before.flatMap Piece.text).length (.token (.close text name)) = .ok r') ↔
        ∃ m raw rest, r.nesting = .element m raw :: rest ∧ written m = written name ∧
          Nameless (written name) ∧ Erb.tagsIn (written name) = [])) ∧
    (∀ before name content closeTag after,
      Piece.cut p.working = before ++ .rawText name content closeTag :: after → closeTag ≠ [] →
      ∃ gap spelled gap', allBlank gap = true ∧ allBlank gap' = true ∧
        sameLetters name spelled = true ∧
        source = written (before.flatMap Piece.text ++ content) ++
          ('<' :: '/' :: gap ++ spelled ++ gap' ++ ['>'] ++ around after)) := by
  intro p j written around
  obtain ⟨ws, ts, h⟩ := exists_marking ha
  refine ⟨fun before text name after r hcut hrun => ⟨?_, reads_close h hcut, ?_, ?_⟩,
    fun before name content closeTag after hcut hne => reads_rawClose h hcut hne⟩
  · rw [Job.run, show Piece.cut j.protected_.working = _ from hcut, Job.pieces_append, hrun,
      Nat.zero_add]
    rfl
  · intro m raw hmem
    rcases Job.element_of_along hrun hmem with hnil | ⟨ps₁, text₁, attrs, closing, ps₂, rfl⟩
    · simp [Job.start, Run.note] at hnil
    · rw [List.append_assoc, List.cons_append] at hcut
      obtain ⟨post, hpost, hsource⟩ := reads_opening h hcut
      exact ⟨ps₁, text₁, attrs, closing, ps₂, post, rfl, hpost, hsource⟩
  · have hnames (m raw : List Char) (hmem : .element m raw ∈ r.nesting) :
        m = name ↔ written m = written name ∧ Nameless (written name) ∧
          Erb.tagsIn (written name) = [] := by
      rcases Job.element_of_along hrun hmem with hnil | ⟨ps₁, text₁, attrs, closing, ps₂, rfl⟩
      · simp [Job.start, Run.note] at hnil
      · exact eq_iff_of_cut h hcut
    rw [Job.piece, Job.closeTag_ok_iff_top]
    constructor
    · rintro ⟨raw, rest, hn⟩
      exact ⟨name, raw, rest, hn, (hnames name raw (by simp [hn])).1 rfl⟩
    · rintro ⟨m, raw, rest, hn, hsame⟩
      obtain rfl := (hnames m raw (by simp [hn])).2 hsame
      exact ⟨raw, rest, hn⟩

theorem close_accepted_iff_nested :
    let style : Style := { checker := fun _ => true }
    let source := "<p><b id=erbxtag>a</ b></p>".toList
    let p := protect (Names.counting 256) source
    let j : Job := ⟨style, p⟩
    let ps := Piece.cut p.working
    ∃ text r r', ps[5]? = some (.token (.close text ['b'])) ∧ j.along 0 (ps.take 5) j.start = .ok r ∧
      j.piece r ((ps.take 5).flatMap Piece.text).length (.token (.close text ['b'])) = .ok r' := by
  intro style source p j ps
  have ha : (Names.counting 256).Ample (3 * source.length) :=
    Names.ample_counting (by decide) (by decide)
  have hcut : ps = ps.take 5 ++ .token (.close "</ b>".toList ['b']) :: ps.drop 6 := by
    decide +kernel
  have hopen : (j.along 0 (ps.take 5) j.start).toOption.map Run.nesting =
      some [.element ['b'] "<b id=erbxtag>".toList, .element ['p'] "<p>".toList] := by
    decide +kernel
  obtain ⟨r, hrun, hn⟩ := exists_ok_of_nesting hopen
  obtain ⟨-, -, -, hiff⟩ :=
    (close_accepted_iff style (Names.counting 256) source ha).1 _ _ _ _ r hcut hrun
  obtain ⟨r', hr'⟩ := hiff.2 ⟨['b'], _, _, hn, rfl, by decide +kernel, by decide +kernel⟩
  exact ⟨_, r, r', by decide +kernel, hrun, hr'⟩

/-- Two equal names, of which each gets its own. -/
theorem close_refuses_equal_names :
    let style : Style := { checker := fun _ => true }
    let source := "<erbxtag></erbxtag>".toList
    let p := protect (Names.counting 256) source
    let j : Job := ⟨style, p⟩
    let ps := Piece.cut p.working
    ∃ text m name raw r, ps[3]? = some (.token (.close text name)) ∧
      j.along 0 (ps.take 3) j.start = .ok r ∧ r.nesting = [.element m raw] ∧
      p.table.restore m = "erbxtag".toList ∧ p.table.restore name = "erbxtag".toList ∧
      ∀ r', j.piece r ((ps.take 3).flatMap Piece.text).length (.token (.close text name)) ≠
        .ok r' := by
  intro style source p j ps
  have hopen : (j.along 0 (ps.take 3) j.start).toOption.map Run.nesting =
      some [.element (Name.text 1) "<erbxtag>".toList] := by
    decide +kernel
  obtain ⟨r, hrun, hn⟩ := exists_ok_of_nesting hopen
  refine ⟨'<' :: '/' :: Name.text 2 ++ ['>'], Name.text 1, Name.text 2, _, r, by decide +kernel,
    hrun, hn, by decide +kernel, by decide +kernel, fun r' hr' => ?_⟩
  obtain ⟨raw, rest, hn'⟩ := Job.closeTag_ok_iff_top.1 ⟨r', hr'⟩
  rw [hn] at hn'
  obtain ⟨hname, -⟩ := Frame.element.inj (List.cons.inj hn').1
  exact absurd (Name.text_injective hname) (by decide)

end ErbLayout.Template
