import ErbLayout.Proofs.Markup.Pieces
import ErbLayout.Proofs.Template.Pairing
import ErbLayout.Proofs.Template.Reprinted
/-!
A protected template in strides: literal text, and the unit behind it. A run over the parts of a
template is one over its strides and the literal text behind the last of them.
-/

namespace ErbLayout.Placeholder.Marked

variable {ms : Marked} {c : Char}

theorem mem_of_mem_written (h : c ∈ ms.written) (hc : isNameChar c = false) : c ∈ ms.meant := by
  induction ms with
  | nil => exact h
  | cons x ms ih =>
    cases x with
    | char d =>
      rcases List.mem_cons.1 h with rfl | h
      · exact List.mem_cons_self
      · exact List.mem_cons_of_mem d (ih h)
    | value e =>
      rcases List.mem_append.1 h with h | h
      · rw [Name.isNameChar_of_mem h] at hc
        exact absurd hc (by simp)
      · exact List.mem_append_right e.2 (ih h)

theorem plainLines_written (h : Text.PlainLines ms.meant) : Text.PlainLines ms.written :=
  fun c hc hb => h c (mem_of_mem_written hc (isNameChar_of_isBlank hb)) hb

end ErbLayout.Placeholder.Marked

namespace ErbLayout.Template

open Layout Markup Placeholder
open Text (Found Framed allBlank)

/-- A part as it stands in a protected template, with the name of its code. -/
def Part.marks (es : Entries) (n : Name) : Part (List Char) → Marked
  | .char c => [.char c]
  | .code text => [.value (n, text)]
  | x => Text.scan es.read x.shown

def Stride.marks (es : Entries) (n : Name) (a : Stride) : Marked :=
  a.literal.map .char ++ a.unit.marks es n

def Stride.parts (a : Stride) : List (Part (List Char)) := a.literal.map .char ++ [a.unit]

/-- Strides with the names of their code, and the literal text behind them. -/
structure Trail where
  strides : List (Stride × Name)
  last : List Char

namespace Trail

def parts (tr : Trail) : List (Part (List Char)) :=
  tr.strides.flatMap (fun s => s.1.parts) ++ tr.last.map .char

/-- The trail in a protected template. -/
def marks (es : Entries) (tr : Trail) : Marked :=
  tr.strides.flatMap (fun s => s.1.marks es s.2) ++ tr.last.map .char

theorem marks_cons (es : Entries) (s : Stride × Name) (ss : List (Stride × Name))
    (last : List Char) : marks es ⟨s :: ss, last⟩ =
      s.1.literal.map .char ++ (s.1.unit.marks es s.2 ++ marks es ⟨ss, last⟩) := by
  simp [marks, Stride.marks]

theorem parts_cons (s : Stride × Name) (ss : List (Stride × Name)) (last : List Char) :
    parts ⟨s :: ss, last⟩ = s.1.literal.map .char ++ s.1.unit :: parts ⟨ss, last⟩ := by
  simp [parts, Stride.parts]

theorem parts_eq (tr : Trail) :
    tr.parts = (tr.strides.map Prod.fst).flatMap Stride.parts ++ tr.last.map .char := by
  rw [parts, List.flatMap_map]

/-- A trail that goes over these parts. -/
theorem exists_of_parts (zs : List (Part (List Char) × Name)) : ∃ tr : Trail,
    tr.parts = zs.map Prod.fst ∧ (∀ es, tr.marks es = zs.flatMap fun z => z.1.marks es z.2) ∧
      ∀ s ∈ tr.strides, ∀ c, s.1.unit ≠ .char c := by
  induction zs with
  | nil => exact ⟨⟨[], []⟩, rfl, fun _ => rfl, by simp⟩
  | cons z zs ih =>
    obtain ⟨⟨ss, last⟩, hparts, hmarks, hunits⟩ := ih
    obtain ⟨x, n⟩ := z
    by_cases hx : ∃ c, x = .char c
    · obtain ⟨c, rfl⟩ := hx
      cases ss with
      | nil =>
        refine ⟨⟨[], c :: last⟩, ?_, fun es => ?_, by simp⟩
        · rw [List.map_cons, ← hparts]
          rfl
        · rw [List.flatMap_cons, ← hmarks]
          rfl
      | cons s ss =>
        obtain ⟨⟨literal, unit⟩, m⟩ := s
        obtain ⟨hunit, hunits⟩ := List.forall_mem_cons.1 hunits
        refine ⟨⟨(⟨c :: literal, unit⟩, m) :: ss, last⟩, ?_, fun es => ?_,
          List.forall_mem_cons.2 ⟨hunit, hunits⟩⟩
        · rw [List.map_cons, ← hparts]
          rfl
        · rw [List.flatMap_cons, ← hmarks]
          rfl
    · refine ⟨⟨(⟨[], x⟩, n) :: ss, last⟩, ?_, fun es => ?_, ?_⟩
      · rw [List.map_cons, ← hparts]
        rfl
      · rw [List.flatMap_cons, ← hmarks, marks, List.flatMap_cons, List.append_assoc]
        rfl
      · exact List.forall_mem_cons.2 ⟨fun c hc => hx ⟨c, hc⟩, hunits⟩

end Trail

section Pieces

variable {t : Table} {raw : Option (List Char)} {ps : List Piece}

theorem marks_ofToken (es : Entries) (n : Name) (tok : Token) :
    (Part.ofToken tok).marks es n = Text.scan es.read tok.text := by
  cases tok <;> rfl

theorem exists_marked_found (es : Entries) (fs : Marked) :
    ∃ zs : List (Part (List Char) × Name), zs.map Prod.fst = fs.map Part.ofFound ∧
      zs.flatMap (fun z => z.1.marks es z.2) = fs := by
  induction fs with
  | nil => exact ⟨[], rfl, rfl⟩
  | cons f fs ih =>
    obtain ⟨zs, hzs, hmarks⟩ := ih
    cases f with
    | char c =>
      refine ⟨(.char c, 0) :: zs, ?_, ?_⟩
      · rw [List.map_cons, hzs]
        rfl
      · rw [List.flatMap_cons, hmarks]
        rfl
    | value e =>
      refine ⟨(.code e.2, e.1) :: zs, ?_, ?_⟩
      · rw [List.map_cons, hzs]
        rfl
      · rw [List.flatMap_cons, hmarks]
        rfl

/-- The parts of pieces with the names of their code. -/
theorem exists_marked (ho : Piece.Ordered raw ps) (htok : ∀ tok, .token tok ∈ ps → Framed tok.text)
    (hraw : ∀ name content closeTag, .rawText name content closeTag ∈ ps → closeTag ≠ [] →
      Framed closeTag) :
    ∃ zs : List (Part (List Char) × Name), zs.map Prod.fst = Part.ofPieces t ps ∧
      zs.flatMap (fun z => z.1.marks t.codeTags z.2) =
        Text.scan t.codeTags.read (ps.flatMap Piece.text) := by
  induction ho with
  | nil raw => exact ⟨[], rfl, rfl⟩
  | unclosed name content =>
    exact ⟨[(.rawText name content [], 0)], rfl, by simp [Part.marks, Part.shown, Piece.text]⟩
  | @rawText name content closeTag ps hne _ ih =>
    obtain ⟨zs, hzs, hmarks⟩ := ih (fun tok h => htok tok (List.mem_cons_of_mem _ h))
      fun name content closeTag h => hraw name content closeTag (List.mem_cons_of_mem _ h)
    refine ⟨(.rawText name content closeTag, 0) :: zs, ?_, ?_⟩
    · rw [List.map_cons, hzs]
      rfl
    · have hlast : LastFree (content ++ closeTag) := by
        obtain ⟨u, rfl⟩ := hraw name content closeTag List.mem_cons_self hne
        rw [← List.append_assoc]
        exact lastFree_concat _ (by decide)
      rw [List.flatMap_cons, hmarks, List.flatMap_cons]
      exact (Entries.scan_append (seam_of_free (.inl hlast))).symm
  | last text =>
    obtain ⟨zs, hzs, hmarks⟩ :=
      exists_marked_found t.codeTags (Text.scan t.codeTags.read text)
    refine ⟨zs, ?_, ?_⟩
    · rw [hzs, Part.ofPieces_cons]
      exact (List.append_nil _).symm
    · rw [hmarks]
      exact congrArg _ (List.append_nil text).symm
  | @token text tok ps _ ih =>
    obtain ⟨zs, hzs, hmarks⟩ := ih
      (fun tok h => htok tok (List.mem_cons_of_mem _ (List.mem_cons_of_mem _ h)))
      fun name content closeTag h => hraw name content closeTag
        (List.mem_cons_of_mem _ (List.mem_cons_of_mem _ h))
    obtain ⟨zs', hzs', hmarks'⟩ :=
      exists_marked_found t.codeTags (Text.scan t.codeTags.read text)
    obtain ⟨u, hu⟩ := htok tok (List.mem_cons_of_mem _ List.mem_cons_self)
    have hlast : LastFree tok.text := by
      rw [hu]
      exact lastFree_concat ('<' :: u) (by decide)
    have hhead : HeadFree (tok.text ++ ps.flatMap Piece.text) := by
      rw [hu]
      exact headFree_cons (by decide) _
    refine ⟨zs' ++ (Part.ofToken tok, 0) :: zs, ?_, ?_⟩
    · rw [List.map_append, List.map_cons, hzs', hzs]
      rfl
    · rw [List.flatMap_append, List.flatMap_cons, hmarks', hmarks, marks_ofToken, List.flatMap_cons,
        List.flatMap_cons]
      change _ = Text.scan t.codeTags.read (text ++ (tok.text ++ ps.flatMap Piece.text))
      rw [Entries.scan_append (seam_of_free (.inr hhead)),
        Entries.scan_append (seam_of_free (.inl hlast))]

end Pieces

section Runs

variable {j : Job} {r : Run} {p q : Pen} {as : List Stride} {last : List Char}

theorem Job.release_reverse (j : Job) (r : Run) (l : List Char) :
    j.release ⟨r, l.reverse⟩ = r.text j.len j.width l := by
  rw [Job.release, List.reverse_reverse]

theorem Job.writesAll_chars (j : Job) (r : Run) (l : List Char) :
    j.WritesAll ⟨r, []⟩ (l.map .char) ⟨r, l.reverse⟩ :=
  (Job.writesAll_chars_iff _ _ _).2 (by rw [List.append_nil])

theorem Job.rawText_text (j : Job) (r : Run) (name content : List Char) {closeTag : List Char}
    (h : closeTag ≠ []) (len : Measure) (width : Int) :
    j.rawText (r.text len width []) name content closeTag = j.rawText r name content closeTag := by
  rw [r.text_of_blank len width rfl, j.rawText_closed _ _ _ h, j.rawText_closed _ _ _ h]
  unfold Job.afterBody Run.pop Run.emit Run.tagWritten Run.note
  cases r.nesting <;> cases allBlank content <;> cases Text.endsBlank content <;> rfl

/-- A run over the parts of a stride. -/
theorem exists_puts {a : Stride} (hchar : ∀ c, a.unit ≠ .char c)
    (hclose : ∀ name content, a.unit ≠ .rawText name content [])
    (h : j.WritesAll ⟨r, []⟩ a.parts q) :
    ∃ r₁, q = ⟨r₁, []⟩ ∧ j.Puts (r.text j.len j.width a.literal) a.unit r₁ ∧
      ∀ name content closeTag, a.unit = .rawText name content closeTag → a.literal = [] := by
  obtain ⟨literal, unit⟩ := a
  obtain ⟨p, hp, hq⟩ := h.split
  rw [Job.writesAll_chars_iff, List.append_nil] at hp
  subst hp
  have hrelease := j.release_reverse r literal
  generalize hheld : literal.reverse = held at hq hrelease
  cases hq with
  | cons hx hnil =>
    cases hnil
    cases hx with
    | char r cur c => exact absurd rfl (hchar c)
    | code hcode =>
      refine ⟨_, rfl, .code ?_, by simp⟩
      rwa [hrelease] at hcode
    | comment p text =>
      rw [hrelease]
      exact ⟨_, rfl, .comment text, by simp⟩
    | close text hclosed =>
      refine ⟨_, rfl, .close text ?_, by simp⟩
      rwa [hrelease] at hclosed
    | opening text hopen =>
      refine ⟨_, rfl, .opening text ?_, by simp⟩
      rwa [hrelease] at hopen
    | @rawText _ name content closeTag =>
      have hnil : closeTag ≠ [] := by
        rintro rfl
        exact hclose name content rfl
      obtain rfl : literal = [] := List.reverse_eq_nil_iff.1 hheld
      refine ⟨_, rfl, ?_, fun _ _ _ _ => rfl⟩
      rw [← j.rawText_text r name content hnil j.len j.width]
      exact .rawText name content hnil

theorem writesAll_of_puts {a : Stride} {r₁ : Run}
    (h : j.Puts (r.text j.len j.width a.literal) a.unit r₁)
    (hflush : ∀ name content closeTag, a.unit = .rawText name content closeTag → a.literal = []) :
    j.WritesAll ⟨r, []⟩ a.parts ⟨r₁, []⟩ := by
  obtain ⟨literal, unit⟩ := a
  dsimp only at h hflush
  refine (j.writesAll_chars r literal).append (.cons ?_ (.nil _))
  rw [← j.release_reverse] at h
  cases h with
  | code hcode => exact .code hcode
  | comment text => exact .comment _ text
  | close text hclosed => exact .close text hclosed
  | opening text hopen => exact .opening text hopen
  | @rawText name content closeTag hclose =>
    obtain rfl := hflush name content closeTag rfl
    rw [j.release_reverse, j.rawText_text r name content hclose]
    exact .rawText r name content closeTag

/-- A run over parts is one over their strides. -/
theorem exists_runs (hchar : ∀ a ∈ as, ∀ c, a.unit ≠ .char c)
    (hclose : ∀ a ∈ as, ∀ name content, a.unit ≠ .rawText name content [])
    (h : j.WritesAll ⟨r, []⟩ (as.flatMap Stride.parts) p) :
    ∃ q, p = ⟨q, []⟩ ∧ j.Runs r as q ∧
      ∀ a ∈ as, ∀ name content closeTag, a.unit = .rawText name content closeTag →
        a.literal = [] := by
  induction as generalizing r with
  | nil =>
    cases h
    exact ⟨r, rfl, .nil r, by simp⟩
  | cons a as ih =>
    obtain ⟨ha, has⟩ := List.forall_mem_cons.1 hchar
    obtain ⟨ha', has'⟩ := List.forall_mem_cons.1 hclose
    obtain ⟨p₁, hfirst, hrest⟩ := h.split
    obtain ⟨r₁, rfl, hput, hflush⟩ := exists_puts ha ha' hfirst
    obtain ⟨q, rfl, hruns, hall⟩ := ih has has' hrest
    exact ⟨q, rfl, .cons hput hruns, List.forall_mem_cons.2 ⟨hflush, hall⟩⟩

theorem writesAll_of_runs {q : Run} (h : j.Runs r as q)
    (hflush : ∀ a ∈ as, ∀ name content closeTag, a.unit = .rawText name content closeTag →
      a.literal = []) :
    j.WritesAll ⟨r, []⟩ (as.flatMap Stride.parts) ⟨q, []⟩ := by
  induction h with
  | nil r => exact .nil _
  | @cons r r₁ q a as hput _ ih =>
    obtain ⟨ha, has⟩ := List.forall_mem_cons.1 hflush
    exact (writesAll_of_puts hput ha).append (ih has)

end Runs

section Kin

/-! What a run over units needs of another run over them is only what is open. -/

variable {j j' : Job} {r r' r₁ q : Run} {x : Part (List Char)} {as bs : List Stride}

theorem kin_afterCode (j j' : Job) {tag : Erb.Tag} (kind : Ruby.Kind) (code : List Char)
    (h : List.Forall₂ Frame.Kin r.nesting r'.nesting) :
    List.Forall₂ Frame.Kin (j.afterCode r tag kind code).nesting
      (j'.afterCode r' tag kind code).nesting := by
  unfold Job.afterCode
  cases kind with
  | close | standalone => simpa using h
  | elseLike | blockOpen => simpa using ⟨.block code code, h⟩

theorem Job.Puts.of_kin (hstyle : j'.style = j.style)
    (hp : j.style.reformatter = Ruby.passThrough)
    (h : List.Forall₂ Frame.Kin r.nesting r'.nesting) (hr : j.Puts r x r₁) :
    ∃ r₁', j'.Puts r' x r₁' ∧ List.Forall₂ Frame.Kin r₁.nesting r₁'.nesting := by
  cases hr with
  | @code text _ hr =>
    obtain ⟨tag, r₀, code, ht, -, rfl, hcases⟩ := Job.codeTag_cases (hr 0)
    rcases hcases with ⟨hk, hb, hn, rfl⟩ | ⟨hk, hn, result, hresult, rfl⟩
    · obtain ⟨r₀', he', hn', -⟩ := j'.codeTag_close 0 ht (by rw [hstyle]; exact hk)
        (topIsBlock_of_kin h hb)
      rw [hstyle] at he'
      refine ⟨_, .code (Job.codeTag_offset he'), kin_afterCode j j' _ _ ?_⟩
      rw [hn, hn']
      exact tail_of_kin h
    · rw [hp] at hresult
      obtain rfl : Job.codeGiven j.style.checker tag.code = result := Except.ok.inj hresult
      have hgiven : (j'.style.reformatter (Job.codeGiven j'.style.checker tag.code)
          (j'.codeWidth r')).result = .ok (Job.codeGiven j.style.checker tag.code) := by
        rw [hstyle, hp]
        rfl
      obtain ⟨r₀', he', hn', -⟩ := j'.codeTag_open 0 ht (by rw [hstyle]; exact hk) hgiven
      rw [hstyle] at he'
      refine ⟨_, .code (Job.codeTag_offset he'), kin_afterCode j j' _ _ ?_⟩
      rw [hn, hn']
      exact h
  | comment text =>
    refine ⟨_, .comment text, ?_⟩
    unfold Job.comment
    simpa using h
  | @close name _ text hr =>
    cases hn : r.nesting.topIsElement name with
    | false =>
      have hok := hr 0
      rw [j.closeTag_unmatched hn] at hok
      simp at hok
    | true =>
      have hok := hr 0
      rw [j.closeTag_open hn] at hok
      obtain rfl := Except.ok.inj hok
      refine ⟨_, .close text fun o => j'.closeTag_open (topIsElement_of_kin h hn), ?_⟩
      rw [Job.nesting_afterClose, Job.nesting_afterClose]
      exact tail_of_kin h
  | @opening name attrs closing _ text hr =>
    cases hv : Element.isValidName name with
    | false =>
      have hok := hr 0
      rw [j.openTag_invalid hv] at hok
      simp at hok
    | true =>
      have hok := hr 0
      rw [j.openTag_valid hv] at hok
      obtain rfl := Except.ok.inj hok
      refine ⟨_, .opening text fun o => j'.openTag_valid hv, ?_⟩
      rw [Job.nesting_afterOpen, Job.nesting_afterOpen]
      split
      · exact h
      · exact .cons (.element _ _ _) h
  | @rawText name content closeTag hclose =>
    refine ⟨_, .rawText name content hclose, ?_⟩
    rw [Job.nesting_rawText, Job.nesting_rawText]
    split
    · exact h
    · exact tail_of_kin h

theorem Job.Runs.of_kin (hstyle : j'.style = j.style) (hp : j.style.reformatter = Ruby.passThrough)
    (h : List.Forall₂ Frame.Kin r.nesting r'.nesting) (hr : j.Runs r as q)
    (hunits : bs.map Stride.unit = as.map Stride.unit) :
    ∃ q', j'.Runs r' bs q' ∧ List.Forall₂ Frame.Kin q.nesting q'.nesting := by
  induction hr generalizing r' bs with
  | nil r =>
    obtain rfl := List.map_eq_nil_iff.1 hunits
    exact ⟨r', .nil r', h⟩
  | @cons r r₁ q a as hput _ ih =>
    obtain ⟨b, bs, rfl, hb, hbs⟩ := List.map_eq_cons_iff.1 hunits
    have hkin : List.Forall₂ Frame.Kin (r.text j.len j.width a.literal).nesting
        (r'.text j'.len j'.width b.literal).nesting := by simpa using h
    obtain ⟨r₁', hput', hkin⟩ := hput.of_kin hstyle hp hkin
    obtain ⟨q', hq', hend⟩ := ih hkin hbs
    exact ⟨q', .cons (by rwa [hb]) hq', hend⟩

end Kin

/-- A part is written in one way only. -/
theorem Job.Writes.unique {j : Job} {p q q' : Pen} {x : Part (List Char)} (h : j.Writes p x q)
    (h' : j.Writes p x q') : q = q' := by
  cases h with
  | char r cur c =>
    cases h'
    rfl
  | code hr =>
    cases h' with
    | code hr' => rw [Except.ok.inj ((hr 0).symm.trans (hr' 0))]
  | comment p text =>
    cases h'
    rfl
  | close text hr =>
    cases h' with
    | close _ hr' => rw [Except.ok.inj ((hr 0).symm.trans (hr' 0))]
  | opening text hr =>
    cases h' with
    | opening _ hr' => rw [Except.ok.inj ((hr 0).symm.trans (hr' 0))]
  | rawText r name content closeTag =>
    cases h'
    rfl

theorem Job.WritesAll.unique {j : Job} {p q q' : Pen} {xs : List (Part (List Char))}
    (h : j.WritesAll p xs q) (h' : j.WritesAll p xs q') : q = q' := by
  induction h with
  | nil p =>
    cases h'
    rfl
  | cons hx _ ih =>
    cases h' with
    | cons hx' hxs' =>
      obtain rfl := hx.unique hx'
      exact ih hxs'

section Source

/-- A unit that was read in a text. -/
def Part.WasRead : Part (List Char) → Prop
  | .char _ => True
  | .code text => ∃ s tag n, Erb.Tag.read s = some ((tag, text), n)
  | .comment text => ∃ s, Token.readAny s = some (.comment text)
  | .close text name => ∃ s, Token.readAny s = some (.close text name)
  | .opening text name attrs closing =>
    ∃ s, Token.readAny s = some (.opening text name attrs closing)
  | .rawText name content closeTag => Element.isRawText name = true ∧
    (closeTag ≠ [] → ∃ rest, Text.find? (Piece.readCloseOf name) 0
      (content ++ (closeTag ++ rest)) = some (content.length, closeTag, closeTag.length))

open Text (PlainLines)

theorem solid_of_plainLines {s text name attrs : List Char} {closing : Closing}
    (hread : Token.readAny s = some (.opening text name attrs closing)) (h : PlainLines text) :
    ∀ a ∈ Attribute.all attrs, a.Solid := by
  obtain ⟨name', as, gap, closing', he, -, -, has, -⟩ :=
    Token.readOpening_eq_some (Token.readAny_opening hread)
  simp only [Token.opening.injEq] at he
  obtain ⟨rfl, rfl, rfl, rfl⟩ := he
  have hplain : PlainBlanks (Token.spacedText as) := by
    intro c hc hb
    have hmem : c ∈ '<' :: name ++ Token.spacedText as ++ gap ++ closing.text := by simp [hc]
    rcases h c hmem hb with rfl | rfl | rfl <;> decide
  have hclear : Token.Clear as := by
    intro p hp
    obtain ⟨hne, hblank, hwell⟩ := has p hp
    have hsub : p.1 ++ p.2.text ⊆ Token.spacedText as := fun c hc =>
      List.mem_flatMap.2 ⟨p, hp, hc⟩
    refine ⟨hne, fun c hc => ?_, hwell,
      hwell.solid (hplain.of_subset fun c hc => hsub (by simp [hc]))⟩
    exact hplain c (hsub (by simp [hc])) (List.all_eq_true.1 hblank c hc)
  rw [Token.all_spacedText hclear]
  intro a ha
  obtain ⟨p, hp, rfl⟩ := List.mem_map.1 ha
  exact (hclear p hp).2.2.2

theorem fair_of_wasRead {x : Part (List Char)} (h : x.WasRead) (hplain : PlainLines x.shown) :
    x.Fair := by
  cases x with
  | char c => trivial
  | code text =>
    obtain ⟨s, tag, n, hread⟩ := h
    intro tag' htag
    obtain rfl := Option.some.inj ((Erb.Tag.split?_of_read hread).symm.trans htag)
    obtain ⟨inside, rfl, -, hof, -⟩ := Erb.Tag.read_eq_some hread
    have hwithin := Erb.Tag.code_ofInside_within tag.opener inside
    rw [← hof] at hwithin
    exact hplain.mono fun c hc => by
      have hmem := hwithin.subset hc
      simp [Part.shown, hmem]
  | comment text =>
    obtain ⟨s, hread⟩ := h
    exact Token.readAny_framed hread
  | close text name => trivial
  | opening text name attrs closing =>
    obtain ⟨s, hread⟩ := h
    exact ⟨⟨s, hread⟩, solid_of_plainLines hread hplain⟩
  | rawText name content closeTag => trivial

variable {names : Names} {source : List Char} {ws ts : Marked}

/-- The units of a protected template were read in it, and their white space is that of the
template. -/
theorem wasRead_of_mem (hm : Marking names source ws ts) (hplain : PlainLines source)
    {x : Part (List Char)} (hx : x ∈ Part.ofProtected (protect names source)) :
    x.WasRead ∧ PlainLines x.shown := by
  have hshielded : PlainLines ts.meant := by
    rw [hm.shielded]
    exact Marked.plainLines_written (by rwa [hm.plain])
  have hworking : PlainLines (protect names source).working := by
    rw [hm.working]
    exact Marked.plainLines_written hshielded
  obtain ⟨p, hp, hx⟩ := List.mem_flatMap.1 hx
  have hpiece : PlainLines p.text := by
    refine hworking.mono fun c hc => ?_
    rw [← Piece.cut_text (protect names source).working]
    exact List.mem_flatMap.2 ⟨p, hp, hc⟩
  cases p with
  | gap text =>
    obtain ⟨f, hf, rfl⟩ := List.mem_map.1 hx
    cases f with
    | char c =>
      refine ⟨trivial, hpiece.mono ?_⟩
      rintro _ hd
      obtain rfl := List.mem_singleton.1 hd
      exact Text.char_of_mem_scan hf
    | value e =>
      have he := mem_of_mem_scan hf
      obtain ⟨tag, s, n, hread⟩ := coded_codeTags names source e he
      refine ⟨⟨s, tag, n, hread⟩, hshielded.mono ?_⟩
      rw [hm.codeTags] at he
      exact (Marked.infix_of_mem he).2.subset
  | token tok =>
    obtain rfl := List.mem_singleton.1 hx
    obtain ⟨s, hread⟩ := Piece.mem_cut_token hp
    cases tok <;> exact ⟨⟨s, hread⟩, hpiece⟩
  | rawText name content closeTag =>
    obtain rfl := List.mem_singleton.1 hx
    obtain ⟨before, after, hcut⟩ := List.append_of_mem hp
    exact ⟨⟨(Piece.mem_cut_rawText hp).1, fun hne => ⟨_, (Piece.cut_rawText hcut).first hne⟩⟩,
      hpiece⟩

/-- A protected template in strides. -/
structure Trail.Covers (tr : Trail) (p : Protected) : Prop where
  parts : tr.parts = Part.ofProtected p
  marks : tr.marks p.table.codeTags = Text.scan p.table.codeTags.read p.working
  units : ∀ s ∈ tr.strides, ∀ c, s.1.unit ≠ .char c

theorem exists_trail (p : Protected) : ∃ tr : Trail, tr.Covers p := by
  have htok (tok : Token) (h : .token tok ∈ Piece.cut p.working) : Framed tok.text := by
    obtain ⟨s, hread⟩ := Piece.mem_cut_token h
    exact Token.readAny_framed hread
  have hraw (name content closeTag : List Char)
      (h : .rawText name content closeTag ∈ Piece.cut p.working) (hne : closeTag ≠ []) :
      Framed closeTag := by
    obtain ⟨s, n, hread⟩ := (Piece.mem_cut_rawText h).2 hne
    exact Piece.framed_closeTag hread
  obtain ⟨zs, hzs, hscan⟩ := exists_marked (t := p.table) (Piece.cut_ordered p.working) htok hraw
  obtain ⟨tr, hparts, hmarks, hunits⟩ := Trail.exists_of_parts zs
  rw [Piece.cut_text] at hscan
  exact ⟨tr, hparts.trans hzs, (hmarks _).trans hscan, hunits⟩

end Source

end ErbLayout.Template
