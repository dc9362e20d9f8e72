import ErbLayout.Proofs.Template.Content
import ErbLayout.Proofs.Template.Printing
/-!
Where the fault of a template stands, and how far the layout has got by then.
-/

namespace ErbLayout.Template

open Layout Markup Placeholder
open Text (Found Framed spread allBlank endsBlank solid)

/-- A place in a template: the pieces before it, the text between these and the token that begins
there, the token, and the text behind it. -/
structure Place where
  done : List Piece
  gap : List Char
  token : List Char
  rest : List Char

namespace Place

def before (p : Place) : List Char := p.done.flatMap Piece.text ++ p.gap

def behind (qs : List Piece) (p : Place) : Place := { p with done := qs ++ p.done }

theorem before_behind (qs : List Piece) (p : Place) :
    (p.behind qs).before = qs.flatMap Piece.text ++ p.before := by
  rw [before, before, behind, List.flatMap_append, List.append_assoc]

end Place

/-- Where pieces are at fault. A fault of a gap is found before any of the gap is read; a code tag is
at fault when the text before it has been read. -/
inductive Faulty (t : Table) : List Piece → Cause → Place → Prop
  | spacedAttribute {gap s : List Char} {n : Nat} (ps : List Piece) :
    Text.find? readSpacedAttribute 0 (gap ++ '<' :: s) = some (gap.length, (), n) →
    Faulty t (.gap (gap ++ '<' :: s) :: ps) .spacedAttribute
      ⟨[], gap, ['<'], s ++ ps.flatMap Piece.text⟩
  | stray {gap s : List Char} {n : Nat} (ps : List Piece) :
    Text.find? readSpacedAttribute 0 (gap ++ '<' :: s) = none →
    Text.find? readTagStart 0 (gap ++ '<' :: s) = some (gap.length, (), n) →
    Faulty t (.gap (gap ++ '<' :: s) :: ps) (.stray (Text.firstLine (t.restore ('<' :: s))))
      ⟨[], gap, ['<'], s ++ ps.flatMap Piece.text⟩
  | unknownTag (text : List Char) {name : List Char} (attrs : List Char) (closing : Closing)
    (ps : List Piece) : Element.isValidName name = false →
    Faulty t (.token (.opening text name attrs closing) :: ps) (.unknownTag name)
      ⟨[], [], text, ps.flatMap Piece.text⟩
  | close (text name : List Char) (top : Option (List Char)) (ps : List Piece) :
    Faulty t (.token (.close text name) :: ps) (.unmatched (Demand.closeText name) top)
      ⟨[], [], text, ps.flatMap Piece.text⟩
  | code (a : List Char) {n : Name} {text : List Char} {tag : Erb.Tag} (s : List Char)
    (top : Option (List Char)) (ps : List Piece) :
    (n, text) ∈ t.codeTags → Erb.Tag.split? text = some tag →
    Faulty t (.gap (a ++ (n.text ++ s)) :: ps) (.unmatched (Demand.codeText tag) top)
      ⟨[.gap a], [], n.text, s ++ ps.flatMap Piece.text⟩
  | unclosed (label : List Char) : Faulty t [] (.unclosed label) ⟨[], [], [], []⟩
  | behind (qs : List Piece) {ps : List Piece} {cause : Cause} {place : Place} :
    Faulty t ps cause place → Faulty t (qs ++ ps) cause (place.behind qs)

namespace Faulty

variable {t : Table} {ps : List Piece} {cause : Cause} {place : Place}

theorem text_eq (h : Faulty t ps cause place) :
    ps.flatMap Piece.text = place.before ++ (place.token ++ place.rest) := by
  induction h with
  | spacedAttribute ps hfind => simp [Place.before, Piece.text]
  | stray ps hnone hfind => simp [Place.before, Piece.text]
  | unknownTag text attrs closing ps hv => simp [Place.before, Piece.text, Token.text]
  | close text name top ps => simp [Place.before, Piece.text, Token.text]
  | code a s top ps hmem ht => simp [Place.before, Piece.text]
  | unclosed label => rfl
  | behind qs _ ih => rw [List.flatMap_append, ih, Place.before_behind, List.append_assoc]; rfl

theorem mem_done (h : Faulty t ps cause place) {p : Piece} (hp : p ∈ place.done) :
    p ∈ ps ∨ ∃ a, p = .gap a := by
  induction h with
  | code a s top ps hmem ht => exact .inr ⟨a, List.mem_singleton.1 hp⟩
  | behind qs _ ih =>
    rcases List.mem_append.1 hp with hp | hp
    · exact .inl (List.mem_append_left _ hp)
    · rcases ih hp with hp | hp
      · exact .inl (List.mem_append_right qs hp)
      · exact .inr hp
  | spacedAttribute ps hfind => simp at hp
  | stray ps hnone hfind => simp at hp
  | unknownTag text attrs closing ps hv => simp at hp
  | close text name top ps => simp at hp
  | unclosed label => simp at hp

/-- A name or a markup token is at the place, or the end of the template. -/
theorem token_seams (h : Faulty t ps cause place)
    (hframed : ∀ tok, .token tok ∈ ps → Framed tok.text) :
    (place.token = [] ∧ place.rest = []) ∨ (t.Begins place.token ∧ t.Ends place.token) := by
  have hangle : t.Begins ['<'] ∧ t.Ends ['<'] :=
    ⟨.inl ⟨'<', [], rfl, by decide⟩, .inl ⟨[], '<', rfl, by decide⟩⟩
  induction h with
  | spacedAttribute ps hfind => exact .inr hangle
  | stray ps hnone hfind => exact .inr hangle
  | unknownTag text attrs closing ps hv =>
    have hf : Framed text := hframed _ List.mem_cons_self
    exact .inr ⟨begins_of_framed hf, ends_of_framed hf⟩
  | close text name top ps =>
    have hf : Framed text := hframed _ List.mem_cons_self
    exact .inr ⟨begins_of_framed hf, ends_of_framed hf⟩
  | code a s top ps hmem ht =>
    exact .inr ⟨.inr ⟨_, hmem, List.prefix_rfl⟩, .inr ⟨_, hmem, List.suffix_rfl⟩⟩
  | unclosed label => exact .inl ⟨rfl, rfl⟩
  | behind qs _ ih => exact ih fun tok htok => hframed tok (List.mem_append_right qs htok)

end Faulty

variable {j : Job}

/-- What was printed of a template up to a place, but for white space. -/
theorem Print.solid {b : Buffer} {cells : List Cell} {out : List (List Char × List Char)}
    {tail : List Char} (h : Print j b cells out tail) (hp : j.style.reformatter = Ruby.passThrough)
    (ht : j.table.Proper) (hs : ∀ c ∈ cells, c.item.Sound j.table)
    (hjoins : cells.IsChain Cell.Joins) (hplain : ∀ c ∈ cells, c.item.PlainBlanks) :
    Text.solid (j.table.restore b.text) =
      cells.flatMap fun c => j.table.solidRestored (c.item.textBy asOpened) := by
  rw [h.holds.text, restore_spread ht (blank_of_lies h.lies) h.blank
    (seams_of_lies hs hjoins h.lies), solid_spread (blank_of_lies h.lies) h.blank]
  conv_rhs => rw [← surround_snd j.style.checker [] cells, List.flatMap_map]
  refine (flatMap_of_forall₂ h.lies fun sc hsc p hlies => ?_).symm
  have hc : sc.2 ∈ cells := by
    rw [← surround_snd j.style.checker [] cells]
    exact List.mem_map_of_mem hsc
  exact ((hlies.typeset.written hp).solidRestored ht (hs _ hc) (hplain _ hc)).symm

/-- A run that stopped at a place: the cells of the pieces before it are printed. -/
structure Stopped (j : Job) (cells : List Cell) (offset : Nat) (raw : Option (List Char))
    (ps : List Piece) (halt : Halt) (cause : Cause) (place : Place) : Prop where
  faulty : Faulty j.table ps cause place
  problem : halt.problem = .structural cause (offset + place.before.length)
  print : ∃ out tail,
    Print j halt.run.buffer (cells ++ Cell.ofPieces j.table false place.done) out tail
  ordered : Piece.Ordered raw place.done
  clear : place.gap = [] ∨ place.done = [] ∨ j.table.Ends (place.done.flatMap Piece.text)

theorem Stopped.behind {cells cs : List Cell} {offset : Nat} {raw raw' : Option (List Char)}
    {ps : List Piece} {halt : Halt} {cause : Cause} {place : Place} {qs : List Piece}
    (h : Stopped j (cells ++ cs) (offset + (qs.flatMap Piece.text).length) raw' ps halt cause
      place)
    (hcells : Cell.ofPieces j.table false (qs ++ place.done) =
      cs ++ Cell.ofPieces j.table false place.done)
    (hordered : Piece.Ordered raw (qs ++ place.done))
    (hends : j.table.Ends (qs.flatMap Piece.text)) :
    Stopped j cells offset raw (qs ++ ps) halt cause (place.behind qs) := by
  refine ⟨h.faulty.behind qs, ?_, ?_, hordered, ?_⟩
  · rw [h.problem, Place.before_behind, List.length_append, Nat.add_assoc]
  · obtain ⟨out, tail, hprint⟩ := h.print
    rw [List.append_assoc, ← hcells] at hprint
    exact ⟨out, tail, hprint⟩
  · rcases h.clear with hgap | hdone | hclear
    · exact .inl hgap
    · right
      right
      change j.table.Ends ((qs ++ place.done).flatMap Piece.text)
      rwa [hdone, List.append_nil]
    · right
      right
      change j.table.Ends ((qs ++ place.done).flatMap Piece.text)
      rw [List.flatMap_append]
      exact ends_append hclear _

/-- What a scan for names finds before a name is what it finds in the text before that name. -/
theorem scan_before_name {es : Entries} {s : List Char} {fs gs : List (Found (Name × List Char))}
    {e : Name × List Char} (h : Text.scan es.read s = fs ++ .value e :: gs) :
    s = Found.fill (fun e => e.1.text) fs ++
        (e.1.text ++ Found.fill (fun e => e.1.text) gs) ∧
      Text.scan es.read (Found.fill (fun e => e.1.text) fs) = fs := by
  have hs := fill_scan_entries es s
  rw [h, Found.fill_append, Found.fill_value] at hs
  obtain ⟨t, -, ht⟩ := Text.exists_of_suffix_scan (show .value e :: gs <:+ Text.scan es.read s from
    ⟨fs, h.symm⟩)
  have hfill := fill_scan_entries es t
  rw [ht, Found.fill_value] at hfill
  have hscan : Text.scan es.read _ = _ ++ _ := Entries.scan_append
    (seam_of_name_right (Found.fill (fun e => e.1.text) fs) e.1
      (Found.fill (fun e => e.1.text) gs))
  rw [hs, hfill, h, ht] at hscan
  exact ⟨hs.symm, (List.append_cancel_right hscan).symm⟩

theorem Job.codeTag_halts (h : Total j.style.reformatter) {r : Run} {text : List Char}
    {tag : Erb.Tag} {offset : Nat} {halt : Halt} (ht : Erb.Tag.split? text = some tag)
    (hr : j.codeTag r text offset = .error halt) :
    halt.run.buffer = r.buffer ∧
      ∃ top, halt.problem = .structural (.unmatched (Demand.codeText tag) top) offset := by
  cases hk : closes (Ruby.classify j.style.checker tag.code) with
  | false =>
    obtain ⟨result, hresult⟩ := h (codeGiven j.style.checker tag.code) (j.codeWidth r)
    obtain ⟨r', he, -⟩ := j.codeTag_open offset ht hk hresult
    rw [he] at hr
    simp at hr
  | true =>
    cases hb : r.nesting.topIsBlock with
    | true =>
      obtain ⟨r', he, -⟩ := j.codeTag_close offset ht hk hb
      rw [he] at hr
      simp at hr
    | false =>
      obtain ⟨r', he, -, hplace⟩ := j.codeTag_unmatched offset ht hk hb
      rw [he] at hr
      obtain rfl := Except.error.inj hr
      exact ⟨hplace.buffer, _, rfl⟩

theorem Past.gapFrom_halts (htotal : Total j.style.reformatter)
    {fs : List (Found (Name × List Char))}
    (htags : ∀ e, Found.value e ∈ fs → ∃ tag, Erb.Tag.split? e.2 = some tag) {cur : List Char}
    {offset : Nat} {r : Run} {halt : Halt} {cells : List Cell} (h : Past j r cells)
    (hr : j.gapFrom cur offset fs r = .error halt) :
    ∃ gs e gs' tag top, fs = gs ++ .value e :: gs' ∧ Erb.Tag.split? e.2 = some tag ∧
      halt.problem = .structural (.unmatched (Demand.codeText tag) top)
        (offset + (Found.fill (fun e => e.1.text) gs).length) ∧
      ∃ out tail, Print j halt.run.buffer (cells ++ Cell.ofFound cur gs) out tail := by
  induction fs generalizing cur offset r cells with
  | nil => simp [Job.gapFrom] at hr
  | cons f fs ih =>
    have hrest : ∀ e, Found.value e ∈ fs → ∃ tag, Erb.Tag.split? e.2 = some tag :=
      fun e he => htags e (List.mem_cons_of_mem f he)
    cases f with
    | char c =>
      obtain ⟨gs, e, gs', tag, top, rfl, ht, hproblem, out, tail, hprint⟩ := ih hrest h hr
      refine ⟨.char c :: gs, e, gs', tag, top, rfl, ht, ?_, out, tail, hprint⟩
      rw [hproblem, Found.fill_char, List.length_cons]
      congr 1
      omega
    | value e =>
      obtain ⟨tag, ht⟩ := htags e List.mem_cons_self
      have hbefore := h.text cur.reverse
      cases hc : j.codeTag (r.text j.len j.width cur.reverse) e.2 offset with
      | error halt' =>
        have hhalt : j.gapFrom cur offset (.value e :: fs) r = .error halt' := by
          rw [Job.gapFrom, hc]
          rfl
        obtain rfl := Except.error.inj (hhalt.symm.trans hr)
        obtain ⟨hbuffer, top, hproblem⟩ := Job.codeTag_halts htotal ht hc
        obtain ⟨out, tail, hprint, -⟩ := hbefore.print
        refine ⟨[], e, fs, tag, top, rfl, ht, hproblem, out, tail, ?_⟩
        rw [hbuffer]
        exact hprint
      | ok r₁ =>
        have hnext : j.gapFrom [] (offset + Name.size) fs r₁ = .error halt := by
          rw [Job.gapFrom, hc] at hr
          exact hr
        obtain ⟨gs, e', gs', tag', top, rfl, ht', hproblem, out, tail, hprint⟩ :=
          ih hrest (hbefore.codeTag (n := e.1) hc) hnext
        refine ⟨.value e :: gs, e', gs', tag', top, rfl, ht', ?_, out, tail, ?_⟩
        · rw [hproblem, Found.fill_value, List.length_append, Name.length_text, Nat.add_assoc]
        · rw [List.append_assoc, List.append_assoc] at hprint
          exact hprint

theorem exists_of_readSpacedAttribute {s : List Char} {x : Unit × Nat}
    (h : readSpacedAttribute s = some x) : ∃ r, s = '<' :: r := by
  unfold readSpacedAttribute at h
  split at h
  · exact ⟨_, rfl⟩
  · simp at h

theorem exists_of_readTagStart {s : List Char} {x : Unit × Nat} (h : readTagStart s = some x) :
    ∃ r, s = '<' :: r := by
  unfold readTagStart at h
  split at h
  · exact ⟨_, rfl⟩
  · exact ⟨_, rfl⟩
  · simp at h

theorem exists_of_find? {read : Text.Reader Unit} {s : List Char} {n k : Nat} {u : Unit}
    (hread : ∀ s x, read s = some x → ∃ r, s = '<' :: r)
    (h : Text.find? read 0 s = some (n, u, k)) : ∃ a r, s = a ++ '<' :: r ∧ n = a.length := by
  obtain ⟨r, hr⟩ := hread _ _ (Text.find?_eq_some h).2
  rw [Nat.sub_zero] at hr
  refine ⟨s.take n, r, ?_, ?_⟩
  · rw [← hr, List.take_append_drop]
  · have hlong : n < s.length := by
      by_contra hshort
      rw [List.drop_eq_nil_of_le (by omega)] at hr
      simp at hr
    rw [List.length_take]
    omega

theorem Past.gap_halts (htotal : Total j.style.reformatter)
    (htags : ∀ e ∈ j.table.codeTags, ∃ tag, Erb.Tag.split? e.2 = some tag) {r : Run} {halt : Halt}
    {cells : List Cell} (h : Past j r cells) {text : List Char} {offset : Nat}
    (hr : j.gap r text offset = .error halt) (ps : List Piece) :
    ∃ cause place, Stopped j cells offset none (.gap text :: ps) halt cause place := by
  obtain ⟨out, hprint⟩ := h.print
  have hnone : ∃ out tail,
      Print j r.buffer (cells ++ Cell.ofPieces j.table false []) out tail := by
    rw [Cell.ofPieces, List.append_nil]
    exact ⟨out, [], hprint⟩
  rw [Job.gap] at hr
  cases hspaced : Text.find? readSpacedAttribute 0 text with
  | some found =>
    obtain ⟨n, u, k⟩ := found
    rw [hspaced] at hr
    obtain rfl := Except.error.inj hr
    obtain ⟨a, s, rfl, rfl⟩ := exists_of_find? (fun _ _ => exists_of_readSpacedAttribute) hspaced
    exact ⟨_, _, .spacedAttribute ps hspaced, rfl, hnone, .nil none, .inr (.inl rfl)⟩
  | none =>
    rw [hspaced] at hr
    cases hstart : Text.find? readTagStart 0 text with
    | some found =>
      obtain ⟨n, u, k⟩ := found
      rw [hstart] at hr
      obtain rfl := Except.error.inj hr
      obtain ⟨a, s, rfl, rfl⟩ := exists_of_find? (fun _ _ => exists_of_readTagStart) hstart
      refine ⟨_, _, .stray ps hspaced hstart, ?_, hnone, .nil none, .inr (.inl rfl)⟩
      rw [List.drop_left]
      rfl
    | none =>
      rw [hstart] at hr
      obtain ⟨gs, e, gs', tag, top, hscan, ht, hproblem, hprinted⟩ := h.gapFrom_halts htotal
        (fun e he => htags e (mem_of_mem_scan he)) hr
      have hmem : e ∈ j.table.codeTags := mem_of_mem_scan (s := text) (by rw [hscan]; simp)
      obtain ⟨rfl, hgs⟩ := scan_before_name hscan
      refine ⟨_, _, .code _ _ top ps hmem ht, ?_, ?_, .last _, .inl rfl⟩
      · rw [hproblem]
        simp [Place.before, Piece.text]
      · rw [Cell.ofPieces, Cell.ofPieces, List.append_nil, Cell.ofGap, hgs]
        exact hprinted

theorem Job.token_halts {r : Run} {halt : Halt} {t : Token} {offset : Nat}
    (hr : j.piece r offset (.token t) = .error halt) (ps : List Piece) :
    ∃ cause, halt = ⟨r, .structural cause offset⟩ ∧
      Faulty j.table (.token t :: ps) cause ⟨[], [], t.text, ps.flatMap Piece.text⟩ := by
  cases t with
  | comment text => simp [Job.piece] at hr
  | close text name =>
    change j.closeTag r name offset = .error halt at hr
    cases hv : r.nesting.topIsElement name with
    | true =>
      rw [j.closeTag_open hv] at hr
      simp at hr
    | false =>
      rw [j.closeTag_unmatched hv] at hr
      obtain rfl := Except.error.inj hr
      exact ⟨_, rfl, .close text name _ ps⟩
  | opening text name attrs closing =>
    change j.openTag r name attrs closing offset = .error halt at hr
    cases hv : Element.isValidName name with
    | true =>
      rw [j.openTag_valid hv] at hr
      simp at hr
    | false =>
      rw [j.openTag_invalid hv] at hr
      obtain rfl := Except.error.inj hr
      exact ⟨_, rfl, .unknownTag text attrs closing ps hv⟩

theorem Job.pieces_nil_eq_error {offset : Nat} {r : Run} {halt : Halt}
    (h : j.pieces offset [] r = .error halt) :
    ∃ label, halt = ⟨r, .structural (.unclosed label) offset⟩ := by
  rw [pieces] at h
  cases hn : r.nesting with
  | nil =>
    rw [hn] at h
    simp at h
  | cons f fs =>
    rw [hn] at h
    exact ⟨f.label, (Except.error.inj h).symm⟩

theorem Job.pieces_cons_eq_error {offset : Nat} {p : Piece} {ps : List Piece} {r : Run}
    {halt : Halt} (h : j.pieces offset (p :: ps) r = .error halt) :
    j.piece r offset p = .error halt ∨
      ∃ r₁, j.piece r offset p = .ok r₁ ∧
        j.pieces (offset + p.text.length) ps r₁ = .error halt := by
  rw [pieces] at h
  cases hp : j.piece r offset p with
  | error halt' =>
    rw [hp] at h
    exact .inl h
  | ok r₁ =>
    rw [hp] at h
    exact .inr ⟨r₁, rfl, h⟩

/-- At the end of the pieces all of them are printed. -/
theorem stopped_at_end {r : Run} {halt : Halt} {cells : List Cell} {offset : Nat}
    {raw : Option (List Char)} {ps : List Piece} (ho : Piece.Ordered raw ps)
    (hprint : ∃ out tail,
      Print j r.buffer (cells ++ Cell.ofPieces j.table false ps) out tail)
    (hr : j.pieces (offset + (ps.flatMap Piece.text).length) [] r = .error halt) :
    ∃ cause place, Stopped j cells offset raw ps halt cause place := by
  obtain ⟨label, rfl⟩ := Job.pieces_nil_eq_error hr
  have hfaulty := (Faulty.unclosed (t := j.table) label).behind ps
  rw [List.append_nil] at hfaulty
  refine ⟨_, _, hfaulty, ?_, ?_, ?_, .inl rfl⟩
  · rw [Place.before_behind]
    simp [Place.before]
  · simpa [Place.behind] using hprint
  · simpa [Place.behind] using ho

/-- A run that does not come to its end stops at a fault of a piece, or at the end of the template,
where it has printed the cells of the pieces before. -/
theorem Past.pieces_halts (htotal : Total j.style.reformatter)
    (htags : ∀ e ∈ j.table.codeTags, ∃ tag, Erb.Tag.split? e.2 = some tag)
    {raw : Option (List Char)} {ps : List Piece} (ho : Piece.Ordered raw ps)
    (hframed : ∀ t, .token t ∈ ps → Framed t.text)
    (hclose : ∀ name content closeTag, .rawText name content closeTag ∈ ps → closeTag ≠ [] →
      Framed closeTag) {r : Run} {halt : Halt} {cells : List Cell} {offset : Nat}
    (h : Past j r cells) (hraw : Holding j raw cells)
    (hr : j.pieces offset ps r = .error halt) :
    ∃ cause place, Stopped j cells offset raw ps halt cause place := by
  induction ho generalizing r cells offset with
  | nil raw =>
    obtain ⟨out, hprint⟩ := h.print
    refine stopped_at_end (.nil raw) ⟨out, [], ?_⟩ hr
    simpa [Cell.ofPieces] using hprint
  | unclosed name content =>
    rcases Job.pieces_cons_eq_error hr with hbody | ⟨r₁, hbody, hrest⟩
    · simp [Job.piece] at hbody
    · obtain rfl : j.rawText r name content [] = r₁ := by simpa [Job.piece] using hbody
      obtain ⟨out, hprint⟩ := (h.unclosed hraw content).1
      refine stopped_at_end (.unclosed name content) ⟨out, [], ?_⟩ (by simpa using hrest)
      simpa [Cell.ofPieces] using hprint
  | rawText hne hrest' ih =>
    rename_i name content closeTag ps
    rcases Job.pieces_cons_eq_error hr with hbody | ⟨r₁, hbody, hrest⟩
    · simp [Job.piece] at hbody
    · obtain rfl : j.rawText r name content closeTag = r₁ := by simpa [Job.piece] using hbody
      obtain ⟨cause, place, hstop⟩ := ih (fun t ht => hframed t (List.mem_cons_of_mem _ ht))
        (fun n c ct hm => hclose n c ct (List.mem_cons_of_mem _ hm))
        (h.rawText hraw hne) (holding_none _) hrest
      have hf : Framed closeTag := hclose name content closeTag List.mem_cons_self hne
      have hhere : Stopped j (cells ++ Cell.ofRawText name content closeTag)
          (offset + ([.rawText name content closeTag].flatMap Piece.text).length) none ps halt
          cause place := by
        simpa using hstop
      refine ⟨cause, _, hhere.behind ?_ (.rawText hne hstop.ordered) ?_⟩
      · rw [List.singleton_append, Cell.ofPieces]
      · simpa [Piece.text] using ends_append (ends_of_framed hf) content
  | last text =>
    rcases Job.pieces_cons_eq_error hr with hgap | ⟨r₁, hgap, hrest⟩
    · exact h.gap_halts htotal htags hgap []
    · obtain ⟨out, tail, hprint, -⟩ := (h.gap hgap).print
      refine stopped_at_end (.last text) ⟨out, tail, ?_⟩ (by simpa using hrest)
      simpa [Cell.ofPieces] using hprint
  | token hrest' ih =>
    rename_i text t ps
    rcases Job.pieces_cons_eq_error hr with hgap | ⟨r₁, hgap, hrest⟩
    · exact h.gap_halts htotal htags hgap _
    have hbefore := h.gap hgap
    rcases Job.pieces_cons_eq_error hrest with ht | ⟨r₂, ht, hrest⟩
    · obtain ⟨cause, rfl, hfaulty⟩ := Job.token_halts ht ps
      obtain ⟨out, tail, hprint, -⟩ := hbefore.print
      refine ⟨cause, _, hfaulty.behind [.gap text], ?_, ⟨out, tail, ?_⟩, .last text, .inl rfl⟩
      · rw [Place.before_behind]
        simp [Place.before, Piece.text]
      · simpa [Place.behind, Cell.ofPieces] using hprint
    · have hf : Framed t.text := hframed t (by simp)
      obtain ⟨cause, place, hstop⟩ := ih (fun t ht => hframed t (by simp [ht]))
        (fun n c ct hm => hclose n c ct (by simp [hm])) (hbefore.token hf ht) (holding_after t)
        hrest
      have hhere : Stopped j
          (cells ++ (Cell.ofGap j.table text ++ [⟨endsBlank text, .token t⟩]))
          (offset + ([.gap text, .token t].flatMap Piece.text).length)
          (Piece.rawTextAfter t) ps halt cause place := by
        simpa [Nat.add_assoc] using hstop
      refine ⟨cause, _, hhere.behind ?_ (.token hstop.ordered) ?_⟩
      · simp [Cell.ofPieces]
      · simpa [Piece.text] using ends_append (ends_of_framed hf) text

theorem Faulty.token_mem {t : Table} {ps : List Piece} {cause : Cause} {place : Place}
    (h : Faulty t ps cause place) {tok : Token} (hm : .token tok ∈ place.done) :
    .token tok ∈ ps := by
  rcases h.mem_done hm with hm | ⟨a, ha⟩
  · exact hm
  · simp at ha

theorem Faulty.rawText_mem {t : Table} {ps : List Piece} {cause : Cause} {place : Place}
    (h : Faulty t ps cause place) {name content closeTag : List Char}
    (hm : .rawText name content closeTag ∈ place.done) : .rawText name content closeTag ∈ ps := by
  rcases h.mem_done hm with hm | ⟨a, ha⟩
  · exact hm
  · simp at ha

theorem exists_stopped {style : Style} {names : Names} {source : List Char} {e : Failure}
    (htotal : Total style.reformatter) (h : format style names source = .error e) :
    let j : Job := ⟨style, protect names source⟩
    ∃ halt cause place, Job.run j = .error halt ∧ e = j.failure halt ∧
      Stopped j [] 0 none (Piece.cut (protect names source).working) halt cause place := by
  intro j
  simp only [format, report] at h
  cases hrun : Job.run j with
  | ok r =>
    rw [hrun] at h
    simp at h
  | error halt =>
    rw [hrun] at h
    have hframed : ∀ t, .token t ∈ Piece.cut (protect names source).working → Framed t.text := by
      intro t ht
      obtain ⟨s, hr⟩ := Piece.mem_cut_token ht
      exact Token.readAny_framed hr
    have hclose : ∀ name content closeTag,
        .rawText name content closeTag ∈ Piece.cut (protect names source).working →
        closeTag ≠ [] → Framed closeTag := by
      intro name content closeTag hm hne
      obtain ⟨s, n, hr⟩ := (Piece.mem_cut_rawText hm).2 hne
      exact framed_readCloseOf hr
    have htags : ∀ e ∈ j.table.codeTags, ∃ tag, Erb.Tag.split? e.2 = some tag :=
      fun e he => split?_of_mem_codeTags he
    obtain ⟨cause, place, hstop⟩ := (past_start j).pieces_halts htotal htags
      (Piece.cut_ordered _) hframed hclose (holding_none _) hrun
    exact ⟨halt, cause, place, rfl, (Except.error.inj h).symm, hstop⟩

/-- A place cuts the template where no name of a tag is cut. -/
theorem Stopped.restore_parts {cells : List Cell} {raw : Option (List Char)} {ps : List Piece}
    {halt : Halt} {cause : Cause} {place : Place} (h : Stopped j cells 0 raw ps halt cause place)
    (ht : j.table.Proper) (hframed : ∀ tok, .token tok ∈ ps → Framed tok.text) :
    j.table.restore place.before =
        j.table.restore (place.done.flatMap Piece.text) ++ j.table.restore place.gap ∧
      j.table.restore (ps.flatMap Piece.text) = j.table.restore place.before ++
        (j.table.restore place.token ++ j.table.restore place.rest) := by
  constructor
  · rw [Place.before]
    rcases h.clear with hgap | hdone | hends
    · rw [hgap, List.append_nil, Table.restore_nil, List.append_nil]
    · rw [hdone]
      rfl
    · exact Table.restore_append_of_ends ht hends _
  · rw [h.faulty.text_eq]
    rcases h.faulty.token_seams hframed with ⟨htoken, hrest⟩ | ⟨hbegins, hends⟩
    · rw [htoken, hrest, Table.restore_nil, List.append_nil, List.append_nil, List.append_nil]
    · rw [Table.restore_append_of_begins ht _ (begins_append hbegins _),
        Table.restore_append_of_ends ht hends]

/-- A template that is not laid out is reported with its first fault: the line is that of the
offending token in the template, and the output is, but for white space and the spelling of raw text
close tags, the template before that token, or before the gap that holds it if the gap is at
fault. -/
theorem format_reports (style : Style) (names : Names) (source : List Char) (e : Failure)
    (hp : style.reformatter = Ruby.passThrough) (ha : names.Ample (3 * source.length))
    (hplain : PlainTags (protect names source)) (h : format style names source = .error e) :
    let p := protect names source
    ∃ f v place, e = .fault f ∧ verdict style.checker p = .error v ∧ Tells ⟨style, p⟩ v f ∧
      Faulty p.table (Piece.cut p.working) v.cause place ∧
      source = p.table.restore (place.done.flatMap Piece.text) ++ (p.table.restore place.gap ++
        (p.table.restore place.token ++ p.table.restore place.rest)) ∧
      f.line = 1 + (p.table.restore (place.done.flatMap Piece.text) ++
        p.table.restore place.gap).count '\n' ∧
      solid f.formatted = solid (p.table.restore (place.done.flatMap (pieceText asOpened))) := by
  intro p
  obtain ⟨ws, ts, hm⟩ := exists_marking ha
  have ht : p.table.Proper := hm.proper
  have htotal : Total style.reformatter := hp ▸ total_passThrough
  obtain ⟨halt, cause, place, hrun, rfl, hstop⟩ := exists_stopped htotal h
  -- The recogniser finds the same fault.
  have hagree := Job.run_agrees style names source htotal
  obtain ⟨v, hv, r, hhalt, hshows⟩ : ∃ v, verdict style.checker p = .error v ∧ ∃ r,
      halt = ⟨r, .structural v.cause v.offset⟩ ∧ Shows r.nesting v.stack := by
    cases hv : verdict style.checker p with
    | ok stack =>
      obtain ⟨r, hr, -⟩ : Agrees _ (.ok stack) := hv ▸ hagree
      rw [hrun] at hr
      simp at hr
    | error v =>
      obtain ⟨r, hr, hshows⟩ : Agrees _ (.error v) := hv ▸ hagree
      exact ⟨v, rfl, r, Except.error.inj (hrun.symm.trans hr), hshows⟩
  subst hhalt
  obtain ⟨hcause, hoffset⟩ := Problem.structural.inj hstop.problem
  subst hcause
  rw [Nat.zero_add] at hoffset
  have hframed : ∀ tok, .token tok ∈ Piece.cut p.working → Framed tok.text := by
    intro tok htok
    obtain ⟨s, hr⟩ := Piece.mem_cut_token htok
    exact Token.readAny_framed hr
  have hwork : p.working = place.before ++ (place.token ++ place.rest) :=
    (Piece.cut_text p.working).symm.trans hstop.faulty.text_eq
  obtain ⟨hbefore, hparts⟩ : p.table.restore place.before =
        p.table.restore (place.done.flatMap Piece.text) ++ p.table.restore place.gap ∧
      p.table.restore ((Piece.cut p.working).flatMap Piece.text) =
        p.table.restore place.before ++
          (p.table.restore place.token ++ p.table.restore place.rest) :=
    hstop.restore_parts ht hframed
  refine ⟨_, v, place, rfl, hv, ⟨rfl, rfl, rfl, rfl, hshows.top_label, hshows.length_dump⟩,
    hstop.faulty, ?_, ?_, ?_⟩
  · rw [← List.append_assoc, ← hbefore, ← hparts, Piece.cut_text]
    exact hm.restore_working.symm
  · have htake : p.working.take v.offset = place.before := by
      rw [hwork, hoffset, List.take_left]
    rw [← hbefore, ← htake, Int.add_comm]
    rfl
  · obtain ⟨out, tail, hprint⟩ := hstop.print
    have hsound : ∀ c ∈ Cell.ofPieces p.table false place.done, c.item.Sound p.table :=
      sound_ofPieces ht (fun tok hm => Piece.mem_cut_token (hstop.faulty.token_mem hm))
        (fun name content closeTag hm => Piece.mem_cut_rawText (hstop.faulty.rawText_mem hm))
    have hblanks : ∀ c ∈ Cell.ofPieces p.table false place.done, c.item.PlainBlanks :=
      plain_ofPieces fun text name attrs closing hm =>
        hplain text name attrs closing (hstop.faulty.token_mem hm)
    rw [solid_pieces ht framing_asOpened hstop.ordered hsound]
    exact hprint.solid hp ht hsound (joins_ofPieces hstop.ordered) hblanks

-- Both the line break inside the first tag and the one before it count.
theorem format_reports_end :
    let style : Style := { width := 20, checker := fun _ => true }
    let source := "<p>\n<%= a\n%> <script>b</SCRIPT ><% end %></p>".toList
    let p := protect (Names.counting 256) source
    let f : Fault :=
      { kind := .unmatchedClose,
        message := "Unmatched close tag, tried with <% end %>, but `p' was on the stack".toList,
        line := 3, frame := some "p".toList,
        formatted := "<p>\n  <%= a %>\n  <script>b</script>".toList, stack := ["p: <p>".toList] }
    format style (Names.counting 256) source = .error (.fault f) ∧ PlainTags p ∧
      ∃ v place, verdict style.checker p = .error v ∧
        Faulty p.table (Piece.cut p.working) v.cause place ∧
        source = p.table.restore (place.done.flatMap Piece.text) ++ (p.table.restore place.gap ++
          (p.table.restore place.token ++ p.table.restore place.rest)) ∧
        f.line = 1 + (p.table.restore (place.done.flatMap Piece.text) ++
          p.table.restore place.gap).count '\n' ∧
        solid f.formatted = solid (p.table.restore (place.done.flatMap (pieceText asOpened))) := by
  intro style source p f
  have hf : format style (Names.counting 256) source = .error (.fault f) := by decide +kernel
  have ha : (Names.counting 256).Ample (3 * source.length) :=
    Names.ample_counting (by decide) (by decide)
  have hplain : PlainTags p := plainTags_of_pieces (by decide +kernel)
  obtain ⟨g, v, place, hg, hv, -, hfaulty, hsource, hline, hsolid⟩ :=
    format_reports style (Names.counting 256) source (.fault f) rfl ha hplain hf
  obtain rfl : f = g := Failure.fault.inj hg
  exact ⟨hf, hplain, v, place, hv, hfaulty, hsource, hline, hsolid⟩

end ErbLayout.Template
