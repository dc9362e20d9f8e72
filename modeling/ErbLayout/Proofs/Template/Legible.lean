import ErbLayout.Proofs.Template.Recast
/-!
Trails that are cut as they were put together: in their literal text nothing begins, and each unit
is read from its own text, whatever follows it.
-/

namespace ErbLayout.Text

theorem getLast?_solid {s : List Char} (h : endsBlank s = false) :
    (solid s).getLast? = s.getLast? := by
  cases s using List.reverseRecOn with
  | nil => rfl
  | append_singleton s c =>
    rw [endsBlank_append (by simp)] at h
    have hc : solid [c] = [c] := by
      rw [solid, List.filter_cons_of_pos (by rw [show isBlank c = false from h]; rfl)]
      rfl
    rw [solid_append, hc, List.getLast?_concat, List.getLast?_concat]

end ErbLayout.Text

namespace ErbLayout.Template

open Layout Markup Placeholder
open Text (Found)

/-- The element whose raw text follows a unit. -/
def Part.raw : Part (List Char) → Option (List Char)
  | .opening text name attrs closing => Piece.rawTextAfter (.opening text name attrs closing)
  | _ => none

/-- The order of parts that are cut from a text: the bodies of raw text, and nothing else, stand
behind the open tags of raw text. -/
def Part.Ordered : Option (List Char) → List (Part (List Char)) → Prop
  | _, [] => True
  | none, x :: xs =>
    (∀ name content closeTag, x ≠ .rawText name content closeTag) ∧ Ordered x.raw xs
  | some name, x :: xs =>
    (∃ content closeTag, x = .rawText name content closeTag) ∧ Ordered none xs

/-- A unit that is read from its own text. -/
def Part.Legible : Part (List Char) → Prop
  | .char _ => False
  | .code _ => True
  | .rawText name content closeTag => Element.isRawText name = true ∧
    ∀ rest, Text.find? (Piece.readCloseOf name) 0 (content ++ (closeTag ++ rest)) =
      some (content.length, closeTag, closeTag.length)
  | x => ∃ tok, Part.ofToken tok = x ∧ ∀ rest, Token.readAny (tok.text ++ rest) = some tok

/-- A stride in which nothing begins before its unit, a `<` before code neither. -/
structure Stride.Quiet (a : Stride) : Prop where
  calm : Calm a.literal
  apart : ∀ text, a.unit = .code text → a.literal.getLast? ≠ some '<'

/-- A stride in which nothing begins before its unit, and the unit is read from its own text. -/
structure Stride.Legible (a : Stride) : Prop extends a.Quiet where
  unit : a.unit.Legible

/-- The same order among strides, of which the last leaves no raw text open. -/
def Strung : Option (List Char) → List Stride → Prop
  | raw, [] => raw = none
  | none, a :: as =>
    (∀ name content closeTag, a.unit ≠ .rawText name content closeTag) ∧ Strung a.unit.raw as
  | some name, a :: as =>
    a.literal = [] ∧ (∃ content closeTag, a.unit = .rawText name content closeTag) ∧ Strung none as

section Cut

variable {es : Entries} {t : Table} {ms : Marked} {ss : List (Stride × Name)} {last : List Char}

theorem written_append (ms ms' : Marked) :
    Marked.written (ms ++ ms') = ms.written ++ Marked.written ms' := Found.fill_append _ _ _

/-- What the gaps of a template restore to is read off the marks. -/
theorem ofText_written {cur : Marked} (hms : ms.Faithful) (ht : t.codeTags = Found.values ms)
    (h : cur <:+: ms) : Part.ofText t cur.written = cur.map Part.ofFound := by
  rw [Part.ofText, ht, hms.scan_part h]

theorem ofPieces_rawText {name content closeTag rest : List Char} {fuel : Nat}
    (hread : Text.find? (Piece.readCloseOf name) 0 (content ++ (closeTag ++ rest)) =
      some (content.length, closeTag, closeTag.length)) :
    Part.ofPieces t (Piece.cutFrom (fuel + 1) (some name) (content ++ (closeTag ++ rest))) =
      .rawText name content closeTag :: Part.ofPieces t (Piece.cutFrom fuel none rest) := by
  have hne : content ++ (closeTag ++ rest) ≠ [] := by
    intro hnil
    rw [hnil] at hread
    simp [Text.find?] at hread
  rw [Piece.cutFrom, hread]
  · simp [Part.ofPieces_cons, Part.ofPiece]
  · exact hne

theorem ofPieces_token {u rest : List Char} {tok : Token} {fuel : Nat} (hcalm : Calm u)
    (hread : Token.readAny (tok.text ++ rest) = some tok) :
    Part.ofPieces t (Piece.cutFrom (fuel + 1) none (u ++ (tok.text ++ rest))) =
      Part.ofText t u ++
        Part.ofToken tok :: Part.ofPieces t (Piece.cutFrom fuel (Piece.rawTextAfter tok) rest) := by
  obtain ⟨v, hv⟩ := Token.readAny_framed hread
  have hfind : Text.find? Token.read 0 (u ++ (tok.text ++ rest)) =
      some (0 + u.length, tok, tok.text.length) :=
    Text.find?_append (Token.read_calm hcalm (.inr (by rw [hv]; rfl))) (by rw [hv]; simp)
      (by rw [Token.read, hread]; rfl)
  rw [Piece.cutFrom, hfind]
  · simp [Part.ofPieces_cons, Part.ofPiece]
  · rw [hv]
    simp

theorem ofPieces_gap {u : List Char} {fuel : Nat} (hcalm : Calm u) :
    Part.ofPieces t (Piece.cutFrom (fuel + 1) none u) = Part.ofText t u := by
  by_cases hnil : u = []
  · rw [hnil]
    rfl
  · have hnone : Text.find? Token.read 0 u = none := by
      have hread := Token.read_calm hcalm (v := []) (.inl rfl)
      exact Text.find?_eq_none fun w hw hne => by simpa using hread w hw hne
    rw [Piece.cutFrom, hnone, Part.ofPieces_cons]
    · exact List.append_nil _
    · exact hnil

theorem getLast?_append_ne {u v : List Char} {c : Char} (hu : u.getLast? ≠ some c)
    (hv : v.getLast? ≠ some c) : (u ++ v).getLast? ≠ some c := by
  cases v using List.reverseRecOn with
  | nil => rwa [List.append_nil]
  | append_singleton v d => rwa [List.getLast?_append_of_ne_nil u (by simp)]

theorem getLast?_name_ne (n : Name) : n.text.getLast? ≠ some '<' := fun h => by
  have hname := Name.isNameChar_of_mem (List.mem_of_getLast? h)
  revert hname
  decide

theorem calm_name (n : Name) : Calm n.text := calm_of_not_mem fun h => by
  have hname := Name.isNameChar_of_mem h
  revert hname
  decide

theorem written_chars (l : List Char) : Marked.written (l.map .char) = l := by
  have hwritten := Marked.written_chars l []
  simpa [Marked.written] using hwritten

theorem map_ofFound_chars (l : List Char) :
    (l.map .char : Marked).map Part.ofFound = l.map .char := by
  rw [List.map_map]
  rfl

theorem Part.Legible.exists_token {x : Part (List Char)} (h : x.Legible)
    (hcode : ∀ text, x ≠ .code text)
    (hraw : ∀ name content closeTag, x ≠ .rawText name content closeTag) :
    ∃ tok, Part.ofToken tok = x ∧ ∀ rest, Token.readAny (tok.text ++ rest) = some tok := by
  cases x with
  | char c => exact h.elim
  | code text => exact absurd rfl (hcode text)
  | rawText name content closeTag => exact absurd rfl (hraw name content closeTag)
  | comment | close | opening => exact h

theorem Part.Legible.ne_nil {name content closeTag : List Char}
    (h : (Part.rawText name content closeTag).Legible) : content ++ closeTag ≠ [] := by
  intro hnil
  obtain ⟨rfl, rfl⟩ := List.append_eq_nil_iff.1 hnil
  exact absurd (h.2 []) (by simp [Text.find?])

theorem raw_ofToken (tok : Token) : (Part.ofToken tok).raw = Piece.rawTextAfter tok := by
  cases tok <;> rfl

theorem written_marks_ofToken (es : Entries) (n : Name) (tok : Token) :
    ((Part.ofToken tok).marks es n).written = tok.text := by
  rw [marks_ofToken]
  exact fill_scan_entries es _

/-- A trail that is legible is cut as it was put together. Held back is what has been read of the
gap. -/
theorem ofPieces_cutFrom (cur : Marked) (hms : ms.Faithful) (ht : t.codeTags = Found.values ms)
    (hlast : Calm last) (hss : ∀ s ∈ ss, s.1.Legible) {raw : Option (List Char)} {fuel : Nat}
    (hstrung : Strung raw (ss.map Prod.fst)) (hraw : raw ≠ none → cur = [])
    (hwithin : cur ++ Trail.marks es ⟨ss, last⟩ <:+: ms) (hcalm : Calm cur.written)
    (hend : cur.written.getLast? ≠ some '<')
    (hfuel : (Marked.written (cur ++ Trail.marks es ⟨ss, last⟩)).length < fuel) :
    Part.ofPieces t (Piece.cutFrom fuel raw (Marked.written (cur ++ Trail.marks es ⟨ss, last⟩))) =
      cur.map Part.ofFound ++ Trail.parts ⟨ss, last⟩ := by
  induction ss generalizing raw cur fuel with
  | nil =>
    obtain rfl : raw = none := hstrung
    obtain ⟨fuel, rfl⟩ : ∃ n, fuel = n + 1 := ⟨fuel - 1, by omega⟩
    have hmarks : Trail.marks es ⟨[], last⟩ = last.map .char := rfl
    rw [hmarks] at hwithin ⊢
    have htext := ofText_written hms ht hwithin
    rw [written_append, written_chars, List.map_append, map_ofFound_chars] at htext
    rw [written_append, written_chars, ofPieces_gap (hcalm.append hlast hend), htext]
    rfl
  | cons s ss ih =>
    obtain ⟨hs, hss⟩ := List.forall_mem_cons.1 hss
    obtain ⟨fuel, rfl⟩ : ∃ n, fuel = n + 1 := ⟨fuel - 1, by omega⟩
    have hrest : Trail.marks es ⟨ss, last⟩ <:+: ms := by
      refine List.IsInfix.trans ⟨cur ++ (s.1.literal.map .char ++ s.1.unit.marks es s.2), [], ?_⟩
        hwithin
      rw [Trail.marks_cons]
      simp
    -- Behind a unit that ends a gap nothing is held back.
    have hnext {raw : Option (List Char)} (hstrung : Strung raw (ss.map Prod.fst))
        (hfuel : (Trail.marks es ⟨ss, last⟩).written.length < fuel) :
        Part.ofPieces t (Piece.cutFrom fuel raw (Trail.marks es ⟨ss, last⟩).written) =
          Trail.parts ⟨ss, last⟩ :=
      ih [] hss hstrung (fun _ => rfl) hrest (calm_of_not_mem (by simp [Marked.written]))
        (by simp [Marked.written]) hfuel
    -- Code is a name in the gap and is held back with it; any other unit ends the gap.
    cases raw with
    | some name =>
      obtain ⟨hlit, ⟨content, closeTag, hx⟩, hstrung⟩ := hstrung
      obtain rfl := hraw (by simp)
      have hread : (Part.rawText name content closeTag).Legible := hx ▸ hs.unit
      have hpos := List.length_pos_iff.2 hread.ne_nil
      have hsplit : Marked.written ([] ++ Trail.marks es ⟨s :: ss, last⟩) =
          content ++ (closeTag ++ (Trail.marks es ⟨ss, last⟩).written) := by
        rw [List.nil_append, Trail.marks_cons, hlit, hx, List.map_nil, List.nil_append,
          written_append, ← List.append_assoc content]
        exact congrArg (· ++ _) (fill_scan_entries es _)
      rw [Trail.parts_cons, hsplit, hlit, hx, ofPieces_rawText (hread.2 _), hnext hstrung]
      · rfl
      · rw [hsplit] at hfuel
        simp only [List.length_append] at hfuel hpos
        omega
    | none =>
      obtain ⟨hnot, hstrung⟩ := hstrung
      have hcur : Calm (cur.written ++ s.1.literal) := hcalm.append hs.calm hend
      by_cases hcode : ∃ text, s.1.unit = .code text
      · obtain ⟨text, hx⟩ := hcode
        have hlast := getLast?_append_ne hend (hs.apart _ hx)
        have hheld : (cur ++ (s.1.literal.map .char ++ [.value (s.2, text)]) : Marked).written =
            cur.written ++ s.1.literal ++ s.2.text := by
          rw [written_append, written_append, written_chars, ← List.append_assoc]
          exact congrArg _ (List.append_nil _)
        have hmoved : cur ++ Trail.marks es ⟨s :: ss, last⟩ =
            (cur ++ (s.1.literal.map .char ++ [.value (s.2, text)])) ++
              Trail.marks es ⟨ss, last⟩ := by
          rw [Trail.marks_cons, hx]
          simp [Part.marks]
        rw [hmoved] at hwithin hfuel ⊢
        rw [ih _ hss (by simpa [hx, Part.raw] using hstrung) (by simp) hwithin
          (hheld ▸ hcur.append (calm_name _) hlast)
          (hheld ▸ getLast?_append_ne hlast (getLast?_name_ne _)) hfuel, Trail.parts_cons, hx]
        simp [Part.ofFound]
      · obtain ⟨tok, hx, hread⟩ := hs.unit.exists_token (fun text h => hcode ⟨text, h⟩) hnot
        have hpos := (Token.readAny_framed (hread [])).length_pos
        have hsplit : Marked.written (cur ++ Trail.marks es ⟨s :: ss, last⟩) =
            (cur.written ++ s.1.literal) ++
              (tok.text ++ (Trail.marks es ⟨ss, last⟩).written) := by
          rw [Trail.marks_cons, written_append, written_append, written_append, written_chars, ← hx,
            written_marks_ofToken, List.append_assoc]
        have hgap : cur ++ s.1.literal.map .char <:+: ms := by
          refine List.IsInfix.trans ⟨[], s.1.unit.marks es s.2 ++ Trail.marks es ⟨ss, last⟩, ?_⟩
            hwithin
          rw [Trail.marks_cons]
          simp
        have htext := ofText_written hms ht hgap
        rw [written_append, written_chars, List.map_append, map_ofFound_chars] at htext
        rw [← hx, raw_ofToken] at hstrung
        rw [hsplit, ofPieces_token hcur (hread _), htext, hnext hstrung, Trail.parts_cons, hx,
          List.append_assoc]
        rw [hsplit] at hfuel
        simp only [List.length_append] at hfuel hpos
        omega

/-- What is written of a legible trail is cut into its parts. -/
theorem ofProtected_legible {p : Protected} (hms : (Trail.marks es ⟨ss, last⟩).Faithful)
    (hworking : p.working = (Trail.marks es ⟨ss, last⟩).written)
    (htable : p.table.codeTags = Found.values (Trail.marks es ⟨ss, last⟩)) (hlast : Calm last)
    (hss : ∀ s ∈ ss, s.1.Legible) (hstrung : Strung none (ss.map Prod.fst)) :
    Part.ofProtected p = Trail.parts ⟨ss, last⟩ := by
  rw [Part.ofProtected, Piece.cut, hworking]
  exact ofPieces_cutFrom [] hms htable hlast hss hstrung (fun _ => rfl)
    (List.infix_refl _) (calm_of_not_mem (by simp [Marked.written])) (by simp [Marked.written])
    (Nat.lt_succ_self _)

end Cut

section Letters

variable {ss : List (Stride × Name)} {last s : List Char} {a : Stride}

theorem untagged_of_calm (h : Calm s) : Untagged s := by
  intro t ht
  cases t with
  | nil => rfl
  | cons c t =>
    by_cases hc : c = '<'
    · subst hc
      refine (readTagStart_angle_iff t).2 ?_
      cases t with
      | nil => simp
      | cons d t =>
        obtain ⟨-, hslash, -, hword⟩ := h d (List.IsInfix.trans ⟨[], t, rfl⟩ ht.isInfix)
        exact ⟨by simpa using hword, by simp [hslash]⟩
    · unfold readTagStart
      split <;> simp_all

theorem letter_of_unit {x : Part (List Char)} (hx : ∀ c, x ≠ .char c) :
    x.letter = ' ' ∨ x.letter = 'e' ∧ ∃ text, x = .code text := by
  cases x with
  | char c => exact absurd rfl (hx c)
  | code text => exact .inr ⟨rfl, text, rfl⟩
  | comment | close | opening | rawText => exact .inl rfl

theorem letters_chars (l : List Char) :
    (l.map Part.char : List (Part (List Char))).map Part.letter = l := by
  rw [List.map_map]
  exact List.map_id l

theorem Part.Legible.ne_char {x : Part (List Char)} (h : x.Legible) (c : Char) : x ≠ .char c := by
  rintro rfl
  exact h

/-- In the literal text of a legible trail no tag starts. -/
theorem calm_letters (hss : ∀ s ∈ ss, s.1.Legible) (hlast : Calm last) :
    Calm ((Trail.parts ⟨ss, last⟩).map Part.letter) := by
  induction ss with
  | nil =>
    change Calm ((last.map Part.char).map Part.letter)
    rwa [letters_chars]
  | cons s ss ih =>
    obtain ⟨hs, hss⟩ := List.forall_mem_cons.1 hss
    have hunit := letter_of_unit hs.unit.ne_char
    rw [Trail.parts_cons, List.map_append, List.map_cons, letters_chars]
    intro c hc
    rcases pair_append hc with hc | hc | ⟨hend, hhead⟩
    · exact hs.calm c hc
    · rcases List.infix_cons_iff.1 hc with hp | hc
      · obtain ⟨hangle, -⟩ := List.cons_prefix_cons.1 hp
        rcases hunit with h | ⟨h, -⟩ <;>
        · rw [h] at hangle
          exact absurd hangle (by decide)
      · exact ih hss c hc
    · obtain rfl := Option.some.inj hhead
      rcases hunit with h | ⟨-, text, h⟩
      · rw [h]
        decide
      · exact absurd hend (hs.apart text h)

theorem isWord_of_untagged (h : Untagged s) {c : Char} (hc : ['<', c] <:+: s) :
    isWord c = false := by
  obtain ⟨u, v, rfl⟩ := hc
  have hstart := h ('<' :: c :: v) ⟨u, by simp⟩
  exact ((readTagStart_angle_iff (c :: v)).1 hstart).1 c rfl

theorem calm_of_untagged {xs : List (Part (List Char))} (htags : Untagged (xs.map Part.letter))
    (hstray : ∀ c ∈ ['!', '/'], ¬ [.char '<', .char c] <:+: xs) (hs : s.map .char <:+: xs)
    (hopens : ¬ Opens s) : Calm s := by
  intro c hc
  have hletters := hs.map Part.letter
  rw [letters_chars] at hletters
  have hnot (d : Char) (hd : d ∈ ['!', '/']) : c ≠ d := by
    rintro rfl
    exact hstray c hd ((hc.map Part.char).trans hs)
  refine ⟨hnot '!' (by simp), hnot '/' (by simp), ?_, isWord_of_untagged htags (hc.trans hletters)⟩
  rintro rfl
  exact hopens hc

theorem quiet_of_untagged {xs : List (Part (List Char))} (htags : Untagged (xs.map Part.letter))
    (hstray : ∀ c ∈ ['!', '/'], ¬ [.char '<', .char c] <:+: xs) (ha : a.parts <:+: xs)
    (hopens : ¬ Opens a.literal) : a.Quiet := by
  refine ⟨calm_of_untagged htags hstray ((List.prefix_append _ _).isInfix.trans ha) hopens,
    fun text hx hlast => ?_⟩
  obtain ⟨u, hu⟩ := List.getLast?_eq_some_iff.1 hlast
  have hinfix := ha.map Part.letter
  rw [Stride.parts, List.map_append, letters_chars, hu, hx] at hinfix
  have hpair : ['<', 'e'] <:+: xs.map Part.letter :=
    List.IsInfix.trans ⟨u, [], by simp [Part.letter]⟩ hinfix
  exact absurd (isWord_of_untagged htags hpair) (by decide)

end Letters

section Relaid

variable {j : Job} {r : Run} {x y : Part (List Char)} {a b : Stride} {es : Entries}

theorem Job.Becomes.legible (hx : j.Becomes r x y) (hread : x.WasRead)
    (hclosed : ∀ name content, x ≠ .rawText name content []) : y.Legible := by
  cases hx with
  | code _ _ _ _ _ _ => trivial
  | comment text =>
    obtain ⟨s, hr⟩ := hread
    exact ⟨.comment text, rfl, Token.readAny_comment hr⟩
  | close text name =>
    obtain ⟨s, hr⟩ := hread
    obtain ⟨before, name', after, he, -, -, hne, hword, -⟩ :=
      Token.readClose_eq_some (Token.readAny_close hr)
    simp only [Token.close.injEq] at he
    obtain ⟨rfl, rfl⟩ := he
    exact ⟨.close ('<' :: '/' :: name ++ ['>']) name, rfl, Token.readAny_closeText hne hword⟩
  | opening text _ hread' => exact ⟨.opening _ _ _ _, rfl, hread'⟩
  | rawText name content closeTag =>
    obtain ⟨hraw, hclose⟩ := hread
    obtain ⟨rest, hfirst⟩ := hclose (by
      rintro rfl
      exact hclosed name content rfl)
    exact ⟨hraw, fun rest' => Piece.find?_closeText hraw hfirst (Job.allBlank_bodyEnd r content)⟩

theorem Stride.Relaid.legible (h : Stride.Relaid j a b) (hs : a.Sits es) (hquiet : a.Quiet) :
    b.Legible := by
  obtain ⟨r, hx⟩ := h.unit
  refine ⟨⟨hquiet.calm.of_words h.words, fun text hb hlast => ?_⟩, hx.legible hs.read hs.closed⟩
  obtain ⟨text', ha⟩ : ∃ text', a.unit = .code text' := by
    rw [hb] at hx
    generalize a.unit = x at hx ⊢
    cases hx
    exact ⟨_, rfl⟩
  obtain ⟨u, hu⟩ := List.getLast?_eq_some_iff.1 hlast
  have hend : Text.endsBlank b.literal = false := by
    rw [hu]
    exact Text.endsBlank_append (by simp)
  have hsolid := h.solid (by simp [hu]) hend
  refine hquiet.apart text' ha ?_
  rw [← Text.getLast?_solid hsolid, ← Text.flatten_words, ← h.words, Text.flatten_words,
    Text.getLast?_solid hend, hlast]

theorem Job.Becomes.raw (hx : j.Becomes r x y) : y.raw = x.raw := by
  cases hx <;> rfl

theorem Part.ordered_append {xs : List (Part (List Char))} (ys : List (Part (List Char)))
    (hxs : ∀ x ∈ xs, (∀ name content closeTag, x ≠ .rawText name content closeTag) ∧ x.raw = none) :
    Part.Ordered none (xs ++ ys) ↔ Part.Ordered none ys := by
  induction xs with
  | nil => rfl
  | cons x xs ih =>
    obtain ⟨⟨hx, hraw⟩, hxs⟩ := List.forall_mem_cons.1 hxs
    rw [List.cons_append, Part.Ordered, and_iff_right hx, hraw, ih hxs]

theorem Part.ordered_ofPieces {t : Table} {raw : Option (List Char)} {ps : List Piece}
    (ho : Piece.Ordered raw ps) : Part.Ordered raw (Part.ofPieces t ps) := by
  have htext (s : List Char) (x : Part (List Char)) (hx : x ∈ Part.ofText t s) :
      (∀ name content closeTag, x ≠ .rawText name content closeTag) ∧ x.raw = none := by
    obtain ⟨f, -, rfl⟩ := List.mem_map.1 hx
    cases f <;> exact ⟨by simp [Part.ofFound], rfl⟩
  induction ho with
  | nil raw => cases raw <;> trivial
  | unclosed name content => exact ⟨⟨content, [], rfl⟩, trivial⟩
  | rawText _ _ ih => exact ⟨⟨_, _, rfl⟩, ih⟩
  | last text => exact (Part.ordered_append [] (htext text)).2 trivial
  | @token text tok ps _ ih =>
    rw [Part.ofPieces_cons]
    refine (Part.ordered_append _ (htext text)).2 ⟨?_, ?_⟩
    · cases tok <;> simp [Part.ofToken]
    · rwa [raw_ofToken]

theorem Part.ordered_chars (l : List Char) (xs : List (Part (List Char))) :
    Part.Ordered none (l.map .char ++ xs) ↔ Part.Ordered none xs := by
  refine Part.ordered_append xs fun x hx => ?_
  obtain ⟨c, -, rfl⟩ := List.mem_map.1 hx
  exact ⟨by simp, rfl⟩

theorem strung_of_ordered {as : List Stride} {last : List Char} {raw : Option (List Char)}
    (h : Part.Ordered raw (as.flatMap Stride.parts ++ last.map .char))
    (hend : ∀ a ∈ as.getLast?, a.unit.raw = none) (hraw : as = [] → raw = none) :
    Strung raw as := by
  induction as generalizing raw with
  | nil => exact hraw rfl
  | cons a as ih =>
    have hlast : ∀ b ∈ as.getLast?, b.unit.raw = none := by
      intro b hb
      obtain ⟨bs, rfl⟩ := List.getLast?_eq_some_iff.1 hb
      exact hend b (by rw [← List.cons_append, List.getLast?_concat]; rfl)
    have hparts : (a :: as).flatMap Stride.parts ++ last.map .char =
        a.literal.map .char ++ a.unit :: (as.flatMap Stride.parts ++ last.map .char) := by
      simp [Stride.parts]
    rw [hparts] at h
    cases raw with
    | none =>
      obtain ⟨hnot, hrest⟩ := (Part.ordered_chars _ _).1 h
      exact ⟨hnot, ih hrest hlast fun hnil => hend a (by simp [hnil])⟩
    | some name =>
      cases hlit : a.literal with
      | nil =>
        rw [hlit] at h
        obtain ⟨hx, hrest⟩ := h
        exact ⟨hlit, hx, ih hrest hlast fun _ => rfl⟩
      | cons c l =>
        rw [hlit] at h
        obtain ⟨⟨content, closeTag, hx⟩, -⟩ := h
        cases hx

theorem Strung.relaid {as bs : List Stride} {raw : Option (List Char)}
    (h : List.Forall₂ (Stride.Relaid j) as bs) (hs : Strung raw as) : Strung raw bs := by
  induction h generalizing raw with
  | nil => exact hs
  | @cons a b as bs hab _ ih =>
    obtain ⟨r, hx⟩ := hab.unit
    cases raw with
    | none =>
      obtain ⟨hnot, hrest⟩ := hs
      exact ⟨hx.ne_rawText hnot, ih (hx.raw ▸ hrest)⟩
    | some name =>
      obtain ⟨-, ⟨content, closeTag, ha⟩, hrest⟩ := hs
      obtain ⟨content', closeTag', hb⟩ : ∃ content' closeTag',
          b.unit = .rawText name content' closeTag' := by
        rw [ha] at hx
        generalize b.unit = y at hx ⊢
        cases hx
        exact ⟨_, _, rfl⟩
      exact ⟨hab.flush _ _ _ hb, ⟨content', closeTag', hb⟩, ih hrest⟩

/-- Behind an open tag of raw text something is open. -/
theorem Job.Puts.raw {r₁ : Run} (h : j.Puts r x r₁) (hn : r₁.nesting = []) : x.raw = none := by
  cases h with
  | code _ | comment | close _ _ | rawText => rfl
  | @opening name attrs closing _ text hr =>
    by_contra hraw
    obtain ⟨m, hm⟩ := Option.ne_none_iff_exists'.1 hraw
    exact nesting_of_rawTextAfter (t := .opening text name attrs closing) (hr 0) hm hn

theorem Job.Runs.raw {q : Run} {as : List Stride} (h : j.Runs r as q) (hn : q.nesting = []) :
    ∀ a ∈ as.getLast?, a.unit.raw = none := by
  induction h with
  | nil => simp
  | @cons r r₁ q a as hput hruns ih =>
    cases as with
    | nil =>
      cases hruns
      intro b hb
      obtain rfl := Option.some.inj hb
      exact hput.raw hn
    | cons b as =>
      rw [List.getLast?_cons_cons]
      exact ih hn

end Relaid

end ErbLayout.Template
