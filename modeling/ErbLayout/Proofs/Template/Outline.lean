import ErbLayout.Proofs.Template.Joint
import ErbLayout.Proofs.Template.Verbatim
/-!
The parts of protected templates. Their literal text holds no names, and when the template is laid
out its close tags hold none either: each name stands in one place only.
-/

namespace ErbLayout.Text

variable {α : Type}

theorem initial_of_not_mem {x : α} {u a b : List α} (hx : x ∉ u) (h : u <+: a ++ x :: b) :
    u <+: a := by
  rcases Nat.lt_or_ge a.length u.length with hlt | hle
  · have hlong : a ++ [x] <+: u := by
      refine List.prefix_of_prefix_length_le ?_ h (by simpa using Nat.succ_le_of_lt hlt)
      exact ⟨b, by simp⟩
    exact absurd (hlong.subset (by simp)) hx
  · exact List.prefix_of_prefix_length_le h (List.prefix_append a _) hle

theorem infix_of_not_mem {x : α} {u a b : List α} (hx : x ∉ u) (h : u <:+: a ++ x :: b) :
    u <:+: a ∨ u <:+: b := by
  induction a with
  | nil =>
    rcases List.infix_cons_iff.1 h with h | h
    · exact .inl (initial_of_not_mem (a := []) hx h).isInfix
    · exact .inr h
  | cons c a ih =>
    rcases List.infix_cons_iff.1 h with h | h
    · exact .inl (initial_of_not_mem (a := c :: a) hx h).isInfix
    · exact (ih h).imp_left fun hu => hu.trans (List.suffix_cons c a).isInfix

end ErbLayout.Text

namespace ErbLayout.Template

open Layout Markup Placeholder
open Text (Found Framed allBlank startsBlank endsBlank)

variable {t : Table} {es : Entries} {xs ys : List (Part (List Char))} {x : Part (List Char)}
variable {raw : Option (List Char)} {ps : List Piece}

namespace Part

theorem eq_chars_of_ofFound {fs : List (Found (Name × List Char))} {u : List Char}
    (h : fs.map ofFound = u.map .char) : fs = u.map .char := by
  induction fs generalizing u with
  | nil =>
    obtain rfl := List.map_eq_nil_iff.1 h.symm
    rfl
  | cons f fs ih =>
    cases u with
    | nil => simp at h
    | cons c u =>
      obtain ⟨hf, hfs⟩ := List.cons.inj h
      cases f <;> simp only [ofFound, char.injEq, reduceCtorEq] at hf
      rw [hf, ih hfs]
      rfl

theorem plain_ofText (t : Table) (s : List Char) : Plain t.codeTags (ofText t s) := by
  rintro u ⟨as, bs, hu⟩
  obtain ⟨fs, gs, hs, hfs, -⟩ := List.map_eq_append_iff.1 hu.symm
  obtain ⟨fs₁, fs₂, rfl, -, hchars⟩ := List.map_eq_append_iff.1 hfs
  obtain rfl := eq_chars_of_ofFound hchars
  rw [List.append_assoc] at hs
  obtain ⟨r, -, hr⟩ := Text.exists_of_suffix_scan (hs ▸ List.suffix_append fs₁ _)
  obtain ⟨-, -, -, hfree⟩ := scan_literal hr
  exact Entries.namesIn_of_free hfree

theorem Plain.append_cons (hxs : Plain es xs) (hys : Plain es ys) (hx : ∀ c, x ≠ .char c) :
    Plain es (xs ++ x :: ys) := by
  intro u hu
  have hnot : x ∉ u.map Part.char := by
    intro hmem
    obtain ⟨c, -, rfl⟩ := List.mem_map.1 hmem
    exact hx c rfl
  rcases Text.infix_of_not_mem hnot hu with hu | hu
  · exact hxs u hu
  · exact hys u hu

theorem plain_nil (es : Entries) : Plain es [] := by
  intro u hu
  obtain rfl := List.map_eq_nil_iff.1 (List.infix_nil.1 hu)
  rfl

theorem ofToken_ne_char (tok : Token) (c : Char) : ofToken tok ≠ .char c := by
  cases tok <;> simp [ofToken]

theorem plain_ofPieces (t : Table) (ho : Piece.Ordered raw ps) :
    Plain t.codeTags (ofPieces t ps) := by
  induction ho with
  | nil raw => exact plain_nil _
  | unclosed name content => exact (plain_nil _).append_cons (plain_nil _) (by simp)
  | rawText _ _ ih => exact (plain_nil _).append_cons ih (by simp)
  | last text =>
    have htext := plain_ofText t text
    rwa [← List.append_nil (ofText t text)] at htext
  | @token text tok ps _ ih =>
    exact (plain_ofText t text).append_cons ih (ofToken_ne_char tok)

theorem sound_ofPieces (ht : t.Proper) (hframed : ∀ tok, .token tok ∈ ps → Framed tok.text) :
    ∀ x ∈ ofPieces t ps, x.Sound t.codeTags := by
  intro x hx
  obtain ⟨p, hp, hx⟩ := List.mem_flatMap.1 hx
  cases p with
  | gap text =>
    obtain ⟨f, hf, rfl⟩ := List.mem_map.1 hx
    cases f with
    | char c => trivial
    | value e =>
      have he := mem_of_mem_scan hf
      exact Entries.namesIn_of_free fun e' he' => ht.fresh e' he' e he
  | token tok =>
    obtain rfl := List.mem_singleton.1 hx
    cases tok with
    | comment text => exact hframed _ hp
    | close text name => trivial
    | opening text name attrs closing => trivial
  | rawText name content closeTag =>
    obtain rfl := List.mem_singleton.1 hx
    trivial

end Part

/-- What is left open was opened by an item before. -/
theorem exists_opening {checker : Ruby.Checker} {name : List Char} {stack : List Opened}
    {items : List Item} (h : .element name ∈ openedBy checker stack items) :
    .element name ∈ stack ∨
      ∃ text attrs closing, .token (.opening text name attrs closing) ∈ items := by
  induction items generalizing stack with
  | nil => exact .inl h
  | cons i is ih =>
    rcases ih h with hmem | ⟨text, attrs, closing, hmem⟩
    · rw [Item.beyond, List.mem_append, Option.mem_toList] at hmem
      rcases hmem with hopens | haround
      · obtain ⟨text, attrs, closing, rfl⟩ := Item.opening_of_opens hopens
        exact .inr ⟨text, attrs, closing, List.mem_cons_self⟩
      · unfold Item.around at haround
        split at haround
        · exact .inl (List.mem_of_mem_tail haround)
        · exact .inl haround
    · exact .inr ⟨text, attrs, closing, List.mem_cons_of_mem i hmem⟩

theorem opening_of_close {checker : Ruby.Checker} {items : List Item}
    (hm : Matched checker [] items) {text name : List Char}
    (h : .token (.close text name) ∈ items) :
    ∃ text attrs closing, .token (.opening text name attrs closing) ∈ items := by
  obtain ⟨pre, post, rfl⟩ := List.append_of_mem h
  have hends := ((matched_append checker [] pre _).1 hm).2.1 _ rfl
  rcases exists_opening (List.mem_of_mem_head? hends) with hnil | ⟨text, attrs, closing, hmem⟩
  · simp at hnil
  · exact ⟨text, attrs, closing, List.mem_append_left _ hmem⟩

theorem namesIn_opening {s text name attrs : List Char} {closing : Closing}
    (h : Token.readAny s = some (.opening text name attrs closing)) :
    es.namesIn name ⊆ es.namesIn text := by
  obtain ⟨name', as, gap, closing', he, -, -, has, hgap, -⟩ :=
    Token.readOpening_eq_some (Token.readAny_opening h)
  simp only [Token.opening.injEq] at he
  obtain ⟨rfl, rfl, rfl, rfl⟩ := he
  have hends : Free (gap ++ closing.text) := (free_of_allBlank hgap).append (free_closing closing)
  have hparts := es.seamwise_namesIn.openTag name (Token.headFree_spacedText has) hends
  rw [← List.append_assoc] at hparts
  intro e he
  rw [hparts]
  simp [he]

theorem namesIn_close {s text name : List Char} (h : Token.readAny s = some (.close text name)) :
    es.namesIn name ⊆ es.namesIn text := by
  obtain ⟨before, name', after, he, hbefore, hafter, -⟩ :=
    Token.readClose_eq_some (Token.readAny_close h)
  simp only [Token.close.injEq] at he
  obtain ⟨rfl, rfl⟩ := he
  have hparts : es.namesIn ('<' :: '/' :: name ++ ['>']) =
      es.namesIn ['<', '/'] ++ (es.namesIn name ++ es.namesIn ['>']) :=
    es.seamwise_namesIn.between (free_of_all (s := ['<', '/']) (by decide))
      (free_of_all (s := ['>']) (by decide)) name
  intro e he
  rw [es.seamwise_namesIn.closeTag hbefore hafter, hparts]
  simp [he]

theorem token_mem_items {apart : Bool} {tok : Token} (h : .token tok ∈ ps) :
    .token tok ∈ (Cell.ofPieces t apart ps).map Cell.item := by
  induction ps generalizing apart with
  | nil => simp at h
  | cons p ps ih =>
    rcases List.mem_cons.1 h with rfl | hrest
    · rw [Cell.ofPieces]
      exact List.mem_cons_self
    · cases p with
      | gap text =>
        rw [Cell.ofPieces, List.map_append]
        exact List.mem_append_right _ (ih hrest)
      | token tok' =>
        rw [Cell.ofPieces]
        exact List.mem_cons_of_mem _ (ih hrest)
      | rawText name content closeTag =>
        rw [Cell.ofPieces, List.map_append]
        exact List.mem_append_right _ (ih hrest)

/-- Each name stands in one item only. -/
theorem disjoint_items {p : Protected} (ht : p.table.Proper)
    (hnames : p.table.codeTags.namesIn p.working = p.table.codeTags) {i i' : Item}
    (hi : i ∈ (Cell.ofProtected p).map Cell.item) (hi' : i' ∈ (Cell.ofProtected p).map Cell.item)
    (hne : i ≠ i') :
    List.Disjoint (p.table.codeTags.namesIn i.text) (p.table.codeTags.namesIn i'.text) := by
  have hflat : p.table.codeTags = ((Cell.ofProtected p).map Cell.item).flatMap fun i =>
      p.table.codeTags.namesIn i.text := by
    rw [List.flatMap_map, ← namesIn_ofProtected ht, hnames]
  have hall : p.table.codeTags.Nodup := ht.distinct.imp fun hne he => hne (congrArg Prod.fst he)
  rw [hflat, List.nodup_flatMap] at hall
  have hsymm : Std.Symm (Function.onFun List.Disjoint fun i : Item =>
      p.table.codeTags.namesIn i.text) := ⟨fun _ _ h => h.symm⟩
  exact hall.2.forall hi hi' hne

/-- A close tag has the name of an open tag, so no name of the table stands in it. -/
theorem namesIn_of_matched {p : Protected} {checker : Ruby.Checker} (ht : p.table.Proper)
    (hnames : p.table.codeTags.namesIn p.working = p.table.codeTags)
    (hm : Matched checker [] ((Cell.ofProtected p).map Cell.item)) {text name : List Char}
    (h : .token (.close text name) ∈ (Cell.ofProtected p).map Cell.item) :
    p.table.codeTags.namesIn name = [] := by
  have hread (tok : Token) (hmem : .token tok ∈ (Cell.ofProtected p).map Cell.item) :
      ∃ s, Token.readAny s = some tok := by
    obtain ⟨c, hc, hi⟩ := List.mem_map.1 hmem
    have hsound := sound_ofProtected ht c hc
    rwa [hi] at hsound
  obtain ⟨text', attrs, closing, hopening⟩ := opening_of_close hm h
  obtain ⟨s, hs⟩ := hread _ h
  obtain ⟨s', hs'⟩ := hread _ hopening
  have hdisjoint := disjoint_items ht hnames hopening h (by simp)
  refine List.eq_nil_iff_forall_not_mem.2 fun e he => ?_
  exact hdisjoint (namesIn_opening hs' he) (namesIn_close hs he)

theorem ended_of_format {style : Style} {names : Names} {source text : List Char}
    (ha : names.Ample (3 * source.length)) (h : format style names source = .ok text) :
    ∀ x ∈ Part.ofProtected (protect names source),
      x.Ended (protect names source).table.codeTags := by
  obtain ⟨ws, ts, hm⟩ := exists_marking ha
  obtain ⟨-, -, -, -, hmatched, hclosed⟩ := printed_of_format h
  intro x hx
  obtain ⟨p, hp, hx⟩ := List.mem_flatMap.1 hx
  cases p with
  | gap s =>
    obtain ⟨f, -, rfl⟩ := List.mem_map.1 hx
    cases f <;> trivial
  | token tok =>
    obtain rfl := List.mem_singleton.1 hx
    cases tok with
    | comment s => trivial
    | close s name =>
      exact namesIn_of_matched hm.proper hm.namesIn_working hmatched (token_mem_items hp)
    | opening s name attrs closing => trivial
  | rawText name content closeTag =>
    obtain rfl := List.mem_singleton.1 hx
    rintro rfl
    exact hclosed name content hp

namespace Part

theorem head_ofText {c : Char} {s : List Char} (h : (ofText t s).head? = some (.char c)) :
    ∃ r, s = c :: r := by
  cases s using Entries.scan_induction t.codeTags with
  | nil => simp [ofText] at h
  | char d s hx _ =>
    rw [ofText_char hx] at h
    simp only [List.head?_cons, Option.some.injEq, char.injEq] at h
    exact ⟨s, by rw [h]⟩
  | name e he s hx _ =>
    rw [ofText_name hx] at h
    simp at h

theorem head_ofPieces {c : Char} (ho : Piece.Ordered none ps)
    (h : (ofPieces t ps).head? = some (.char c)) : ∃ r, ps.flatMap Piece.text = c :: r := by
  have hgap (text : List Char) (ps : List Piece) (hhead : (ofText t text).head? = some (.char c)) :
      ∃ r, (Piece.gap text :: ps).flatMap Piece.text = c :: r := by
    obtain ⟨r, rfl⟩ := head_ofText hhead
    exact ⟨r ++ ps.flatMap Piece.text, rfl⟩
  cases ho with
  | nil => simp [ofPieces] at h
  | last text =>
    refine hgap text [] ?_
    rwa [ofPieces_cons, show ofPieces t [] = [] from rfl, List.append_nil] at h
  | @token text tok ps _ =>
    refine hgap text (.token tok :: ps) ?_
    rw [ofPieces_cons] at h
    change (ofText t text ++ ofPieces t (.token tok :: ps)).head? = _ at h
    cases ht : ofText t text with
    | nil =>
      rw [ht] at h
      exact absurd (Option.some.inj h) (ofToken_ne_char tok c)
    | cons x xs =>
      rw [ht] at h
      exact h

theorem last_ofText {c : Char} {s : List Char} (h : (ofText t s).getLast? = some (.char c)) :
    ∃ r, s = r ++ [c] := by
  obtain ⟨ys, hys⟩ := List.getLast?_eq_some_iff.1 h
  obtain ⟨fs, gs, hscan, -, hgs⟩ := List.map_eq_append_iff.1 hys
  obtain rfl := eq_chars_of_ofFound (u := [c]) hgs
  have hfill := fill_scan_entries t.codeTags s
  rw [hscan, Found.fill_append] at hfill
  exact ⟨_, hfill.symm⟩

theorem last_ofPieces {c : Char} (ho : Piece.Ordered raw ps)
    (h : (ofPieces t ps).getLast? = some (.char c)) : ∃ r, ps.flatMap Piece.text = r ++ [c] := by
  have hbehind {x : Part (List Char)} (hx : x ≠ .char c) {xs : List (Part (List Char))}
      (hlast : (x :: xs).getLast? = some (.char c)) : xs.getLast? = some (.char c) := by
    cases xs with
    | nil => exact absurd (Option.some.inj hlast) hx
    | cons y ys => rwa [List.getLast?_cons_cons] at hlast
  induction ho with
  | nil raw => simp [ofPieces] at h
  | unclosed name content => exact absurd (hbehind (by simp) h) (by simp)
  | @rawText name content closeTag ps _ _ ih =>
    obtain ⟨r, hr⟩ := ih (hbehind (by simp) h)
    exact ⟨content ++ closeTag ++ r, by rw [List.flatMap_cons, hr, List.append_assoc]; rfl⟩
  | last text =>
    rw [ofPieces_cons, show ofPieces t [] = [] from rfl, List.append_nil] at h
    obtain ⟨r, rfl⟩ := last_ofText h
    exact ⟨r, List.append_nil _⟩
  | @token text tok ps _ ih =>
    rw [ofPieces_cons, ofPieces_cons] at h
    change (ofText t text ++ ofToken tok :: ofPieces t ps).getLast? = _ at h
    rw [List.getLast?_append_of_ne_nil _ (by simp)] at h
    obtain ⟨r, hr⟩ := ih (hbehind (ofToken_ne_char tok c) h)
    refine ⟨text ++ (tok.text ++ r), ?_⟩
    rw [List.flatMap_cons, List.flatMap_cons, hr, List.append_assoc, List.append_assoc]
    rfl

theorem ofPieces_ne_nil (ho : Piece.Ordered none ps) (h : ps.flatMap Piece.text ≠ []) :
    ofPieces t ps ≠ [] := by
  cases ho with
  | nil => exact absurd rfl h
  | token _ => simp [ofPieces, ofPiece]
  | last text =>
    intro hnil
    rw [ofPieces_cons, List.append_eq_nil_iff] at hnil
    have hscan := List.map_eq_nil_iff.1 hnil.1
    have hfill := fill_scan_entries t.codeTags text
    rw [hscan] at hfill
    exact h (by simp [← hfill, Piece.text, Found.fill])

/-- No raw text stands at the start of a template. -/
theorem ofPieces_ne_rawText (ho : Piece.Ordered none ps) (u : List Char)
    (name content closeTag : List Char) (ys : List (Part (List Char))) :
    ofPieces t ps ≠ u.map .char ++ .rawText name content closeTag :: ys := by
  have hnot (text : List Char) : Part.rawText name content closeTag ∉ ofText t text := by
    intro hmem
    obtain ⟨f, -, hf⟩ := List.mem_map.1 hmem
    cases f <;> simp [ofFound] at hf
  intro he
  cases ho with
  | nil => simp [ofPieces] at he
  | last text =>
    rw [ofPieces_cons, show ofPieces t [] = [] from rfl, List.append_nil] at he
    exact hnot text (show _ ∈ ofPiece t (.gap text) by simp [he])
  | @token text tok ps _ =>
    rw [ofPieces_cons, ofPieces_cons] at he
    change ofText t text ++ ofToken tok :: ofPieces t ps = _ at he
    rcases List.append_eq_append_iff.1 he with ⟨zs, hu, hzs⟩ | ⟨zs, htext, hzs⟩
    · rcases zs with _ | ⟨z, zs⟩
      · obtain ⟨htok, -⟩ := List.cons.inj hzs
        cases tok <;> simp [ofToken] at htok
      · obtain ⟨htok, -⟩ := List.cons.inj hzs
        have hmem : ofToken tok ∈ u.map Part.char := by
          rw [hu, htok]
          simp
        obtain ⟨c, -, hc⟩ := List.mem_map.1 hmem
        exact ofToken_ne_char tok c hc.symm
    · rcases zs with _ | ⟨z, zs⟩
      · obtain ⟨htok, -⟩ := List.cons.inj hzs
        cases tok <;> simp [ofToken] at htok
      · obtain ⟨hraw, -⟩ := List.cons.inj hzs
        exact hnot text (by simp [htext, hraw])

end Part

end ErbLayout.Template
