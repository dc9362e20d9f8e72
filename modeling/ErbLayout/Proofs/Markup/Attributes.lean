import ErbLayout.Proofs.Markup.Token
import ErbLayout.Proofs.Text.Collapse
import ErbLayout.Proofs.Text.Scan
/-!
The attributes of an open tag are found again in its single-spaced form: each of them ends where it
did, and only the white space within quoted values has changed.
-/

namespace ErbLayout.Markup

open Text (Word allBlank joinWords words startsBlank)

/-- The white space that ends a name: ASCII white space but the information separators. -/
def isPlainBlank (c : Char) : Bool :=
  c == ' ' || c == '\t' || c == '\n' || c == '\r' || c == '\x0c' || c == '\x0b'

/-- A text that holds no other white space. -/
def PlainBlanks (s : List Char) : Prop := ∀ c ∈ s, isBlank c = true → isPlainBlank c = true

theorem PlainBlanks.of_subset {s t : List Char} (h : PlainBlanks t) (hs : s ⊆ t) : PlainBlanks s :=
  fun c hc => h c (hs hc)

theorem isNameChar_of_isPlainBlank {c : Char} (h : isPlainBlank c = true) :
    isNameChar c = false := by
  simp only [isPlainBlank, Bool.or_eq_true, beq_iff_eq] at h
  rcases h with ((((rfl | rfl) | rfl) | rfl) | rfl) | rfl <;> decide

namespace Attribute

theorem Bare.solid {n : List Char} (h : Bare n) (hp : PlainBlanks n) :
    ∀ c ∈ n, isBlank c = false := by
  intro c hc
  cases hb : isBlank c with
  | false => rfl
  | true =>
    have hname := h.nameChars c hc
    rw [isNameChar_of_isPlainBlank (hp c hc hb)] at hname
    exact absurd hname (by simp)

theorem nameRun_append {n rest : List Char} (h : ∀ c ∈ n, isNameChar c = true)
    (hr : ∀ c ∈ rest.head?, isNameChar c = false) : nameRun (n ++ rest) = (n, rest) := by
  rw [nameRun, List.span_eq_takeWhile_dropWhile, List.takeWhile_append_of_pos h,
    List.dropWhile_append_of_pos h]
  cases rest with
  | nil => simp
  | cons c rest =>
    have hc : isNameChar c = false := hr c rfl
    rw [List.takeWhile_cons_of_neg (by simp [hc]), List.dropWhile_cons_of_neg (by simp [hc]),
      List.append_nil]

theorem stops_of_plain {rest : List Char} (h : ∀ c ∈ rest.head?, isPlainBlank c = true) :
    ∀ c ∈ rest.head?, isNameChar c = false := fun c hc => isNameChar_of_isPlainBlank (h c hc)

theorem dropSlashes_eq_self {n : List Char} (h : endsWithSlash n = false) : dropSlashes n = n := by
  rcases List.eq_nil_or_concat n with rfl | ⟨m, c, rfl⟩
  · rfl
  · have hc : (c == '/') = false := by simpa [endsWithSlash] using h
    rw [List.concat_eq_append, dropSlashes, List.reverse_append]
    simp [hc]

theorem closeQuote_append {q : Char} {v : List Char} (h : q ∉ v) (r : List Char) :
    closeQuote q (v ++ q :: r) = some (v, r) := by
  induction v with
  | nil => simp [closeQuote]
  | cons c v ih =>
    rw [List.mem_cons, not_or] at h
    rw [List.cons_append, closeQuote, if_neg fun hc => h.1 hc.symm, ih h.2]
    rfl

theorem Bare.name_test {n : List Char} (h : Bare n) : n.isEmpty = false ∧ endsWithSlash n = false :=
  ⟨by simpa using h.ne_nil, h.noSlash⟩

theorem readQuoted_eq_none {q : Quote} {s n r : List Char} (h : nameRun s = (n, r))
    (hr : ∀ c t, r = '=' :: c :: t → c ≠ q.mark) : readQuoted q s = none := by
  rw [readQuoted, h]
  split
  · rename_i n' m t he
    simp only [Prod.mk.injEq] at he
    rw [if_neg (by simp [hr m t he.2])]
  · rfl

theorem readQuoted_of_nameRun {q : Quote} {s n r : List Char} {m : Char}
    (h : nameRun s = (n, '=' :: m :: r)) :
    readQuoted q s = if m = q.mark && !n.isEmpty && !endsWithSlash n then
      (closeQuote q.mark r).map fun (v, rest) => (.quoted n q v, rest) else none := by
  rw [readQuoted, h]
  rfl

theorem readBare_of_nameRun {s n r : List Char} (h : nameRun s = (n, '=' :: r)) :
    readBare s = if n.isEmpty || endsWithSlash n || (dropSlashes (nameRun r).1).isEmpty then none
      else some (.bare n (dropSlashes (nameRun r).1)) := by
  rw [readBare, h]
  rfl

theorem not_isNameChar_mark (q : Quote) : isNameChar q.mark = false := by
  cases q <;> decide

theorem readAny_name {n : List Char} (h : Bare n) {rest : List Char}
    (hrest : ∀ c ∈ rest.head?, isPlainBlank c = true) : readAny (n ++ rest) = some (.name n) := by
  have hrun : nameRun (n ++ rest) = (n, rest) := nameRun_append h.nameChars (stops_of_plain hrest)
  have hequals : ∀ r, rest ≠ '=' :: r := by
    rintro r rfl
    exact absurd (hrest '=' rfl) (by decide)
  have hnone (q : Quote) : readQuoted q (n ++ rest) = none :=
    readQuoted_eq_none hrun fun c t he => absurd he (hequals _)
  have hbare : readBare (n ++ rest) = none := by
    rw [readBare, hrun]
    split
    · rename_i n' r he
      simp only [Prod.mk.injEq] at he
      exact absurd he.2 (hequals r)
    · rfl
  rw [readAny, hnone, hnone, hbare]
  dsimp only
  rw [readName, hrun, dropSlashes_eq_self h.noSlash]
  cases n with
  | nil => exact absurd rfl h.ne_nil
  | cons c n => rfl

theorem Bare.ne_mark {v : List Char} (h : Bare v) (q : Quote) (x y : List Char) :
    v ++ x ≠ q.mark :: y := by
  intro he
  obtain ⟨c, v, rfl⟩ := List.exists_cons_of_ne_nil h.ne_nil
  have hc := h.nameChars c List.mem_cons_self
  rw [(List.cons.inj he).1, not_isNameChar_mark] at hc
  exact absurd hc (by simp)

/-- Behind a name and an equals sign, what is no quote is a bare value as far as it goes. -/
theorem readAny_equals {n s : List Char} (hn : Bare n) (hs : ∀ (q : Quote) r, s ≠ q.mark :: r)
    (hv : dropSlashes (nameRun s).1 ≠ []) :
    readAny (n ++ '=' :: s) = some (.bare n (dropSlashes (nameRun s).1)) := by
  have hrun : nameRun (n ++ '=' :: s) = (n, '=' :: s) :=
    nameRun_append hn.nameChars (by simp; decide)
  have hnone (q : Quote) : readQuoted q (n ++ '=' :: s) = none := by
    refine readQuoted_eq_none hrun fun c t he => ?_
    rintro rfl
    exact hs q t (List.cons.inj he).2
  have hvalue : (dropSlashes (nameRun s).1).isEmpty = false := by simpa using hv
  rw [readAny, hnone, hnone]
  dsimp only
  rw [readBare_of_nameRun hrun, hn.name_test.1, hn.name_test.2, hvalue]
  rfl

theorem readAny_bare {n v : List Char} (hn : Bare n) (hv : Bare v) {rest : List Char}
    (hrest : ∀ c ∈ rest.head?, isPlainBlank c = true) :
    readAny (n ++ '=' :: (v ++ rest)) = some (.bare n v) := by
  have hrun := nameRun_append hv.nameChars (stops_of_plain hrest)
  have hvalue : dropSlashes (nameRun (v ++ rest)).1 = v := by
    rw [hrun, dropSlashes_eq_self hv.noSlash]
  have hread := readAny_equals hn (s := v ++ rest) (fun q r => hv.ne_mark q rest r)
    (by rw [hvalue]; exact hv.ne_nil)
  rwa [hvalue] at hread

theorem readAny_quoted {n v : List Char} {q : Quote} (hn : Bare n) (hv : q.mark ∉ v)
    (rest : List Char) :
    readAny (n ++ '=' :: q.mark :: (v ++ q.mark :: rest)) = some (.quoted n q v) := by
  have hrun : nameRun (n ++ '=' :: q.mark :: (v ++ q.mark :: rest)) =
      (n, '=' :: q.mark :: (v ++ q.mark :: rest)) :=
    nameRun_append hn.nameChars (by simp; decide)
  have hsome : readQuoted q (n ++ '=' :: q.mark :: (v ++ q.mark :: rest)) =
      some (.quoted n q v, rest) := by
    rw [readQuoted_of_nameRun hrun, hn.name_test.1, hn.name_test.2, closeQuote_append hv,
      if_pos (by simp)]
    rfl
  rw [readAny]
  cases q with
  | single => rw [hsome]
  | double =>
    have hnone : readQuoted .single (n ++ '=' :: Quote.double.mark ::
        (v ++ Quote.double.mark :: rest)) = none := by
      refine readQuoted_eq_none hrun fun c t he => ?_
      simp only [List.cons.injEq, true_and] at he
      rw [← he.1]
      decide
    rw [hnone, hsome]

/-- An attribute is read back from its text when ASCII white space follows or nothing. -/
theorem readAny_append {a : Attribute} (h : a.WellFormed) {rest : List Char}
    (hrest : ∀ c ∈ rest.head?, isPlainBlank c = true) : readAny (a.text ++ rest) = some a := by
  cases a with
  | name n => exact readAny_name h hrest
  | bare n v =>
    have hread := readAny_bare h.1 h.2 hrest
    simpa [text] using hread
  | quoted n q v =>
    have hread := readAny_quoted h.1 h.2 rest
    simpa [text] using hread

theorem text_ne_nil {a : Attribute} (h : a.WellFormed) : a.text ≠ [] := by
  cases a with
  | name n => exact h.ne_nil
  | bare n v => simp [text]
  | quoted n q v => simp [text]

theorem all_of_readAny {a : Attribute} {rest : List Char} (h : readAny (a.text ++ rest) = some a)
    (hne : a.text ≠ []) : all (a.text ++ rest) = a :: all rest := by
  have hread : read (a.text ++ rest) = some (a, a.text.length) := by
    rw [read, h]
    rfl
  rw [all, Text.scan_of_some (List.length_pos_iff.2 hne) hread (by simp [hne]), List.drop_left]
  rfl

theorem all_text_append {a : Attribute} (h : a.WellFormed) {rest : List Char}
    (hrest : ∀ c ∈ rest.head?, isPlainBlank c = true) : all (a.text ++ rest) = a :: all rest :=
  all_of_readAny (readAny_append h hrest) (text_ne_nil h)

theorem readAny_plainBlank {c : Char} (hc : isPlainBlank c = true) (s : List Char) :
    readAny (c :: s) = none := by
  have hrun : nameRun (c :: s) = ([], c :: s) :=
    nameRun_append (n := []) (by simp) (by simpa using isNameChar_of_isPlainBlank hc)
  have hne : c ≠ '=' := by
    rintro rfl
    exact absurd hc (by decide)
  have hnone (q : Quote) : readQuoted q (c :: s) = none :=
    readQuoted_eq_none hrun fun d t he => absurd (List.cons.inj he).1 hne
  have hbare : readBare (c :: s) = none := by
    rw [readBare, hrun]
    split
    · rename_i n r he
      simp only [Prod.mk.injEq, List.cons.injEq] at he
      exact absurd he.2.1 hne
    · rfl
  rw [readAny, hnone, hnone, hbare, readName, hrun]
  rfl

theorem all_plainBlank_append {g : List Char} (hg : ∀ c ∈ g, isPlainBlank c = true)
    (s : List Char) : all (g ++ s) = all s := by
  induction g with
  | nil => rfl
  | cons c g ih =>
    have hread : read (c :: (g ++ s)) = none := by
      rw [read, readAny_plainBlank (hg c List.mem_cons_self)]
      rfl
    rw [List.cons_append, all, Text.scan_cons_of_none hread]
    exact ih fun d hd => hg d (List.mem_cons_of_mem c hd)

/-- What stands outside quotes, but for the equals sign. -/
def unquoted : Attribute → List Char
  | .name n => n
  | .bare n v => n ++ v
  | .quoted n _ _ => n

/-- An attribute without white space but in quotes. -/
def Solid (a : Attribute) : Prop := ∀ c ∈ a.unquoted, isBlank c = false

instance (a : Attribute) : Decidable a.Solid :=
  decidable_of_iff (a.unquoted.all fun c => !isBlank c) (by simp [Solid])

/-- Every run of white space in a quoted value is one space. -/
def collapsed : Attribute → Attribute
  | .quoted n q v => .quoted n q (Text.collapse v)
  | a => a

theorem Solid.collapsed {a : Attribute} (h : a.Solid) : a.collapsed.Solid := by
  cases a <;> exact h

theorem not_isBlank_mark (q : Quote) : isBlank q.mark = false := by
  cases q <;> decide

theorem WellFormed.collapsed {a : Attribute} (h : a.WellFormed) : a.collapsed.WellFormed := by
  cases a with
  | name n => exact h
  | bare n v => exact h
  | quoted n q v =>
    refine ⟨h.1, fun hq => ?_⟩
    rcases Text.mem_of_mem_collapse hq with hq | hq
    · exact h.2 hq
    · have hmark := not_isBlank_mark q
      rw [hq] at hmark
      exact absurd hmark (by decide)

theorem WellFormed.solid {a : Attribute} (h : a.WellFormed) (hp : PlainBlanks a.text) :
    a.Solid := by
  cases a with
  | name n => exact Bare.solid h hp
  | bare n v =>
    exact List.forall_mem_append.2 ⟨h.1.solid (hp.of_subset (by simp [text])),
      h.2.solid (hp.of_subset (by simp [text]))⟩
  | quoted n q v => exact h.1.solid (hp.of_subset (by simp [text]))

theorem WellFormed.exists_bare {a : Attribute} (h : a.WellFormed) :
    ∃ n t, a.text = n ++ t ∧ Bare n ∧ n ⊆ a.unquoted := by
  cases a with
  | name n => exact ⟨n, [], by simp [text], h, fun _ hc => hc⟩
  | bare n v => exact ⟨n, '=' :: v, rfl, h.1, List.subset_append_left n v⟩
  | quoted n q v => exact ⟨n, '=' :: q.mark :: v ++ [q.mark], by simp [text], h.1, fun _ hc => hc⟩

theorem words_text_ne_nil {a : Attribute} (h : a.WellFormed) (hs : a.Solid) : words a.text ≠ [] := by
  obtain ⟨n, t, htext, hn, hsub⟩ := h.exists_bare
  obtain ⟨c, hc⟩ := List.exists_mem_of_ne_nil n hn.ne_nil
  intro hnil
  have hblank := List.all_eq_true.1 (Text.words_eq_nil_iff.1 hnil) c
    (htext ▸ List.mem_append_left t hc)
  rw [hs c (hsub hc)] at hblank
  exact absurd hblank (by simp)

/-- The single-spaced form of an attribute is the attribute with its value in that form. -/
theorem normalize_text {a : Attribute} (h : a.WellFormed) (hs : a.Solid) :
    Text.normalize a.text = a.collapsed.text := by
  cases a with
  | name n => exact Text.normalize_of_word ⟨h.ne_nil, hs⟩
  | bare n v =>
    refine Text.normalize_of_word ⟨by simp [text], fun c hc => ?_⟩
    rcases List.mem_append.1 hc with hc | hc
    · exact hs c (List.mem_append_left v hc)
    · rcases List.mem_cons.1 hc with rfl | hc
      · decide
      · exact hs c (List.mem_append_right n hc)
  | quoted n q v =>
    have hmark := not_isBlank_mark q
    have hstart : Word (n ++ ['=', q.mark]) := by
      refine ⟨by simp, fun c hc => ?_⟩
      rcases List.mem_append.1 hc with hc | hc
      · exact hs c hc
      · simp only [List.mem_cons, List.not_mem_nil, or_false] at hc
        rcases hc with rfl | rfl
        · decide
        · exact hmark
    have hend : Word [q.mark] := ⟨by simp, by simpa using hmark⟩
    have htext : text (.quoted n q v) = n ++ ['=', q.mark] ++ (v ++ [q.mark]) := by simp [text]
    rw [htext, Text.normalize_between hstart hend]
    simp [collapsed, text]

end Attribute

namespace Token

open Attribute (Solid WellFormed)

/-- Attributes behind ASCII white space, and without any but in quotes. -/
def Clear (as : List (List Char × Attribute)) : Prop :=
  ∀ p ∈ as, p.1 ≠ [] ∧ (∀ c ∈ p.1, isPlainBlank c = true) ∧ p.2.WellFormed ∧ p.2.Solid

theorem isBlank_of_isPlainBlank {c : Char} (h : isPlainBlank c = true) : isBlank c = true := by
  simp only [isPlainBlank, Bool.or_eq_true, beq_iff_eq] at h
  rcases h with ((((rfl | rfl) | rfl) | rfl) | rfl) | rfl <;> decide

theorem Clear.spaced {as : List (List Char × Attribute)} (h : Clear as) : Spaced as := fun p hp =>
  have hclear := h p hp
  ⟨hclear.1, List.all_eq_true.2 fun c hc => isBlank_of_isPlainBlank (hclear.2.1 c hc), hclear.2.2.1⟩

theorem spacedText_cons (p : List Char × Attribute) (as : List (List Char × Attribute)) :
    spacedText (p :: as) = p.1 ++ (p.2.text ++ spacedText as) := by
  simp [spacedText]

theorem Clear.head {as : List (List Char × Attribute)} (h : Clear as) :
    ∀ c ∈ (spacedText as).head?, isPlainBlank c = true := by
  cases as with
  | nil => simp [spacedText]
  | cons p as =>
    obtain ⟨hne, hgap, -⟩ := h p List.mem_cons_self
    intro c hc
    rw [spacedText_cons, List.head?_append_of_ne_nil _ hne] at hc
    exact hgap c (List.mem_of_mem_head? hc)

theorem all_spacedText {as : List (List Char × Attribute)} (h : Clear as) :
    Attribute.all (spacedText as) = as.map Prod.snd := by
  induction as with
  | nil => rfl
  | cons p as ih =>
    obtain ⟨-, hgap, hwell, -⟩ := h p List.mem_cons_self
    have has : Clear as := fun q hq => h q (List.mem_cons_of_mem p hq)
    rw [spacedText_cons, Attribute.all_plainBlank_append hgap,
      Attribute.all_text_append hwell has.head, ih has]
    rfl

theorem words_spacedText {as : List (List Char × Attribute)} (h : Spaced as) :
    words (spacedText as) = as.flatMap fun p => words p.2.text := by
  induction as with
  | nil => rfl
  | cons p as ih =>
    obtain ⟨-, hblank, -⟩ := h p List.mem_cons_self
    have has : Spaced as := fun q hq => h q (List.mem_cons_of_mem p hq)
    rw [spacedText_cons, Text.words_allBlank_append hblank, List.flatMap_cons, ← ih has]
    cases as with
    | nil => simp [spacedText, Text.words_nil]
    | cons q qs =>
      obtain ⟨hne, hblank', -⟩ := has q List.mem_cons_self
      refine Text.words_append_of_startsBlank ?_
      rw [spacedText_cons, Text.startsBlank_append hne]
      exact Text.startsBlank_of_allBlank hblank' hne

theorem normalize_spacedText {as : List (List Char × Attribute)} (h : Spaced as)
    (hs : ∀ p ∈ as, p.2.Solid) :
    Text.normalize (spacedText as) =
      joinWords ((as.map fun p => p.2.collapsed).map Attribute.text) := by
  have hgroups : ∀ g ∈ as.map fun p => words p.2.text, g ≠ [] := by
    intro g hg
    obtain ⟨p, hp, rfl⟩ := List.mem_map.1 hg
    exact Attribute.words_text_ne_nil (h p hp).2.2 (hs p hp)
  rw [Text.normalize, words_spacedText h, List.flatMap_def, Text.joinWords_flatten hgroups,
    List.map_map, List.map_map]
  exact congrArg joinWords (List.map_congr_left fun p hp =>
    Attribute.normalize_text (h p hp).2.2 (hs p hp))

/-- Attributes, each behind one space. -/
theorem spacedText_spaces {as : List Attribute} (h : as ≠ []) :
    spacedText (as.map fun a => ([' '], a)) = ' ' :: joinWords (as.map Attribute.text) := by
  induction as with
  | nil => exact absurd rfl h
  | cons a as ih =>
    cases as with
    | nil => simp [spacedText, joinWords]
    | cons b bs =>
      rw [List.map_cons, spacedText_cons, ih (by simp)]
      rfl

theorem clear_spaces {as : List Attribute} (h : ∀ a ∈ as, a.WellFormed ∧ a.Solid) :
    Clear (as.map fun a => ([' '], a)) := by
  intro p hp
  obtain ⟨a, ha, rfl⟩ := List.mem_map.1 hp
  exact ⟨by simp, List.forall_mem_singleton.2 (by decide), h a ha⟩

theorem collapsed_wellFormed {as : List (List Char × Attribute)} (h : Spaced as)
    (hs : ∀ p ∈ as, p.2.Solid) : ∀ a ∈ as.map fun p => p.2.collapsed, a.WellFormed ∧ a.Solid := by
  intro a ha
  obtain ⟨p, hp, rfl⟩ := List.mem_map.1 ha
  exact ⟨(h p hp).2.2.collapsed, (hs p hp).collapsed⟩

/-- The attributes found in the single-spaced form of an open tag's attributes are these, each with
its value in that form. -/
theorem all_normalize {as : List (List Char × Attribute)} (h : Spaced as)
    (hs : ∀ p ∈ as, p.2.Solid) :
    Attribute.all (Text.normalize (spacedText as)) = as.map fun p => p.2.collapsed := by
  rw [normalize_spacedText h hs]
  generalize hbs : (as.map fun p => p.2.collapsed) = bs
  cases bs with
  | nil => rfl
  | cons b bs =>
    have hclear := clear_spaces (hbs ▸ collapsed_wellFormed h hs)
    have hspace : ∀ c ∈ [' '], isPlainBlank c = true := List.forall_mem_singleton.2 (by decide)
    rw [← Attribute.all_plainBlank_append hspace, List.singleton_append,
      ← spacedText_spaces (by simp), all_spacedText hclear, List.map_map]
    exact List.map_id _

theorem map_text_all_normalize {as : List (List Char × Attribute)} (h : Spaced as)
    (hp : PlainBlanks (spacedText as)) :
    (Attribute.all (Text.normalize (spacedText as))).map Attribute.text =
      as.map fun p => Text.normalize p.2.text := by
  have hs : ∀ p ∈ as, p.2.Solid := fun p hp' => (h p hp').2.2.solid (hp.of_subset fun c hc =>
    List.mem_flatMap.2 ⟨p, hp', List.mem_append_right _ hc⟩)
  rw [all_normalize h hs, List.map_map]
  exact List.map_congr_left fun p hp' => (Attribute.normalize_text (h p hp').2.2 (hs p hp')).symm

end Token

end ErbLayout.Markup
