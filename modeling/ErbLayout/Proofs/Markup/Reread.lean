import ErbLayout.Proofs.Markup.Alike
/-!
Where no white space stands within the names and bare values of an open tag, that between them is
ASCII, and the tag can be read in one way only: as it was written.
-/

namespace ErbLayout.Markup

open Text (allBlank startsBlank)

theorem isPlainBlank_of_not_isNameChar {c : Char} (hb : isBlank c = true)
    (hn : isNameChar c = false) : isPlainBlank c = true := by
  simp only [isNameChar, Bool.not_eq_false', Bool.or_eq_true, beq_iff_eq] at hn
  rcases hn with (((((((((rfl | rfl) | rfl) | rfl) | rfl) | rfl) | rfl) | rfl) | rfl) | rfl) | rfl <;>
    first | decide | exact absurd hb (by decide)

namespace Attribute

section Solid

theorem mem_dropSlashes {run : List Char} {c : Char} (hc : c ∈ run) (hslash : c ≠ '/') :
    c ∈ dropSlashes run := by
  obtain ⟨u, hu, hall⟩ := dropSlashes_append run
  rw [hu] at hc
  exact (List.mem_append.1 hc).resolve_right fun hmem => hslash (hall c hmem)

theorem exists_readAny {s : List Char} {c : Char} (hc : c ∈ (nameRun s).1) (hslash : c ≠ '/') :
    ∃ a, readAny s = some a := by
  unfold readAny
  split
  · exact ⟨_, rfl⟩
  · split
    · exact ⟨_, rfl⟩
    · split
      · exact ⟨_, rfl⟩
      · unfold readName
        split
        · rename_i hnil
          have hmem := mem_dropSlashes hc hslash
          rw [hnil] at hmem
          simp at hmem
        · exact ⟨_, rfl⟩

/-- The name characters that a text begins with stand outside quotes in its first attribute. -/
theorem mem_unquoted_of_readAny {a : Attribute} {s : List Char} (h : readAny s = some a) {c : Char}
    (hc : c ∈ (nameRun s).1) (hslash : c ≠ '/') : c ∈ a.unquoted := by
  have hquoted {q : Quote} {b : Attribute} {r : List Char} (hq : readQuoted q s = some (b, r)) :
      c ∈ b.unquoted := by
    obtain ⟨n, v, rfl, hrun, -⟩ := readQuoted_of_some hq
    rwa [hrun] at hc
  unfold readAny at h
  split at h
  · rename_i hq
    exact Option.some.inj h ▸ hquoted hq
  · split at h
    · rename_i hq
      exact Option.some.inj h ▸ hquoted hq
    · split at h
      · rename_i hb
        obtain rfl := Option.some.inj h
        obtain ⟨n, r, hrun, -, -, -, rfl⟩ := readBare_of_some hb
        rw [hrun] at hc
        exact List.mem_append_left _ hc
      · unfold readName at h
        split at h
        · simp at h
        · obtain rfl := Option.some.inj h
          exact mem_dropSlashes hc hslash

theorem mem_all_of_readAny {a : Attribute} {s : List Char} (h : readAny s = some a) : a ∈ all s := by
  obtain ⟨rest, hs⟩ := starts_of_readAny h
  rw [all_of_starts h hs]
  exact List.mem_cons_self

theorem solid_nameRun {s : List Char} (hs : ∀ a ∈ all s, a.Solid) :
    ∀ c ∈ (nameRun s).1, isBlank c = false := by
  intro c hc
  by_cases hslash : c = '/'
  · subst hslash
    decide
  · obtain ⟨a, ha⟩ := exists_readAny hc hslash
    exact hs a (mem_all_of_readAny ha) c (mem_unquoted_of_readAny ha hc hslash)

theorem isNameChar_of_not_isPlainBlank {c : Char} (hb : isBlank c = true)
    (hp : ¬ isPlainBlank c = true) : isNameChar c = true := by
  by_contra hn
  exact hp (isPlainBlank_of_not_isNameChar hb (by simpa using hn))

theorem mem_nameRun {n : List Char} (hn : ∀ c ∈ n, isNameChar c = true) {c : Char}
    (hc : isNameChar c = true) (r : List Char) : c ∈ (nameRun (n ++ c :: r)).1 := by
  rw [nameRun, List.span_eq_takeWhile_dropWhile, List.takeWhile_append_of_pos hn,
    List.takeWhile_cons_of_pos hc]
  simp

/-- Where the attributes are solid, the white space before them is ASCII. -/
theorem plain_of_all {g x : List Char} (hg : allBlank g = true)
    (hs : ∀ a ∈ all (g ++ x), a.Solid) : ∀ c ∈ g, isPlainBlank c = true := by
  induction g with
  | nil => simp
  | cons c g ih =>
    simp only [allBlank, List.all_cons, Bool.and_eq_true] at hg
    have hc : isPlainBlank c = true := by
      by_contra hp
      have hsolid := solid_nameRun hs c
        (mem_nameRun (n := []) (by simp) (isNameChar_of_not_isPlainBlank hg.1 hp) (g ++ x))
      rw [hg.1] at hsolid
      exact absurd hsolid (by simp)
    rw [List.cons_append, all_of_none (readAny_plainBlank hc _)] at hs
    exact List.forall_mem_cons.2 ⟨hc, ih hg.2 hs⟩

/-- Where the attributes are solid, each ends where white space follows it. -/
theorem all_of_solid {a : Attribute} (h : a.WellFormed) {rest : List Char}
    (hrest : ∀ c ∈ rest.head?, isBlank c = true) (hs : ∀ b ∈ all (a.text ++ rest), b.Solid) :
    all (a.text ++ rest) = a :: all rest := by
  by_cases hp : ∀ c ∈ rest.head?, isPlainBlank c = true
  · exact all_text_append h hp
  · obtain ⟨c, r, rfl, hc⟩ : ∃ c r, rest = c :: r ∧ ¬ isPlainBlank c = true := by
      cases rest with
      | nil => simp at hp
      | cons c r => exact ⟨c, r, rfl, by simpa using hp⟩
    have hblank : isBlank c = true := hrest c rfl
    have hname := isNameChar_of_not_isPlainBlank hblank hc
    have hodd (hsolid : isBlank c = false) : False := by simp [hblank] at hsolid
    cases a with
    | name n => exact (hodd (solid_nameRun hs c (mem_nameRun h.nameChars hname r))).elim
    | bare n v =>
      have hslash : c ≠ '/' := by
        rintro rfl
        exact absurd hblank (by decide)
      have hmem := mem_dropSlashes (mem_nameRun h.2.nameChars hname r) hslash
      have hread := readAny_equals h.1 (fun q y => h.2.ne_mark q (c :: r) y)
        (List.ne_nil_of_mem hmem)
      have htext : text (.bare n v) ++ c :: r = n ++ '=' :: (v ++ c :: r) := by simp [text]
      rw [← htext] at hread
      exact (hodd (hs _ (mem_all_of_readAny hread) c (List.mem_append_right n hmem))).elim
    | quoted n q v =>
      have hread := readAny_quoted h.1 h.2 (c :: r)
      exact all_of_readAny (by simpa [text] using hread) (text_ne_nil h)

end Solid

/-- A character of names that is no white space. -/
def isSolidChar (c : Char) : Bool := isNameChar c && !isBlank c

/-- What stops a run of `p`: its end, another character, or a slash that belongs to the end of a
tag. -/
def Stops (p : Char → Bool) (s : List Char) : Prop :=
  (∀ c ∈ s.head?, p c = false) ∨ ∃ r, s = '/' :: '>' :: r

/-- What stands behind an attribute: white space of a kind, or the end of the tag. -/
def Behind (p : Char → Bool) (s : List Char) : Prop :=
  (∃ c r, s = c :: r ∧ (p c = true ∨ c = '>')) ∨ ∃ r, s = '/' :: '>' :: r

theorem Behind.stops {p q : Char → Bool} {s : List Char} (h : Behind p s)
    (hp : ∀ c, p c = true → q c = false) (hq : q '>' = false) : Stops q s := by
  rcases h with ⟨c, r, rfl, hc | rfl⟩ | ⟨r, rfl⟩
  · exact .inl (by simpa using hp c hc)
  · exact .inl (by simpa using hq)
  · exact .inr ⟨r, rfl⟩

theorem Behind.ne_equals {p : Char → Bool} {s : List Char} (h : Behind p s) (hp : p '=' = false) :
    ∀ r, s ≠ '=' :: r := by
  rintro r rfl
  rcases h with ⟨c, r, he, hc⟩ | ⟨r, he⟩
  · obtain rfl := (List.cons.inj he).1
    rcases hc with hc | hc
    · rw [hp] at hc
      exact absurd hc (by simp)
    · exact absurd hc (by decide)
  · exact absurd (List.cons.inj he).1 (by decide)

theorem Behind.stops_name {s : List Char} (h : Behind isPlainBlank s) : Stops isNameChar s :=
  h.stops (fun _ => isNameChar_of_isPlainBlank) (by decide)

theorem Behind.stops_solid {s : List Char} (h : Behind isBlank s) : Stops isSolidChar s :=
  h.stops (fun c hc => by simp [isSolidChar, hc]) (by decide)

theorem stops_equals {p : Char → Bool} (hp : p '=' = false) (s : List Char) :
    Stops p ('=' :: s) := .inl (by simpa using hp)

/-- A run that goes on where it is stopped goes on with nothing. -/
theorem eq_nil_of_stops {p : Char → Bool} {z x : List Char} (hp : p '>' = false)
    (hz : ∀ c ∈ z, p c = true) (hlast : endsWithSlash z = false) (h : Stops p (z ++ x)) : z = [] := by
  cases z with
  | nil => rfl
  | cons c z =>
    rcases h with h | ⟨r, hr⟩
    · have hc := hz c List.mem_cons_self
      rw [h c rfl] at hc
      exact absurd hc (by simp)
    · obtain ⟨rfl, hlater⟩ := List.cons.inj hr
      cases z with
      | nil => exact absurd hlast (by decide)
      | cons d z =>
        obtain rfl := (List.cons.inj hlater).1
        have hd := hz '>' (by simp)
        rw [hp] at hd
        exact absurd hd (by simp)

theorem endsWithSlash_append (n : List Char) {z : List Char} (h : z ≠ []) :
    endsWithSlash (n ++ z) = endsWithSlash z := by
  rw [endsWithSlash, endsWithSlash, List.getLast?_append_of_ne_nil _ h]

theorem endsWithSlash_right {n z : List Char} (h : endsWithSlash (n ++ z) = false) :
    endsWithSlash z = false := by
  by_cases hz : z = []
  · subst hz
    rfl
  · rwa [endsWithSlash_append n hz] at h

theorem Bare.not_stops {n : List Char} (h : Bare n) (x : List Char) :
    ¬ Stops isNameChar (n ++ x) := fun hs =>
  h.ne_nil (eq_nil_of_stops (by decide) h.nameChars h.noSlash hs)

/-- A text begins with one name only, when it is solid and what follows it is not. -/
theorem Bare.cut {n m x y : List Char} (hn : Bare n) (hs : ∀ c ∈ n, isBlank c = false) (hm : Bare m)
    (hx : Stops isNameChar x) (hy : Stops isSolidChar y) (h : n ++ x = m ++ y) : n = m ∧ x = y := by
  rcases List.append_eq_append_iff.1 h with ⟨z, rfl, rfl⟩ | ⟨z, rfl, rfl⟩
  · obtain rfl := eq_nil_of_stops (by decide)
      (fun c hc => hm.nameChars c (List.mem_append_right n hc)) (endsWithSlash_right hm.noSlash) hx
    exact ⟨(List.append_nil n).symm, rfl⟩
  · have hz : ∀ c ∈ z, isSolidChar c = true := fun c hc => by
      have hmem := List.mem_append_right m hc
      simp [isSolidChar, hn.nameChars c hmem, hs c hmem]
    obtain rfl := eq_nil_of_stops (by decide) hz (endsWithSlash_right hn.noSlash) hy
    exact ⟨List.append_nil m, rfl⟩

/-- The text of an attribute behind its name. -/
def rest : Attribute → List Char
  | .name _ => []
  | .bare _ v => '=' :: v
  | .quoted _ q v => '=' :: q.mark :: (v ++ [q.mark])

theorem text_eq (a : Attribute) : a.text = a.label ++ a.rest := by
  cases a <;> simp [text, label, rest]

theorem WellFormed.label {a : Attribute} (h : a.WellFormed) : Bare a.label := by
  cases a with
  | name n => exact h
  | bare n v => exact h.1
  | quoted n q v => exact h.1

theorem Solid.label {a : Attribute} (h : a.Solid) : ∀ c ∈ a.label, isBlank c = false := by
  cases a with
  | name n => exact h
  | bare n v => exact fun c hc => h c (List.mem_append_left v hc)
  | quoted n q v => exact h

theorem stops_rest {p : Char → Bool} (hp : p '=' = false) {x : List Char} (hx : Stops p x)
    (a : Attribute) : Stops p (a.rest ++ x) := by
  cases a with
  | name n => exact hx
  | bare n v => exact stops_equals hp _
  | quoted n q v => exact stops_equals hp _

theorem mark_injective {q q' : Quote} (h : q.mark = q'.mark) : q = q' := by
  cases q <;> cases q' <;> first | rfl | exact absurd h (by decide)

theorem quote_cut {q : Quote} {v v' x y : List Char} (hv : q.mark ∉ v) (hv' : q.mark ∉ v')
    (h : v ++ q.mark :: x = v' ++ q.mark :: y) : v = v' ∧ x = y := by
  have hclose := closeQuote_append hv x
  rw [h, closeQuote_append hv' y, Option.some.injEq, Prod.mk.injEq] at hclose
  exact ⟨hclose.1.symm, hclose.2.symm⟩

/-- A text begins with one attribute only, when that is solid and what follows it is no name. -/
theorem text_cut {a b : Attribute} {x y : List Char} (ha : a.WellFormed) (hs : a.Solid)
    (hb : b.WellFormed) (hx : Behind isPlainBlank x) (hy : Behind isBlank y)
    (h : a.text ++ x = b.text ++ y) : a = b ∧ x = y := by
  rw [text_eq, text_eq, List.append_assoc, List.append_assoc] at h
  obtain ⟨hlabel, hrest⟩ := ha.label.cut hs.label hb.label
    (stops_rest (by decide) hx.stops_name a) (stops_rest (by decide) hy.stops_solid b) h
  have hxe := hx.ne_equals (by decide)
  have hye := hy.ne_equals (by decide)
  cases a with
  | name n =>
    cases b with
    | name m => exact ⟨congrArg name hlabel, hrest⟩
    | bare m w => exact absurd hrest (hxe _)
    | quoted m q w => exact absurd hrest (hxe _)
  | bare n v =>
    cases b with
    | name m => exact absurd hrest.symm (hye _)
    | bare m w =>
      obtain ⟨hv, hxy⟩ := ha.2.cut (fun c hc => hs c (List.mem_append_right n hc)) hb.2 hx.stops_name
        hy.stops_solid (List.cons.inj hrest).2
      exact ⟨congrArg₂ bare hlabel hv, hxy⟩
    | quoted m q w => exact absurd (List.cons.inj hrest).2 (ha.2.ne_mark q x _)
  | quoted n q v =>
    cases b with
    | name m => exact absurd hrest.symm (hye _)
    | bare m w => exact absurd (List.cons.inj hrest).2.symm (hb.2.ne_mark q y _)
    | quoted m q' w =>
      obtain ⟨hmark, hrest⟩ := List.cons.inj (List.cons.inj hrest).2
      obtain rfl := mark_injective hmark
      obtain ⟨hv, hxy⟩ := quote_cut (x := x) (y := y) ha.2 hb.2 (by simpa using hrest)
      exact ⟨by rw [show n = m from hlabel, hv], hxy⟩

end Attribute

namespace Token

open Attribute (Behind Solid Stops WellFormed)

theorem head_spacedText {as : List (List Char × Attribute)} (h : Spaced as) :
    ∀ c ∈ (spacedText as).head?, isBlank c = true := by
  cases as with
  | nil => simp [spacedText]
  | cons p as =>
    obtain ⟨hne, hgap, -⟩ := h p List.mem_cons_self
    intro c hc
    rw [spacedText_cons, List.head?_append_of_ne_nil _ hne] at hc
    exact List.all_eq_true.1 hgap c (List.mem_of_mem_head? hc)

/-- Attributes that an open tag was read with are clear when those found in their text are solid. -/
theorem clear_of_all {as : List (List Char × Attribute)} (h : Spaced as)
    (hs : ∀ a ∈ Attribute.all (spacedText as), a.Solid) : Clear as := by
  induction as with
  | nil => simp [Clear]
  | cons p as ih =>
    obtain ⟨hne, hblank, hwell⟩ := h p List.mem_cons_self
    have has : Spaced as := fun q hq => h q (List.mem_cons_of_mem p hq)
    rw [spacedText_cons] at hs
    have hplain := Attribute.plain_of_all hblank hs
    rw [Attribute.all_plainBlank_append hplain] at hs
    rw [Attribute.all_of_solid hwell (head_spacedText has) hs, List.forall_mem_cons] at hs
    exact List.forall_mem_cons.2 ⟨⟨hne, hplain, hwell, hs.1⟩, ih has hs.2⟩

theorem behind_closing {p : Char → Bool} (closing : Closing) (rest : List Char) :
    Behind p (closing.text ++ rest) := by
  cases closing with
  | plain => exact .inl ⟨'>', rest, rfl, .inr rfl⟩
  | slash => exact .inr ⟨rest, rfl⟩

theorem behind_append {p : Char → Bool} {g s : List Char} (hg : ∀ c ∈ g, p c = true)
    (hs : Behind p s) : Behind p (g ++ s) := by
  cases g with
  | nil => exact hs
  | cons c g => exact .inl ⟨c, g ++ s, rfl, .inl (hg c List.mem_cons_self)⟩

theorem behind_spacedText {p : Char → Bool} {as : List (List Char × Attribute)} {s : List Char}
    (has : ∀ q ∈ as, q.1 ≠ [] ∧ ∀ c ∈ q.1, p c = true) (hs : Behind p s) :
    Behind p (spacedText as ++ s) := by
  cases as with
  | nil => exact hs
  | cons q as =>
    obtain ⟨hne, hq⟩ := has q List.mem_cons_self
    obtain ⟨c, g, hcons⟩ := List.exists_cons_of_ne_nil hne
    rw [hcons] at hq
    rw [spacedText_cons, hcons]
    exact .inl ⟨c, _, rfl, .inl (hq c List.mem_cons_self)⟩

theorem not_isWord_of_isPlainBlank {c : Char} (h : isPlainBlank c = true) : isWord c = false := by
  simp only [isPlainBlank, Bool.or_eq_true, beq_iff_eq] at h
  rcases h with ((((rfl | rfl) | rfl) | rfl) | rfl) | rfl <;> decide

theorem span_name {name s : List Char} (hname : ∀ c ∈ name, isWord c = true)
    (hs : Behind isPlainBlank s) : (name ++ s).span isWord = (name, s) := by
  have hstop : ∀ c ∈ s.head?, isWord c = false := by
    rcases hs with ⟨c, r, rfl, hc | rfl⟩ | ⟨r, rfl⟩
    · simpa using not_isWord_of_isPlainBlank hc
    · simp only [List.head?_cons, Option.mem_def, Option.some.injEq, forall_eq']
      decide
    · simp only [List.head?_cons, Option.mem_def, Option.some.injEq, forall_eq']
      decide
  obtain ⟨htake, hdrop⟩ := Placeholder.span_append hname hstop
  rw [List.span_eq_takeWhile_dropWhile, htake, hdrop]

/-- White space of a kind is cut off where neither side goes on. -/
theorem blanks_cut {g g' s s' : List Char} (hg : ∀ c ∈ g, isPlainBlank c = true)
    (hs : startsBlank s = false) (hg' : allBlank g' = true)
    (hs' : ∀ c ∈ s'.head?, isPlainBlank c = false) (h : g ++ s = g' ++ s') : g = g' ∧ s = s' := by
  rcases List.append_eq_append_iff.1 h with ⟨z, rfl, rfl⟩ | ⟨z, rfl, rfl⟩
  · cases z with
    | nil => exact ⟨(List.append_nil g).symm, rfl⟩
    | cons c z =>
      rw [List.cons_append, startsBlank,
        List.all_eq_true.1 hg' c (List.mem_append_right g List.mem_cons_self)] at hs
      exact absurd hs (by simp)
  · cases z with
    | nil => exact ⟨List.append_nil g', rfl⟩
    | cons c z =>
      have hc := hg c (List.mem_append_right g' List.mem_cons_self)
      rw [hs' c rfl] at hc
      exact absurd hc (by simp)

theorem startsBlank_text {a : Attribute} (h : a.WellFormed) (hs : a.Solid) (x : List Char) :
    startsBlank (a.text ++ x) = false := by
  obtain ⟨c, n, hn⟩ := List.exists_cons_of_ne_nil h.label.ne_nil
  have hc := hs.label c (hn ▸ List.mem_cons_self)
  rw [Attribute.text_eq, hn]
  exact hc

theorem head_text {a : Attribute} (h : a.WellFormed) (x : List Char) :
    ∀ c ∈ (a.text ++ x).head?, isPlainBlank c = false := by
  obtain ⟨c, n, hn⟩ := List.exists_cons_of_ne_nil h.label.ne_nil
  have hc := h.label.nameChars c (hn ▸ List.mem_cons_self)
  rw [Attribute.text_eq, hn]
  intro d hd
  obtain rfl : c = d := by simpa using hd
  cases hp : isPlainBlank c with
  | false => rfl
  | true =>
    rw [isNameChar_of_isPlainBlank hp] at hc
    exact absurd hc (by simp)

theorem startsBlank_closing (closing : Closing) (x : List Char) :
    startsBlank (closing.text ++ x) = false := by
  cases closing <;> rfl

theorem head_closing (closing : Closing) (x : List Char) :
    ∀ c ∈ (closing.text ++ x).head?, isPlainBlank c = false := by
  cases closing <;> simp [Closing.text, isPlainBlank]

theorem closing_ne_text {b : Attribute} (hb : b.WellFormed) (closing : Closing) (x y : List Char) :
    closing.text ++ x ≠ b.text ++ y := by
  intro he
  have hbehind : Behind isPlainBlank (closing.text ++ x) := behind_closing closing x
  rw [he, Attribute.text_eq, List.append_assoc] at hbehind
  exact hb.label.not_stops _ hbehind.stops_name

/-- Two readings of one open tag agree when one of them is clear. -/
theorem Clear.unique {as bs : List (List Char × Attribute)} {gap gap' x x' : List Char}
    {closing closing' : Closing} (has : Clear as) (hgap : ∀ c ∈ gap, isPlainBlank c = true)
    (hbs : Spaced bs) (hgap' : allBlank gap' = true)
    (h : spacedText as ++ (gap ++ (closing.text ++ x)) =
      spacedText bs ++ (gap' ++ (closing'.text ++ x'))) :
    as = bs ∧ gap = gap' ∧ closing = closing' := by
  induction as generalizing bs with
  | nil =>
    cases bs with
    | nil =>
      obtain ⟨rfl, hclosing⟩ := blanks_cut hgap (startsBlank_closing closing x) hgap'
        (head_closing closing' x') h
      refine ⟨rfl, rfl, ?_⟩
      cases closing <;> cases closing' <;> first | rfl | simp [Closing.text] at hclosing
    | cons b bs =>
      obtain ⟨-, hblank, hwell⟩ := hbs b List.mem_cons_self
      rw [spacedText_cons, List.append_assoc, List.append_assoc] at h
      obtain ⟨-, htext⟩ := blanks_cut hgap (startsBlank_closing closing x) hblank
        (head_text hwell _) h
      exact absurd htext (closing_ne_text hwell closing x _)
  | cons a as ih =>
    obtain ⟨-, hplain, hwell, hsolid⟩ := has a List.mem_cons_self
    have has' : Clear as := fun q hq => has q (List.mem_cons_of_mem a hq)
    rw [spacedText_cons, List.append_assoc, List.append_assoc] at h
    cases bs with
    | nil =>
      obtain ⟨-, htext⟩ := blanks_cut hplain (startsBlank_text hwell hsolid _) hgap'
        (head_closing closing' x') h
      exact absurd htext.symm (closing_ne_text hwell closing' x' _)
    | cons b bs =>
      obtain ⟨-, hblank, hwell'⟩ := hbs b List.mem_cons_self
      have hbs' : Spaced bs := fun q hq => hbs q (List.mem_cons_of_mem b hq)
      rw [spacedText_cons, List.append_assoc, List.append_assoc] at h
      obtain ⟨hfst, htext⟩ := blanks_cut hplain (startsBlank_text hwell hsolid _) hblank
        (head_text hwell' _) h
      obtain ⟨hsnd, hlater⟩ := Attribute.text_cut hwell hsolid hwell'
        (behind_spacedText (fun q hq => ⟨(has' q hq).1, (has' q hq).2.1⟩)
          (behind_append hgap (behind_closing closing x)))
        (behind_spacedText (fun q hq => ⟨(hbs' q hq).1, List.all_eq_true.1 (hbs' q hq).2.1⟩)
          (behind_append (List.all_eq_true.1 hgap') (behind_closing closing' x'))) htext
      obtain ⟨rfl, hrest⟩ := ih has' hbs' hlater
      exact ⟨by rw [Prod.ext hfst hsnd], hrest⟩

section Search

theorem mem_divisions_append {a : List Char} (ha : a ≠ []) (b : List Char) :
    (a, b) ∈ divisions (a ++ b) := by
  induction a with
  | nil => exact absurd rfl ha
  | cons c a ih =>
    rw [List.cons_append, divisions, List.mem_append]
    by_cases hnil : a = []
    · subst hnil
      exact .inr (by simp)
    · exact .inl (List.mem_map.2 ⟨(a, b), ih hnil, rfl⟩)

theorem mem_runs_append {p : Char → Bool} {a : List Char} (ha : a ≠ [])
    (hp : ∀ c ∈ a, p c = true) (y : List Char) : (a, y) ∈ runs p (a ++ y) := by
  unfold runs
  rw [List.span_eq_takeWhile_dropWhile, List.takeWhile_append_of_pos hp,
    List.dropWhile_append_of_pos hp]
  exact List.mem_map.2 ⟨(a, y.takeWhile p), mem_divisions_append ha _,
    Prod.ext rfl List.takeWhile_append_dropWhile⟩

theorem mem_nameRuns_append {n : List Char} (h : Attribute.Bare n) (y : List Char) :
    (n, y) ∈ nameRuns (n ++ y) :=
  List.mem_filter.2 ⟨mem_runs_append h.ne_nil h.nameChars y, by simp [h.noSlash]⟩

theorem mem_spacedRuns {read : List Char → List (List Char × List Char)} {g a y : List Char}
    (hne : g ≠ []) (hg : allBlank g = true) (h : (a, y) ∈ read (a ++ y)) :
    (g ++ a, y) ∈ spacedRuns read (g ++ (a ++ y)) :=
  List.mem_flatMap.2 ⟨(g, a ++ y), mem_runs_append hne (List.all_eq_true.1 hg) _,
    List.mem_map.2 ⟨(a, y), h, rfl⟩⟩

/-- Among the ways to begin a text with white space and an attribute is each that there is. -/
theorem mem_attributeRuns_append {g : List Char} {a : Attribute} (hne : g ≠ [])
    (hg : allBlank g = true) (ha : a.WellFormed) (y : List Char) :
    (g ++ a.text, y) ∈ attributeRuns (g ++ (a.text ++ y)) := by
  rw [attributeRuns_eq]
  cases a with
  | name n => exact List.mem_append_right _ (mem_spacedRuns hne hg (mem_nameRuns_append ha y))
  | bare n v =>
    refine List.mem_append_left _ (List.mem_append_right _ (mem_spacedRuns hne hg ?_))
    have hrun : Attribute.nameRun (n ++ '=' :: (v ++ y)) = (n, '=' :: (v ++ y)) :=
      Attribute.nameRun_append ha.1.nameChars (by simp; decide)
    rw [Attribute.text, List.append_assoc, List.cons_append, bareRuns_of_nameRun hrun,
      ha.1.name_test.1, ha.1.name_test.2]
    exact List.mem_map.2 ⟨(v, y), mem_nameRuns_append ha.2 y, rfl⟩
  | quoted n q v =>
    have hrun : Attribute.nameRun (n ++ '=' :: q.mark :: (v ++ q.mark :: y)) =
        (n, '=' :: q.mark :: (v ++ q.mark :: y)) :=
      Attribute.nameRun_append ha.1.nameChars (by simp; decide)
    have hmem : (Attribute.text (.quoted n q v), y) ∈
        quotedRuns q (Attribute.text (.quoted n q v) ++ y) := by
      have htext : Attribute.text (.quoted n q v) ++ y =
          n ++ '=' :: q.mark :: (v ++ q.mark :: y) := by simp [Attribute.text]
      rw [quotedRuns, htext, Attribute.readQuoted_of_nameRun hrun, ha.1.name_test.1,
        ha.1.name_test.2, Attribute.closeQuote_append ha.2]
      simp
    cases q with
    | single =>
      exact List.mem_append_left _ (List.mem_append_left _ (List.mem_append_left _
        (mem_spacedRuns hne hg hmem)))
    | double =>
      exact List.mem_append_left _ (List.mem_append_left _ (List.mem_append_right _
        (mem_spacedRuns hne hg hmem)))

theorem exists_readAttributes {as : List (List Char × Attribute)} (has : Spaced as)
    {gap : List Char} (hgap : allBlank gap = true) (closing : Closing) (x : List Char) {fuel : Nat}
    (hfuel : as.length < fuel) :
    ∃ found, readAttributes fuel (spacedText as ++ (gap ++ (closing.text ++ x))) = some found := by
  induction as generalizing fuel with
  | nil =>
    obtain ⟨fuel, rfl⟩ := Nat.exists_eq_add_of_lt hfuel
    rw [readAttributes]
    split
    · exact ⟨_, rfl⟩
    · have hclosing : readClosing (gap ++ closing.text ++ x) = some (gap, closing) :=
        readClosing_of_span hgap
      rw [List.append_assoc] at hclosing
      exact ⟨([], gap, closing), by rw [spacedText, List.flatMap_nil, List.nil_append, hclosing]; rfl⟩
  | cons a as ih =>
    obtain ⟨fuel, rfl⟩ : ∃ k, fuel = k + 1 := ⟨fuel - 1, by omega⟩
    obtain ⟨hne, hblank, hwell⟩ := has a List.mem_cons_self
    have hlater : as.length < fuel := by simpa using hfuel
    obtain ⟨found, hfound⟩ := ih (fun q hq => has q (List.mem_cons_of_mem a hq)) hlater
    rw [readAttributes]
    split
    · exact ⟨_, rfl⟩
    · rename_i hnone
      rw [spacedText_cons, List.append_assoc, List.append_assoc, List.findSome?_eq_none_iff] at hnone
      have hstep := hnone _ (mem_attributeRuns_append hne hblank hwell _)
      dsimp only at hstep
      rw [hfound] at hstep
      exact absurd hstep (by simp)

end Search

theorem length_le_spacedText {as : List (List Char × Attribute)} (h : Spaced as) :
    as.length ≤ (spacedText as).length := by
  induction as with
  | nil => exact Nat.le_refl _
  | cons a as ih =>
    have hpos := List.length_pos_iff.2 (h a List.mem_cons_self).1
    have hle := ih fun q hq => h q (List.mem_cons_of_mem a hq)
    rw [spacedText_cons, List.length_append, List.length_append, List.length_cons]
    omega

/-- A clear open tag is read as it was written, whatever follows it. -/
theorem readAny_clear {name gap : List Char} {as : List (List Char × Attribute)} (hne : name ≠ [])
    (hname : ∀ c ∈ name, isWord c = true) (has : Clear as)
    (hgap : ∀ c ∈ gap, isPlainBlank c = true) (closing : Closing) (x : List Char) :
    let tag := '<' :: name ++ spacedText as ++ gap ++ closing.text
    readAny (tag ++ x) = some (.opening tag name (spacedText as) closing) := by
  intro tag
  have hblank : allBlank gap = true :=
    List.all_eq_true.2 fun c hc => isBlank_of_isPlainBlank (hgap c hc)
  obtain ⟨c, n, rfl⟩ := List.exists_cons_of_ne_nil hne
  have hc := hname c List.mem_cons_self
  have htag : tag ++ x = '<' :: (c :: n ++ (spacedText as ++ (gap ++ (closing.text ++ x)))) := by
    simp [tag]
  have hcomment : readComment (tag ++ x) = none := by
    rw [htag, List.cons_append]
    unfold readComment
    split
    · rename_i he
      obtain rfl := (List.cons.inj (List.cons.inj he).2).1
      exact absurd hc (by decide)
    · rename_i he
      obtain rfl := (List.cons.inj (List.cons.inj he).2).1
      exact absurd hc (by decide)
    · rfl
  have hclose : readClose (tag ++ x) = none := by
    rw [htag, List.cons_append]
    unfold readClose
    split
    · rename_i he
      obtain rfl := (List.cons.inj (List.cons.inj he).2).1
      exact absurd hc (by decide)
    · rfl
  have hspan : (c :: n ++ (spacedText as ++ (gap ++ (closing.text ++ x)))).span isWord =
      (c :: n, spacedText as ++ (gap ++ (closing.text ++ x))) :=
    span_name hname (behind_spacedText (fun q hq => ⟨(has q hq).1, (has q hq).2.1⟩)
      (behind_append hgap (behind_closing closing x)))
  have hfuel : as.length < (spacedText as ++ (gap ++ (closing.text ++ x))).length + 1 := by
    have hle := length_le_spacedText has.spaced
    rw [List.length_append]
    omega
  obtain ⟨⟨attrs, gap', closing'⟩, hread⟩ := exists_readAttributes has.spaced hblank closing x hfuel
  obtain ⟨⟨bs, rfl, hbs⟩, hgap', x', hx'⟩ := readAttributes_eq_some hread
  have hsame : spacedText as ++ (gap ++ (closing.text ++ x)) =
      spacedText bs ++ (gap' ++ (closing'.text ++ x')) := by simpa using hx'.symm
  obtain ⟨rfl, rfl, rfl⟩ := has.unique hgap hbs hgap' hsame
  rw [readAny, hcomment, hclose, htag]
  dsimp only
  rw [readOpening, hspan]
  dsimp only
  rw [hread]
  rfl

end Token

end ErbLayout.Markup
