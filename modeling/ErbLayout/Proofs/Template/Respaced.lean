import ErbLayout.Proofs.Template.Indentation
/-!
White space within elements. The layout treats all elements alike, those included in which white
space shows: it decides only whether white space stands between two units, and writes it in one form.
-/

namespace ErbLayout.Template

open Layout Markup Placeholder
open Text (allBlank)

/-- White space between two units in the form that a layout gives it at a depth: none, a space between
words, or a line break, perhaps behind blank lines, and the indentation of the depth. -/
def Regular (depth : Nat) (a b : Item) (g : List Char) : Prop :=
  g = [] ∨ (g = [' '] ∧ a.isWord = true ∧ b.isWord = true) ∨
    ∃ lines, Plain lines ∧ g = lines ++ '\n' :: Nesting.indentOf depth

/-- Neither unit is control flow, and they are not both markup of which one is block-level. -/
def Row.Inline (checker : Ruby.Checker) (a b : Row) : Prop :=
  a.item.isControl checker = false ∧ b.item.isControl checker = false ∧
    ¬ (a.item.isStructural = true ∧ b.item.isStructural = true ∧
      (a.item.isBlockLevel = true ∨ b.item.isBlockLevel = true))

section Rows

variable {checker : Ruby.Checker}

/-- White space neither comes nor goes between inline units. -/
theorem Row.Spaced.of_inline {a b : Row} (h : Row.Spaced checker a b)
    (hin : Row.Inline checker a b) : b.after.1 = [] ↔ b.before.1 = [] := by
  obtain ⟨ha, hb, hblock⟩ := hin
  rw [Row.Spaced, ha, hb] at h
  simpa [hblock] using not_congr h

/-- What stands within an element is deeper than the element. -/
theorem Partners.around_lt {pre mid m r : List Item} {a b i : Item} {name : List Char}
    (h : Partners checker pre mid a b) (ha : a.opens checker = some (.element name))
    (hi : ∀ o, i.ends checker = some o → (openedBy checker [] (pre ++ a :: m)).head? = some o)
    (he : mid = m ++ i :: r) : (a.around checker (openedBy checker [] pre)).length <
      (i.around checker (openedBy checker [] (pre ++ a :: m))).length := by
  have hbeyond : a.beyond checker (openedBy checker [] pre) =
      .element name :: a.around checker (openedBy checker [] pre) := by
    rw [Item.beyond, ha]
    rfl
  have hbefore := h.inside m ⟨i :: r, he.symm⟩
  have hbehind := h.inside (m ++ [i]) ⟨r, by rw [he, List.append_assoc]; rfl⟩
  have hlast : openedBy checker [] (pre ++ a :: (m ++ [i])) =
      i.beyond checker (openedBy checker [] (pre ++ a :: m)) := by
    rw [← List.cons_append, ← List.append_assoc, openedBy_append]
    rfl
  rw [hbeyond] at hbefore hbehind
  rw [hlast] at hbehind
  generalize openedBy checker [] (pre ++ a :: m) = stack at *
  suffices hsuffix : .element name :: a.around checker (openedBy checker [] pre) <:+
      i.around checker stack by
    exact hsuffix.length_le
  cases hends : i.ends checker with
  | none => simpa [Item.around, hends] using hbefore
  | some o =>
    have hhead := hi o hends
    cases hopens : i.opens checker with
    | none => simpa [Item.beyond, hopens] using hbehind
    | some o' =>
      -- What ends and opens something continues a block, and so it is no element that it ends.
      obtain rfl := Item.ends_eq_block hends hopens
      obtain ⟨stack', rfl⟩ := List.head?_eq_some_iff.1 hhead
      rcases List.suffix_cons_iff.1 hbefore with heq | hsuffix
      · simp at heq
      · simpa [Item.around, hends] using hsuffix

end Rows

section Drawn

variable {style : Style} {names : Names} {source t : List Char} {rows : List Row}

/-- All white space that a layout has between units is regular. -/
theorem Drawn.regular (h : Drawn style names source t rows)
    (hplain : ∀ row ∈ rows, Plain row.after.1) (hchain : rows.IsChain (Row.Follows style.checker))
    {pre post : List Row} {u row : Row} (he : rows = pre ++ u :: row :: post) :
    Regular (row.around style.checker (pre ++ [u])).length u.item row.item row.after.1 := by
  have hfits := h.fits (pre ++ [u]) row post (by simp [he])
  have hrow : Plain row.after.1 := hplain row (by simp [he])
  rw [he, List.isChain_append_cons_cons] at hchain
  have hspace := hchain.2.1.space
  have hmargin := hfits.margin
  generalize row.after.1 = g at hrow hspace hmargin
  cases hmargin with
  | none => exact .inl rfl
  | space => exact .inr (.inl ⟨rfl, hspace rfl⟩)
  | line => exact .inr (.inr ⟨_, fun c hc => hrow c (List.mem_append_left _ hc), rfl⟩)

theorem Drawn.head_of_ends (h : Drawn style names source t rows) {pre post : List Row} {row : Row}
    (he : rows = pre ++ row :: post) {o : Opened} (ho : row.item.ends style.checker = some o) :
    (openedBy style.checker [] (pre.map Row.item)).head? = some o := by
  have hmatched := h.matched
  rw [he, List.map_append, matched_append] at hmatched
  exact hmatched.2.1 o ho

end Drawn

/-- The body of an element in the layout: all white space in it is regular, and a line in it is
indented deeper than the element, but for the line of its close tag. Between two inline units white
space neither comes nor goes. -/
structure Respaced (checker : Ruby.Checker) (pre mid : List Row) (a b : Row) : Prop where
  inside : ∀ m u row r, a :: mid = m ++ u :: row :: r →
    ∃ d, (a.around checker pre).length < d ∧ Regular d u.item row.item row.after.1
  last : ∀ m u, a :: mid = m ++ [u] →
    Regular (a.around checker pre).length u.item b.item b.after.1
  inline : ∀ m u row r, a :: (mid ++ [b]) = m ++ u :: row :: r → Row.Inline checker u row →
    (row.after.1 = [] ↔ row.before.1 = [])

theorem Drawn.respaced {style : Style} {names : Names} {source t : List Char} {rows : List Row}
    (h : Drawn style names source t rows) (hplain : ∀ row ∈ rows, Plain row.after.1)
    (hchain : rows.IsChain (Row.Follows style.checker)) {pre mid post : List Row} {a b : Row}
    (he : rows = pre ++ a :: (mid ++ b :: post)) {name : List Char}
    (hopens : a.item.opens style.checker = some (.element name))
    (hpartners : Partners style.checker (pre.map Row.item) (mid.map Row.item) a.item b.item) :
    Respaced style.checker pre mid a b := by
  refine ⟨fun m u row r hm => ?_, fun m u hm => ?_, fun m u row r hm hin => ?_⟩
  · obtain ⟨m', hm', hmid⟩ : ∃ m', m ++ [u] = a :: m' ∧ mid = m' ++ row :: r := by
      cases m with
      | nil =>
        obtain ⟨rfl, rfl⟩ := List.cons.inj hm
        exact ⟨[], rfl, rfl⟩
      | cons x m =>
        obtain ⟨rfl, rfl⟩ := List.cons.inj hm
        exact ⟨m ++ [u], rfl, by simp⟩
    have hhere : rows = (pre ++ m) ++ u :: row :: (r ++ b :: post) := by
      rw [he, ← List.cons_append, hm]
      simp
    have hrow : rows = (pre ++ a :: m') ++ row :: (r ++ b :: post) := by
      rw [hhere, ← hm']
      simp
    have hdepth := hpartners.around_lt (i := row.item) (m := m'.map Row.item) hopens
      (fun o ho => by simpa using h.head_of_ends hrow ho) (by rw [hmid, List.map_append]; rfl)
    refine ⟨_, hdepth, ?_⟩
    have hregular := h.regular hplain hchain hhere
    rw [List.append_assoc, hm', Row.around, List.map_append, List.map_cons] at hregular
    exact hregular
  · have hhere : rows = (pre ++ m) ++ u :: b :: post := by
      rw [he, ← List.cons_append, hm]
      simp
    have hregular := h.regular hplain hchain hhere
    rw [List.append_assoc, ← hm, Row.around, List.map_append, List.map_cons,
      hpartners.around] at hregular
    exact hregular
  · have hhere : rows = (pre ++ m) ++ u :: row :: (r ++ post) := by
      have hbody : a :: (mid ++ b :: post) = (a :: (mid ++ [b])) ++ post := by simp
      rw [he, hbody, hm]
      simp
    rw [hhere, List.isChain_append_cons_cons] at hchain
    exact hchain.2.1.spaced.of_inline hin

/-- The layout treats the body of every element alike, whatever its name is. So where white space
shows, it keeps the white space of an element only where that is regular already. -/
theorem format_respaces (style : Style) (names : Names) (source t : List Char)
    (ha : names.Ample (3 * source.length)) (h : format style names source = .ok t) :
    ∃ rows, Drawn style names source t rows ∧
      ∀ pre b post name, rows = pre ++ b :: post →
        b.item.ends style.checker = some (.element name) →
        ∃ pre' a mid text attrs closing, pre = pre' ++ a :: mid ∧
          a.item = .token (.opening text name attrs closing) ∧
          Partners style.checker (pre'.map Row.item) (mid.map Row.item) a.item b.item ∧
          Respaced style.checker pre' mid a b := by
  obtain ⟨rows, hrows, hplain, hchain⟩ := exists_spaced_drawn ha h
  refine ⟨rows, hrows, fun pre b post name he hends => ?_⟩
  obtain ⟨is, i, is', hpre, hpartners⟩ := exists_partner hrows.matched
    (show rows.map Row.item = pre.map Row.item ++ b.item :: post.map Row.item by simp [he]) hends
  obtain ⟨pre', rest, rfl, rfl, hrest⟩ := List.map_eq_append_iff.1 hpre
  obtain ⟨a, mid, rfl, rfl, rfl⟩ := List.map_eq_cons_iff.1 hrest
  have hopens : a.item.opens style.checker = some (.element name) := by
    obtain ⟨o, ho, ho'⟩ := hpartners.same
    rw [ho, ← ho', hends]
  obtain ⟨text, attrs, closing, hitem⟩ := Item.opening_of_opens hopens
  refine ⟨pre', a, mid, text, attrs, closing, rfl, hitem, hpartners, ?_⟩
  exact hrows.respaced hplain hchain (by simpa using he) hopens hpartners

theorem format_respaces_regular :
    let style : Style := { checker := fun _ => true }
    let source := "<pre>a\n  <b>b</b></pre>".toList
    format style (Names.counting 128) source = .ok (source ++ ['\n']) ∧
      ∃ pre a mid b text attrs closing, Respaced style.checker pre mid a b ∧
        a.item = .token (.opening text "pre".toList attrs closing) ∧
        b.item = .token (.close "</pre>".toList "pre".toList) := by
  intro style source
  have hf : format style (Names.counting 128) source = .ok (source ++ ['\n']) := by decide +kernel
  have ha : (Names.counting 128).Ample (3 * source.length) :=
    Names.ample_counting (by decide) (by decide)
  obtain ⟨rows, hrows, hbody⟩ := format_respaces style (Names.counting 128) source _ ha hf
  have hlast : (rows.map Row.item).getLast? =
      some (.token (.close "</pre>".toList "pre".toList)) := by
    rw [hrows.items]
    decide +kernel
  rw [List.getLast?_map, Option.map_eq_some_iff] at hlast
  obtain ⟨b, hb, hitem⟩ := hlast
  obtain ⟨pre, rfl⟩ := List.getLast?_eq_some_iff.1 hb
  obtain ⟨pre', a, mid, text, attrs, closing, -, ha, -, hrespaced⟩ :=
    hbody pre b [] "pre".toList rfl (by rw [hitem]; rfl)
  exact ⟨hf, pre', a, mid, b, text, attrs, closing, hrespaced, ha, hitem⟩

/-- A line break in preformatted text becomes a space, and a space becomes a line break. -/
theorem format_reflows_preformatted :
    let style : Style := { checker := fun _ => true }
    format style (Names.counting 128) "<pre>a\nb <b>c</b></pre>".toList =
      .ok "<pre>a b\n  <b>c</b></pre>\n".toList := by
  decide +kernel

end ErbLayout.Template
