import ErbLayout.Proofs.Markup.Attributes
import ErbLayout.Proofs.Placeholder.Seams
/-!
What the attributes of a text leave over holds no letter and no digit, and each of them ends where a
name of a placeholder cannot go on. So whatever the text, the names in it are those in its attributes.
-/

namespace ErbLayout.Markup.Attribute

open Placeholder (HeadFree Seamwise)

theorem not_isNameChar_of_markup {c : Char} (h : isNameChar c = false) :
    Placeholder.isNameChar c = false := by
  simp only [isNameChar, Bool.not_eq_false', Bool.or_eq_true, beq_iff_eq] at h
  rcases h with (((((((((rfl | rfl) | rfl) | rfl) | rfl) | rfl) | rfl) | rfl) | rfl) | rfl) | rfl <;>
    decide

theorem dropSlashes_append (run : List Char) :
    ∃ u, run = dropSlashes run ++ u ∧ ∀ c ∈ u, c = '/' := by
  refine ⟨(run.reverse.takeWhile (· == '/')).reverse, ?_, fun c hc => ?_⟩
  · rw [dropSlashes, ← List.reverse_append, List.takeWhile_append_dropWhile, List.reverse_reverse]
  · simpa using List.mem_takeWhile_imp (List.mem_reverse.1 hc)

theorem headFree_of_slashes {u r : List Char} (hu : ∀ c ∈ u, c = '/') (hr : HeadFree r) :
    HeadFree (u ++ r) := by
  cases u with
  | nil => exact hr
  | cons d u =>
    intro c hc
    obtain rfl : d = c := by simpa using hc
    rw [hu d List.mem_cons_self]
    decide

theorem headFree_nameRun {s n r : List Char} (h : nameRun s = (n, r)) : HeadFree r := by
  rw [nameRun, List.span_eq_takeWhile_dropWhile, Prod.mk.injEq] at h
  intro c hc
  have hstop := List.head?_dropWhile_not isNameChar s
  rw [h.2, Option.mem_def.1 hc] at hstop
  exact not_isNameChar_of_markup (by simpa using hstop)

/-- An attribute at the start of a text. A quoted value ends with its quote, and behind any other
attribute no letter or digit goes on. -/
structure Starts (a : Attribute) (s rest : List Char) : Prop where
  text : s = a.text ++ rest
  ne_nil : a.text ≠ []
  ends : HeadFree rest ∨ ∃ u c, a.text = u ++ [c] ∧ Placeholder.isNameChar c = false

theorem starts_of_readQuoted {q : Quote} {s rest : List Char} {a : Attribute}
    (h : readQuoted q s = some (a, rest)) : Starts a s rest := by
  have hs := (readQuoted_eq_some h).2
  unfold readQuoted at h
  split at h
  · rename_i n m r hrun
    split at h
    · obtain ⟨⟨v, t⟩, -, he⟩ := Option.map_eq_some_iff.1 h
      simp only [Prod.mk.injEq] at he
      obtain ⟨rfl, -⟩ := he
      refine ⟨hs, by simp [text], .inr ⟨n ++ '=' :: q.mark :: v, q.mark, by simp [text], ?_⟩⟩
      cases q <;> decide
    · simp at h
  · simp at h

theorem starts_of_readBare {s : List Char} {a : Attribute} (h : readBare s = some a) :
    ∃ rest, Starts a s rest := by
  unfold readBare at h
  split at h
  · rename_i n r hrun
    dsimp only at h
    split at h
    · simp at h
    · obtain rfl := Option.some.inj h
      obtain ⟨u, hu, hslash⟩ := dropSlashes_append (nameRun r).1
      refine ⟨u ++ (nameRun r).2, ?_, by simp [text],
        .inl (headFree_of_slashes hslash (headFree_nameRun rfl))⟩
      conv_lhs => rw [(span_eq_append hrun).1, (span_eq_append (p := isNameChar) (s := r) rfl).1]
      change n ++ '=' :: ((nameRun r).1 ++ (nameRun r).2) = _
      conv_lhs => rw [hu]
      simp [text]
  · simp at h

theorem starts_of_readName {s : List Char} {a : Attribute} (h : readName s = some a) :
    ∃ rest, Starts a s rest := by
  unfold readName at h
  split at h
  · simp at h
  · rename_i hne
    obtain rfl := Option.some.inj h
    obtain ⟨u, hu, hslash⟩ := dropSlashes_append (nameRun s).1
    refine ⟨u ++ (nameRun s).2, ?_, fun he => hne he,
      .inl (headFree_of_slashes hslash (headFree_nameRun rfl))⟩
    conv_lhs => rw [(span_eq_append (p := isNameChar) (s := s) rfl).1]
    change (nameRun s).1 ++ (nameRun s).2 = _
    conv_lhs => rw [hu]
    simp [text]

theorem starts_of_readAny {s : List Char} {a : Attribute} (h : readAny s = some a) :
    ∃ rest, Starts a s rest := by
  unfold readAny at h
  split at h
  · rename_i hq
    obtain rfl := Option.some.inj h
    exact ⟨_, starts_of_readQuoted hq⟩
  · split at h
    · rename_i hq
      obtain rfl := Option.some.inj h
      exact ⟨_, starts_of_readQuoted hq⟩
    · split at h
      · rename_i hb
        obtain rfl := Option.some.inj h
        exact starts_of_readBare hb
      · exact starts_of_readName h

theorem not_isNameChar_of_readAny {c : Char} {s : List Char} (h : readAny (c :: s) = none) :
    Placeholder.isNameChar c = false := by
  cases hc : Placeholder.isNameChar c with
  | false => rfl
  | true =>
    have hname : isNameChar c = true := by
      cases hm : isNameChar c with
      | true => rfl
      | false =>
        rw [not_isNameChar_of_markup hm] at hc
        exact absurd hc (by simp)
    have hslash : (c == '/') = false := by
      rw [beq_eq_false_iff_ne]
      rintro rfl
      exact absurd hc (by decide)
    obtain ⟨u, hu, hall⟩ := dropSlashes_append (nameRun (c :: s)).1
    have hrun : ∃ r, (nameRun (c :: s)).1 = c :: r := by
      rw [nameRun, List.span_eq_takeWhile_dropWhile, List.takeWhile_cons_of_pos hname]
      exact ⟨_, rfl⟩
    obtain ⟨r, hr⟩ := hrun
    have hread : readName (c :: s) ≠ none := by
      unfold readName
      rcases hd : dropSlashes (nameRun (c :: s)).1 with _ | ⟨d, n⟩
      · rw [hd, List.nil_append, hr] at hu
        rw [hall c (hu ▸ List.mem_cons_self)] at hslash
        exact absurd hslash (by decide)
      · simp
    unfold readAny at h
    split at h
    · simp at h
    · split at h
      · simp at h
      · split at h
        · simp at h
        · exact absurd h hread

/-- A reading that sees names only finds in a text what it finds in its attributes. -/
theorem flatMap_all {α : Type} {f : List Char → List α} (hf : Seamwise f)
    (hnames : ∀ c, Placeholder.isNameChar c = false → f [c] = []) (s : List Char) :
    (all s).flatMap (fun a => f a.text) = f s := by
  induction hn : s.length using Nat.strong_induction_on generalizing s with
  | _ n ih =>
    cases s with
    | nil => exact hf.nil.symm
    | cons c s =>
      cases hr : readAny (c :: s) with
      | none =>
        have hc := not_isNameChar_of_readAny hr
        have hread : read (c :: s) = none := by
          rw [read, hr]
          rfl
        have hsplit := hf.split [] c s hc
        rw [List.nil_append, hf.nil, hnames c hc, List.nil_append, List.nil_append] at hsplit
        rw [hsplit, ← ih s.length (by simp [← hn]) s rfl, all, Text.scan_cons_of_none hread]
        rfl
      | some a =>
        obtain ⟨rest, hs, hne, hends⟩ := starts_of_readAny hr
        have hread : read (c :: s) = some (a, a.text.length) := by
          rw [read, hr]
          rfl
        have hpos := List.length_pos_iff.2 hne
        have hshort : rest.length < n := by
          rw [← hn, hs, List.length_append]
          omega
        have hsplit : f (a.text ++ rest) = f a.text ++ f rest := by
          rcases hends with hfree | ⟨u, d, hu, hd⟩
          · exact hf.append hfree
          · have hlast := hf.split u d [] hd
            rw [hf.nil, List.append_nil] at hlast
            rw [hu, List.append_assoc, List.singleton_append, hf.split u d rest hd, hlast,
              List.append_assoc]
        have hall : all (c :: s) = a :: all rest := by
          rw [all, Text.scan_of_some hpos hread (by simp), hs, List.drop_left]
          rfl
        rw [hall, List.flatMap_cons, ih rest.length hshort rest rfl, hs, hsplit]

end ErbLayout.Markup.Attribute

namespace ErbLayout.Markup.Token

open Placeholder (HeadFree)

theorem headFree_spaced {p : List Char × Attribute}
    (h : p.1 ≠ [] ∧ Text.allBlank p.1 = true ∧ p.2.WellFormed) : HeadFree (p.1 ++ p.2.text) := by
  intro c hc
  rw [List.head?_append_of_ne_nil _ h.1] at hc
  exact Placeholder.free_of_allBlank h.2.1 c (List.mem_of_mem_head? hc)

theorem headFree_spacedText {as : List (List Char × Attribute)} (h : Spaced as) :
    HeadFree (spacedText as) :=
  Placeholder.headFree_flatMap fun p hp => headFree_spaced (h p hp)

end ErbLayout.Markup.Token
