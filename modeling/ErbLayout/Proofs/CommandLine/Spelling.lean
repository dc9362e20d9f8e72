import Mathlib.Data.List.Nodup
import Mathlib.Data.List.TakeDrop
import Mathlib.Data.List.TakeWhile
import Mathlib.Tactic.Common
import ErbLayout.CommandLine.Parse
/-!
How flags are spelled, told without reading: whole names and beginnings of them, letters behind one
hyphen, values behind an equals sign, right behind a letter or in the next argument. A line of
arguments spells its uses of flags in one way at most.
-/

namespace ErbLayout.CommandLine

namespace Flag

/-- A long name of a flag, or a beginning that no other long name has. -/
def Named (n : List Char) (f : Flag) : Prop :=
  ∃ m, (m, f) ∈ longNames ∧ (n = m ∨ n <+: m ∧ ∀ e ∈ longNames, n <+: e.1 → e = (m, f))

theorem nodup_longNames : longNames.Nodup := by decide +kernel

theorem nodup_names : (longNames.map Prod.fst).Nodup := by decide +kernel

/-- Long names are more than two hyphens and hold no equals sign. -/
theorem shape_longNames : ∀ e ∈ longNames, ['-', '-'] <+: e.1 ∧ 2 < e.1.length ∧ '=' ∉ e.1 := by
  decide +kernel

end Flag

/-- Letters behind a hyphen, the uses that they spell, and the flag that still wants its value. -/
inductive Letters : List Char → List Use → Option Flag → Prop
  | last {c : Char} {f : Flag} : Flag.ofLetter? c = some f → f.takesValue = false →
    Letters [c] [⟨f, []⟩] none
  | more {c : Char} {f : Flag} {r : List Char} {us : List Use} {want : Option Flag} :
    Flag.ofLetter? c = some f → f.takesValue = false → Letters r us want →
    Letters (c :: r) (⟨f, []⟩ :: us) want
  | wanting {c : Char} {f : Flag} : Flag.ofLetter? c = some f → f.takesValue = true →
    Letters [c] [] (some f)
  | attached {c d : Char} {f : Flag} {v : List Char} : Flag.ofLetter? c = some f →
    f.takesValue = true → d ≠ '=' → Letters (c :: d :: v) [⟨f, d :: v⟩] none
  | equals {c : Char} {f : Flag} {v : List Char} : Flag.ofLetter? c = some f →
    f.takesValue = true → Letters (c :: '=' :: v) [⟨f, v⟩] none

/-- An argument that gives flags, the uses that it spells, and the flag that wants its value from
the next argument. -/
inductive Spells : Argument → List Use → Option Flag → Prop
  | letters {r : List Char} {us : List Use} {want : Option Flag} : Letters r us want →
    Spells ('-' :: r) us want
  | bare {n : List Char} {f : Flag} : Flag.Named n f → f.takesValue = false →
    Spells n [⟨f, []⟩] none
  | wanting {n : List Char} {f : Flag} : Flag.Named n f → f.takesValue = true →
    Spells n [] (some f)
  | attached {n v : List Char} {f : Flag} : Flag.Named n f → f.takesValue = true →
    Spells (n ++ '=' :: v) [⟨f, v⟩] none

/-- An argument that gives no flag: it begins with no hyphen or is one, or it is a negative number or
holds a space and begins like no flag. -/
inductive Plain : Argument → Prop
  | text {a : Argument} : a.head? ≠ some '-' → Plain a
  | hyphen : Plain ['-']
  | letter {c : Char} {r : List Char} : c ≠ '-' → Flag.ofLetter? c = none →
    (isNegativeNumber ('-' :: c :: r) = true ∨ ' ' ∈ '-' :: c :: r) → Plain ('-' :: c :: r)
  | name {r : List Char} :
    (∀ e ∈ Flag.longNames, ¬ ('-' :: '-' :: r).takeWhile (· != '=') <+: e.1) →
    (isNegativeNumber ('-' :: '-' :: r) = true ∨ ' ' ∈ '-' :: '-' :: r) → Plain ('-' :: '-' :: r)

/-- A line of arguments and the uses of flags that it spells. Behind two hyphens there are none. -/
inductive Line : List Argument → List Use → Prop
  | nil : Line [] []
  | operand {a : Argument} {as : List Argument} {us : List Use} : Plain a → Line as us →
    Line (a :: as) us
  | terminator {as : List Argument} : Line (['-', '-'] :: as) []
  | flags {a : Argument} {as : List Argument} {us vs : List Use} : Spells a us none → Line as vs →
    Line (a :: as) (us ++ vs)
  | value {a v : Argument} {as : List Argument} {f : Flag} {us vs : List Use} :
    Spells a us (some f) → Plain v → Line as vs → Line (a :: v :: as) (us ++ ⟨f, v⟩ :: vs)

namespace Flag

variable {n : List Char} {f g : Flag}

theorem lookup_longNames : longNames.lookup n = some f ↔ (n, f) ∈ longNames := by
  rw [List.lookup_eq_some_iff]
  refine ⟨fun ⟨l₁, l₂, h, _⟩ => by simp [h], fun h => ?_⟩
  obtain ⟨l₁, l₂, hl⟩ := List.append_of_mem h
  refine ⟨l₁, l₂, hl, fun e he => ?_⟩
  have hnodup := nodup_names
  rw [hl, List.map_append, List.map_cons, List.nodup_append] at hnodup
  simpa using (hnodup.2.2 e.1 (List.mem_map_of_mem he) n List.mem_cons_self).symm

theorem filter_longNames (p : List Char × Flag → Bool) (e : List Char × Flag) :
    longNames.filter p = [e] ↔ ∀ e', e' ∈ longNames ∧ p e' = true ↔ e' = e := by
  rw [← List.perm_singleton,
    List.perm_ext_iff_of_nodup (nodup_longNames.filter p) (List.nodup_singleton e)]
  simp only [List.mem_filter, List.mem_singleton]

/-- How a long name is found: by the whole of it, or as the only one that begins so. -/
theorem named_iff : Named n f ↔ longNames.lookup n = some f ∨
    longNames.lookup n = none ∧ ∃ m, longNames.filter (fun e => n.isPrefixOf e.1) = [(m, f)] := by
  simp only [lookup_longNames, filter_longNames, List.isPrefixOf_iff_prefix]
  constructor
  · rintro ⟨m, hm, rfl | ⟨hpre, honly⟩⟩
    · exact .inl hm
    · cases hn : longNames.lookup n with
      | some g =>
        obtain ⟨rfl, rfl⟩ := Prod.mk.inj (honly _ (lookup_longNames.1 hn) (List.prefix_refl n))
        exact .inl hm
      | none =>
        refine .inr ⟨rfl, m, fun e => ⟨fun h => honly e h.1 h.2, ?_⟩⟩
        rintro rfl
        exact ⟨hm, hpre⟩
  · rintro (h | ⟨-, m, honly⟩)
    · exact ⟨n, h, .inl rfl⟩
    · obtain ⟨hm, hpre⟩ := (honly (m, f)).2 rfl
      exact ⟨m, hm, .inr ⟨hpre, fun e he h => (honly e).1 ⟨he, h⟩⟩⟩

theorem Named.unique (hf : Named n f) (hg : Named n g) : f = g := by
  rcases named_iff.1 hf with hf | ⟨hf, m, hfm⟩ <;> rcases named_iff.1 hg with hg | ⟨hg, m', hgm⟩
  · exact Option.some.inj (hf.symm.trans hg)
  · simp [hf] at hg
  · simp [hf] at hg
  · simpa using congrArg (List.map Prod.snd) (hfm.symm.trans hgm)

theorem Named.begins (h : Named n f) : ∃ m, (m, f) ∈ longNames ∧ n <+: m := by
  obtain ⟨m, hm, rfl | ⟨hpre, -⟩⟩ := h
  · exact ⟨n, hm, List.prefix_refl n⟩
  · exact ⟨m, hm, hpre⟩

theorem Named.equals_not_mem (h : Named n f) : '=' ∉ n := by
  obtain ⟨m, hm, hpre⟩ := h.begins
  exact fun hmem => (shape_longNames _ hm).2.2 (hpre.subset hmem)

/-- Two hyphens alone begin every long name, so they name none. -/
theorem Named.two_lt_length (h : Named n f) : 2 < n.length := by
  obtain ⟨m, hm, rfl | ⟨hpre, honly⟩⟩ := h
  · exact (shape_longNames _ hm).2.1
  · by_contra hshort
    -- Two names that begin alike already show that such a beginning tells nothing apart.
    have hhyphens : n <+: ['-', '-'] :=
      List.prefix_of_prefix_length_le hpre (shape_longNames _ hm).1 (by simpa using hshort)
    have hall : ∀ e ∈ longNames, e = (m, f) := fun e he =>
      honly e he (hhyphens.trans (shape_longNames e he).1)
    have hhelp := hall ("--help".toList, help) (by decide)
    have houtput := hall ("--output".toList, output) (by decide)
    simp [← hhelp] at houtput

theorem Named.shape (h : Named n f) : ∃ c r, n = '-' :: '-' :: c :: r := by
  obtain ⟨m, hm, hpre⟩ := h.begins
  have hhyphens : ['-', '-'] <+: n :=
    List.prefix_of_prefix_length_le (shape_longNames _ hm).1 hpre (Nat.le_of_lt h.two_lt_length)
  obtain ⟨t, rfl⟩ := hhyphens
  cases t with
  | nil => simpa using h.two_lt_length
  | cons c r => exact ⟨c, r, rfl⟩

end Flag

theorem splitEquals_of_not_mem {s : List Char} (h : '=' ∉ s) : splitEquals s = (s, none) := by
  have hall : ∀ c ∈ s, (c != '=') = true := fun c hc => by simpa using ne_of_mem_of_not_mem hc h
  rw [splitEquals, List.span_eq_takeWhile_dropWhile, List.takeWhile_eq_self_iff.2 hall,
    List.dropWhile_eq_nil_iff.2 hall]

theorem splitEquals_append {n : List Char} (h : '=' ∉ n) (v : List Char) :
    splitEquals (n ++ '=' :: v) = (n, some ⟨true, v⟩) := by
  have hall : ∀ c ∈ n, (c != '=') = true := fun c hc => by simpa using ne_of_mem_of_not_mem hc h
  rw [splitEquals, List.span_eq_takeWhile_dropWhile, List.takeWhile_append_of_pos hall,
    List.dropWhile_append_of_pos hall]
  simp

theorem splitEquals_cases (s : List Char) :
    '=' ∉ s ∧ splitEquals s = (s, none) ∨
      ∃ n v, s = n ++ '=' :: v ∧ '=' ∉ n ∧ splitEquals s = (n, some ⟨true, v⟩) := by
  by_cases h : '=' ∈ s
  · obtain ⟨n, v, rfl, hn⟩ := List.eq_append_cons_of_mem h
    exact .inr ⟨n, v, rfl, hn, splitEquals_append hn v⟩
  · exact .inl ⟨h, splitEquals_of_not_mem h⟩

theorem splitEquals_fst (s : List Char) : (splitEquals s).1 = s.takeWhile (· != '=') := by
  rcases splitEquals_cases s with ⟨h, hs⟩ | ⟨n, v, rfl, h, hs⟩
  · rw [hs, List.takeWhile_eq_self_iff.2 fun c hc => by simpa using ne_of_mem_of_not_mem hc h]
  · rw [hs, List.takeWhile_append_of_pos fun c hc => by simpa using ne_of_mem_of_not_mem hc h]
    simp

theorem bare_eq (f : Flag) (us : List Use) (want : Option Flag) :
    Uses.bare f = ⟨us, want, false⟩ ↔ f.takesValue = false ∧ us = [⟨f, []⟩] ∧ want = none ∨
      f.takesValue = true ∧ us = [] ∧ want = some f := by
  rw [Uses.bare]
  cases f.takesValue <;> simp [eq_comm]

section Letters

variable {c : Char} {f : Flag} {r : List Char} {us : List Use} {want : Option Flag}

theorem ofLetters_of_letters (h : Letters (c :: r) us want) (hf : Flag.ofLetter? c = some f) :
    Uses.ofLetters f r = .ok ⟨us, want, false⟩ := by
  generalize hs : c :: r = s at h
  induction h generalizing c f r with
  | last hc hbare =>
    obtain ⟨rfl, rfl⟩ := List.cons.inj hs
    obtain rfl := Option.some.inj (hf.symm.trans hc)
    simp [Uses.ofLetters, Uses.bare, hbare]
  | @more d g r' us want hc hbare hr ih =>
    obtain ⟨rfl, rfl⟩ := List.cons.inj hs
    obtain rfl := Option.some.inj (hf.symm.trans hc)
    obtain ⟨e, g, t, rfl, hg⟩ : ∃ e g t, r = e :: t ∧ Flag.ofLetter? e = some g := by
      cases hr <;> exact ⟨_, _, _, rfl, ‹_›⟩
    have hsign : (e == '=' || e == '-') = false := by
      rw [Bool.or_eq_false_iff, beq_eq_false_iff_ne, beq_eq_false_iff_ne]
      constructor <;> rintro rfl <;> simp [Flag.ofLetter?] at hg
    simp [Uses.ofLetters, hbare, hsign, hg, ih hg rfl, Except.map]
  | wanting hc hvalue =>
    obtain ⟨rfl, rfl⟩ := List.cons.inj hs
    obtain rfl := Option.some.inj (hf.symm.trans hc)
    simp [Uses.ofLetters, Uses.bare, hvalue]
  | attached hc hvalue hd =>
    obtain ⟨rfl, rfl⟩ := List.cons.inj hs
    obtain rfl := Option.some.inj (hf.symm.trans hc)
    simp [Uses.ofLetters, hvalue, hd]
  | equals hc hvalue =>
    obtain ⟨rfl, rfl⟩ := List.cons.inj hs
    obtain rfl := Option.some.inj (hf.symm.trans hc)
    simp [Uses.ofLetters, hvalue]

theorem letters_of_ofLetters (hf : Flag.ofLetter? c = some f)
    (h : Uses.ofLetters f r = .ok ⟨us, want, false⟩) : Letters (c :: r) us want := by
  fun_induction Uses.ofLetters f r generalizing c us want with
  | case1 f =>
    rcases (bare_eq f us want).1 (Except.ok.inj h) with ⟨hbare, rfl, rfl⟩ | ⟨hvalue, rfl, rfl⟩
    · exact .last hf hbare
    · exact .wanting hf hvalue
  | case2 f d r hvalue =>
    obtain ⟨rfl, rfl, -⟩ := Uses.mk.inj (Except.ok.inj h)
    by_cases hd : d = '='
    · subst hd
      exact .equals hf hvalue
    · rw [if_neg (by simpa using hd)]
      exact .attached hf hvalue hd
  | case3 => simp at h
  | case4 => simp at h
  | case5 f d r hbare hsign g hg ih =>
    cases hr : Uses.ofLetters g r with
    | error e => simp [hr, Except.map] at h
    | ok vs =>
      simp only [hr, Except.map, Except.ok.injEq, Uses.mk.injEq] at h
      obtain ⟨rfl, rfl, hleft⟩ := h
      exact .more hf (by simpa using hbare) (ih hg (by rw [hr, ← hleft]))

theorem letters_iff (hf : Flag.ofLetter? c = some f) :
    Letters (c :: r) us want ↔ Uses.ofLetters f r = .ok ⟨us, want, false⟩ :=
  ⟨fun h => ofLetters_of_letters h hf, letters_of_ofLetters hf⟩

end Letters

namespace Token

/-- A token that gives flags. -/
def GivesFlags (t : Token) : Prop := (∀ a, t ≠ .operand a) ∧ t ≠ .terminator

/-- How an argument behind two hyphens reads: by its name, if that is one of a flag. -/
theorem read_hyphens (c : Char) (r : List Char) :
    read ('-' :: '-' :: c :: r) =
      let s := splitEquals ('-' :: '-' :: c :: r)
      match Flag.longNames.lookup s.1 with
      | some f => some (.long f s.2)
      | none =>
        match Flag.longNames.filter fun e => s.1.isPrefixOf e.1 with
        | [] => some (ofOther ('-' :: '-' :: c :: r))
        | [(_, f)] => some (.long f s.2)
        | _ => none := rfl

theorem read_long {c : Char} {r : List Char} {t : Token}
    (h : read ('-' :: '-' :: c :: r) = some t) :
    (∃ f, Flag.Named (splitEquals ('-' :: '-' :: c :: r)).1 f ∧
        t = .long f (splitEquals ('-' :: '-' :: c :: r)).2) ∨
      (∀ e ∈ Flag.longNames, ¬ (splitEquals ('-' :: '-' :: c :: r)).1 <+: e.1) ∧
        t = ofOther ('-' :: '-' :: c :: r) := by
  rw [read_hyphens] at h
  dsimp only at h
  split at h
  · rename_i f hf
    exact .inl ⟨f, Flag.named_iff.2 (.inl hf), (Option.some.inj h).symm⟩
  · rename_i hnone
    split at h
    · rename_i hfilter
      refine .inr ⟨fun e he hpre => ?_, (Option.some.inj h).symm⟩
      simpa [List.isPrefixOf_iff_prefix, hpre] using List.filter_eq_nil_iff.1 hfilter e he
    · rename_i m f hfilter
      exact .inl ⟨f, Flag.named_iff.2 (.inr ⟨hnone, m, hfilter⟩), (Option.some.inj h).symm⟩
    · simp at h

theorem read_of_named {n : List Char} {f : Flag} (h : Flag.Named n f) {s : List Char}
    {attached : Option Attached} (hs : splitEquals s = (n, attached)) (hpre : n <+: s) :
    read s = some (.long f attached) := by
  obtain ⟨c, r, rfl⟩ := h.shape
  obtain ⟨t, rfl⟩ := hpre
  simp only [List.cons_append] at hs ⊢
  rw [read_hyphens, hs]
  rcases Flag.named_iff.1 h with hf | ⟨hnone, m, hfilter⟩
  · simp [hf]
  · simp [hnone, hfilter]

theorem ne_hyphen_of_letter {c : Char} {f : Flag} (hf : Flag.ofLetter? c = some f) : c ≠ '-' := by
  rintro rfl
  simp [Flag.ofLetter?] at hf

/-- How letters behind one hyphen read. -/
theorem ofToken_letter {c : Char} {f : Flag} (hf : Flag.ofLetter? c = some f) (r : List Char) :
    ∃ attached, read ('-' :: c :: r) = some (.letter f attached) ∧
      Uses.ofToken (.letter f attached) = Uses.ofLetters f r := by
  have hc := ne_hyphen_of_letter hf
  cases r with
  | nil => exact ⟨none, by simp [read, hf, hc], rfl⟩
  | cons d r =>
    by_cases hd : d = '='
    · subst hd
      refine ⟨some ⟨true, r⟩, by simp [read, hf], ?_⟩
      cases hv : f.takesValue <;> simp [Uses.ofToken, Uses.ofLetters, hv]
    · exact ⟨some ⟨false, d :: r⟩, by simp [read, hf, hd], rfl⟩

theorem read_of_no_letter {c : Char} (hc : c ≠ '-') (h : Flag.ofLetter? c = none)
    (r : List Char) : read ('-' :: c :: r) = some (ofOther ('-' :: c :: r)) := by
  simp [read, h, hc]

theorem ofOther_of_looksPlain {s : Argument} (h : isNegativeNumber s = true ∨ ' ' ∈ s) :
    ofOther s = .operand s := by
  rw [ofOther, if_pos (by simpa using h)]

/-- An argument that no name of a flag begins like reads as something else. -/
theorem read_of_no_name {c : Char} {r : List Char}
    (h : ∀ e ∈ Flag.longNames, ¬ (splitEquals ('-' :: '-' :: c :: r)).1 <+: e.1) :
    read ('-' :: '-' :: c :: r) = some (ofOther ('-' :: '-' :: c :: r)) := by
  have hfilter : Flag.longNames.filter
      (fun e => (splitEquals ('-' :: '-' :: c :: r)).1.isPrefixOf e.1) = [] := by
    refine List.filter_eq_nil_iff.2 fun e he => ?_
    simpa [List.isPrefixOf_iff_prefix] using h e he
  have hlookup : Flag.longNames.lookup (splitEquals ('-' :: '-' :: c :: r)).1 = none := by
    refine Option.eq_none_iff_forall_ne_some.2 fun f hf => ?_
    exact h _ (Flag.lookup_longNames.1 hf) (List.prefix_refl _)
  rw [read_hyphens]
  simp only [hlookup, hfilter]

/-- The tokens that an argument may read as, with what that says of the argument. -/
inductive Reads : Argument → Token → Prop
  | plain {a : Argument} : Plain a → Reads a (.operand a)
  | terminator : Reads ['-', '-'] .terminator
  | letters {c : Char} {f : Flag} {r : List Char} {attached : Option Attached} :
    Flag.ofLetter? c = some f →
    Uses.ofToken (.letter f attached) = Uses.ofLetters f r →
    Reads ('-' :: c :: r) (.letter f attached)
  | name {a : Argument} {n : List Char} {f : Flag} {attached : Option Attached} : Flag.Named n f →
    splitEquals a = (n, attached) → Reads a (.long f attached)
  | unknown {a : Argument} : Reads a .unknown

theorem reads_ofOther {s : Argument}
    (h : isNegativeNumber s = true ∨ ' ' ∈ s → Plain s) : Reads s (ofOther s) := by
  by_cases hlook : isNegativeNumber s = true ∨ ' ' ∈ s
  · exact ofOther_of_looksPlain hlook ▸ .plain (h hlook)
  · have ho : ofOther s = .unknown := by rw [ofOther, if_neg (by simpa using hlook)]
    exact ho ▸ .unknown

theorem reads_of_read_hyphens {c : Char} {r : List Char} {t : Token}
    (h : read ('-' :: '-' :: c :: r) = some t) : Reads ('-' :: '-' :: c :: r) t := by
  rcases read_long h with ⟨f, hn, rfl⟩ | ⟨hnone, rfl⟩
  · exact .name hn rfl
  · exact reads_ofOther (.name (by simpa only [splitEquals_fst] using hnone))

theorem reads_of_read_hyphen {c : Char} {r : List Char} {t : Token} (hc : c ≠ '-')
    (h : read ('-' :: c :: r) = some t) : Reads ('-' :: c :: r) t := by
  cases hf : Flag.ofLetter? c with
  | some f =>
    obtain ⟨attached, hread, huses⟩ := ofToken_letter hf r
    obtain rfl := Option.some.inj (hread.symm.trans h)
    exact .letters hf huses
  | none =>
    obtain rfl := Option.some.inj ((read_of_no_letter hc hf r).symm.trans h)
    exact reads_ofOther (.letter hc hf)

theorem read_of_head {a : Argument} (h : a.head? ≠ some '-') : read a = some (.operand a) := by
  cases a with
  | nil => rfl
  | cons c r =>
    have hc : c ≠ '-' := by simpa using h
    simp [read, hc]

theorem reads_of_read {a : Argument} {t : Token} (h : read a = some t) : Reads a t := by
  by_cases hhead : a.head? = some '-'
  swap
  · exact Option.some.inj ((read_of_head hhead).symm.trans h) ▸ .plain (.text hhead)
  obtain ⟨r, rfl⟩ := List.head?_eq_some_iff.1 hhead
  cases r with
  | nil => exact Option.some.inj h ▸ .plain .hyphen
  | cons c r =>
    by_cases hc : c = '-'
    · subst hc
      cases r with
      | nil => exact Option.some.inj h ▸ .terminator
      | cons c r => exact reads_of_read_hyphens h
    · exact reads_of_read_hyphen hc h

end Token

/-- An argument spells what its reading gives. -/
theorem spells_iff {a : Argument} {us : List Use} {want : Option Flag} :
    Spells a us want ↔
      ∃ t, Token.read a = some t ∧ t.GivesFlags ∧ Uses.ofToken t = .ok ⟨us, want, false⟩ := by
  constructor
  · intro h
    cases h with
    | @letters r us want h =>
      obtain ⟨c, f, r, rfl, hf⟩ : ∃ c f t, r = c :: t ∧ Flag.ofLetter? c = some f := by
        cases h <;> exact ⟨_, _, _, rfl, ‹_›⟩
      obtain ⟨attached, hread, huses⟩ := Token.ofToken_letter hf r
      exact ⟨_, hread, ⟨by simp, by simp⟩, huses.trans ((letters_iff hf).1 h)⟩
    | bare hn hbare =>
      refine ⟨_, Token.read_of_named hn (splitEquals_of_not_mem hn.equals_not_mem)
        (List.prefix_refl a), ⟨by simp, by simp⟩, ?_⟩
      simp [Uses.ofToken, Uses.bare, hbare]
    | wanting hn hvalue =>
      refine ⟨_, Token.read_of_named hn (splitEquals_of_not_mem hn.equals_not_mem)
        (List.prefix_refl a), ⟨by simp, by simp⟩, ?_⟩
      simp [Uses.ofToken, Uses.bare, hvalue]
    | attached hn hvalue =>
      refine ⟨_, Token.read_of_named hn (splitEquals_append hn.equals_not_mem _)
        (List.prefix_append _ _), ⟨by simp, by simp⟩, ?_⟩
      simp [Uses.ofToken, hvalue]
  · rintro ⟨t, hread, hflags, huses⟩
    cases Token.reads_of_read hread with
    | plain => exact absurd rfl (hflags.1 a)
    | terminator => exact absurd rfl hflags.2
    | letters hf heq => exact .letters ((letters_iff hf).2 (heq.symm.trans huses))
    | unknown => simp [Uses.ofToken] at huses
    | @name _ n f attached hn hsplit =>
      rcases splitEquals_cases a with ⟨-, hs⟩ | ⟨n', v, rfl, -, hs⟩
      · obtain ⟨rfl, rfl⟩ := Prod.mk.inj (hsplit.symm.trans hs)
        rcases (bare_eq f us want).1 (Except.ok.inj huses) with
          ⟨hbare, rfl, rfl⟩ | ⟨hvalue, rfl, rfl⟩
        · exact .bare hn hbare
        · exact .wanting hn hvalue
      · obtain ⟨rfl, rfl⟩ := Prod.mk.inj (hsplit.symm.trans hs)
        cases hvalue : f.takesValue with
        | true =>
          simp only [Uses.ofToken, hvalue, if_true, Except.ok.injEq, Uses.mk.injEq] at huses
          obtain ⟨rfl, rfl, -⟩ := huses
          exact .attached hn hvalue
        | false => simp [Uses.ofToken, hvalue] at huses

/-- An argument is plain if it reads as an operand. -/
theorem plain_iff {a : Argument} : Plain a ↔ Token.read a = some (.operand a) := by
  refine ⟨fun h => ?_, fun h => ?_⟩
  · cases h with
    | text hhead => exact Token.read_of_head hhead
    | hyphen => rfl
    | @letter c r hc hf hlook =>
      rw [Token.read_of_no_letter hc hf, Token.ofOther_of_looksPlain hlook]
    | @name r hnone hlook =>
      cases r with
      | nil => exact absurd (by decide) (hnone ("--help".toList, .help) (by decide))
      | cons c r =>
        rw [Token.read_of_no_name (by simpa only [splitEquals_fst] using hnone),
          Token.ofOther_of_looksPlain hlook]
  · cases Token.reads_of_read h with
    | plain h => exact h

end ErbLayout.CommandLine
