import Mathlib.Data.List.Pairwise
import Mathlib.Logic.Function.Basic
import ErbLayout.Proofs.Placeholder.Renamed
/-!
Renaming: every name that a text spells gives way to another one. Two texts that are renamed to each
other by their glossaries are so by one function, which confuses no two names of the text.
-/

namespace ErbLayout.Placeholder

open Text (Found)

namespace Name

/-- The names that a text spells, in order. -/
def spelled (s : List Char) : List Name := Found.values (Text.scan read s)

/-- A text with other names for those that it spells. -/
def rename (ρ : Name → Name) (s : List Char) : List Char :=
  Found.fill (fun n => (ρ n).text) (Text.scan read s)

/-- A renaming that keeps the names of a text apart. -/
def Consistent (ρ : Name → Name) (s : List Char) : Prop :=
  ∀ a ∈ spelled s, ∀ b ∈ spelled s, ρ a = ρ b → a = b

variable {ρ ρ' : Name → Name} {n : Name} {c : Char} {s : List Char}

theorem read_append (n : Name) (s : List Char) : read (n.text ++ s) = some (n, size) :=
  read_eq_some.2 ⟨rfl, List.prefix_append n.text s⟩

theorem scan_append (n : Name) (s : List Char) :
    Text.scan read (n.text ++ s) = .value n :: Text.scan read s := by
  have hne : n.text ++ s ≠ [] := by simp [Marked.name_ne_nil]
  rw [Text.scan_of_some (by decide) (read_append n s) hne, List.drop_left' (length_text n)]

/-- Induction over a text, name by name. -/
theorem scan_induction {motive : List Char → Prop} (nil : motive [])
    (char : ∀ c s, read (c :: s) = none → motive s → motive (c :: s))
    (name : ∀ n s, motive s → motive (text n ++ s)) (s : List Char) : motive s := by
  induction hn : s.length using Nat.strong_induction_on generalizing s with
  | _ k ih =>
    cases s with
    | nil => exact nil
    | cons c s =>
      cases hr : read (c :: s) with
      | none => exact char c s hr (ih s.length (by simp [← hn]) s rfl)
      | some p =>
        obtain ⟨n, m⟩ := p
        obtain ⟨-, t, ht⟩ := read_eq_some.1 hr
        rw [← ht]
        refine name n t (ih t.length ?_ t rfl)
        rw [← hn, ← ht, List.length_append, length_text]
        exact Nat.lt_add_of_pos_left (by decide)

theorem spelled_cons (h : read (c :: s) = none) : spelled (c :: s) = spelled s := by
  rw [spelled, Text.scan_cons_of_none h]
  rfl

theorem spelled_append (n : Name) (s : List Char) : spelled (n.text ++ s) = n :: spelled s := by
  rw [spelled, scan_append]
  rfl

theorem rename_nil (ρ : Name → Name) : rename ρ [] = [] := rfl

theorem rename_cons (h : read (c :: s) = none) : rename ρ (c :: s) = c :: rename ρ s := by
  rw [rename, Text.scan_cons_of_none h]
  rfl

theorem rename_append (ρ : Name → Name) (n : Name) (s : List Char) :
    rename ρ (n.text ++ s) = (ρ n).text ++ rename ρ s := by
  rw [rename, scan_append]
  rfl

theorem rename_congr (h : ∀ n ∈ spelled s, ρ n = ρ' n) : rename ρ s = rename ρ' s := by
  induction s using scan_induction with
  | nil => rw [rename_nil, rename_nil]
  | char c s hr ih =>
    rw [spelled_cons hr] at h
    rw [rename_cons hr, rename_cons hr, ih h]
  | name n s ih =>
    rw [spelled_append] at h
    obtain ⟨hn, hs⟩ := List.forall_mem_cons.1 h
    rw [rename_append, rename_append, hn, ih hs]

/-- A text that a renaming leaves as it is spells only names that are left. -/
theorem fixed_of_rename_eq (h : rename ρ s = s) : ∀ n ∈ spelled s, ρ n = n := by
  induction s using scan_induction with
  | nil => simp [spelled]
  | char c s hr ih =>
    rw [rename_cons hr] at h
    rw [spelled_cons hr]
    exact ih (List.cons.inj h).2
  | name n s ih =>
    rw [rename_append] at h
    obtain ⟨htext, hrest⟩ := List.append_inj h (by simp)
    rw [spelled_append]
    exact List.forall_mem_cons.2 ⟨text_injective htext, ih hrest⟩

theorem rename_id (s : List Char) : rename id s = s := by
  induction s using scan_induction with
  | nil => rfl
  | char c s hr ih => rw [rename_cons hr, ih]
  | name n s ih =>
    rw [rename_append, ih]
    rfl

theorem like_rename (ρ : Name → Name) (s : List Char) : Like s (rename ρ s) := by
  induction s using scan_induction with
  | nil => exact .nil
  | char c s hr ih =>
    rw [rename_cons hr]
    exact .cons_same c ih
  | name n s ih =>
    rw [rename_append]
    exact Like.append (like_text n (ρ n)) ih

/-- A text with its names marked, each with its new name. -/
def marked (ρ : Name → Name) (s : List Char) : Marked :=
  (Text.scan read s).map (Found.map fun n => (ρ n, n.text))

theorem written_marked (ρ : Name → Name) (s : List Char) : (marked ρ s).written = rename ρ s := by
  unfold marked rename Marked.written
  induction Text.scan read s with
  | nil => rfl
  | cons f fs ih => cases f <;> exact congrArg _ ih

theorem meant_marked (ρ : Name → Name) (s : List Char) : (marked ρ s).meant = s := by
  induction s using scan_induction with
  | nil => rfl
  | char c s hr ih =>
    rw [marked, Text.scan_cons_of_none hr]
    exact congrArg _ ih
  | name n s ih =>
    rw [marked, scan_append]
    exact congrArg _ ih

/-- No name begins at a character that begins none, whatever the names behind it become. -/
theorem read_rename_eq_none (ρ : Name → Name) (h : read (c :: s) = none) :
    read (c :: rename ρ s) = none := by
  cases hr : read (c :: rename ρ s) with
  | none => rfl
  | some p =>
    obtain ⟨n, k⟩ := p
    obtain ⟨-, hn⟩ := read_eq_some.1 hr
    rcases ht : n.text with _ | ⟨d, v⟩
    · exact absurd ht (Marked.name_ne_nil n)
    · rw [ht] at hn
      obtain ⟨rfl, hv⟩ := List.cons_prefix_cons.1 hn
      rw [← written_marked] at hv
      have hmeant := Marked.initial_meant (u := [d]) ht (by simp) hv
      rw [meant_marked] at hmeant
      rw [read_eq_some.2 ⟨rfl, ht ▸ List.cons_prefix_cons.2 ⟨rfl, hmeant⟩⟩] at h
      exact absurd h (by simp)

/-- A text that stays as it is under all the renamings that leave `s` alone spells no name that `s`
does not spell. -/
theorem mem_spelled_of_follows {t : List Char}
    (h : ∀ ρ, Consistent ρ s → rename ρ s = s → rename ρ t = t) (hn : n ∈ spelled t) :
    n ∈ spelled s := by
  by_contra hnot
  have hother {m : Name} (hm : m ∈ spelled s) : Function.update id n (n + 1) m = m :=
    Function.update_of_ne (fun he : m = n => hnot (he ▸ hm)) _ _
  have hkept : rename (Function.update id n (n + 1)) s = s :=
    (rename_congr fun m hm => hother hm).trans (rename_id s)
  have hfixed := h (Function.update id n (n + 1)) (fun a ha b hb he => by
    rwa [hother ha, hother hb] at he) hkept
  have hmoved := fixed_of_rename_eq hfixed n hn
  rw [Function.update_self] at hmoved
  simp at hmoved

end Name

namespace Glossary

variable {α : Type} {g g' : Glossary α} {e e' : Name × List Char} {n : Name} {s s' : List Char}

/-- No name has two entries, and no two entries are read as the same. -/
structure Distinct (g : Glossary α) : Prop where
  names : g.entries.Pairwise fun e e' => e.1 ≠ e'.1
  senses : g.entries.Pairwise fun e e' => g.sense e ≠ g.sense e'

/-- A name of both glossaries, or of none. -/
def Shared (g g' : Glossary α) (n : Name) : Prop :=
  (∃ e ∈ g.entries, e.1 = n ∧ ∃ e' ∈ g'.entries, g.sense e = g'.sense e') ∨
    ((∀ e ∈ g.entries, e.1 ≠ n) ∧ ∀ e' ∈ g'.entries, e'.1 ≠ n)

open Classical in
/-- The name that is read as `n` is; one that the glossaries do not know stays. -/
noncomputable def partner (g g' : Glossary α) (n : Name) : Name :=
  if h : ∃ e' ∈ g'.entries, ∃ e ∈ g.entries, e.1 = n ∧ g.sense e = g'.sense e' then h.choose.1
  else n

theorem eq_of_pairwise_ne {β : Type} {f : Name × List Char → β} {es : Entries}
    (h : es.Pairwise fun e e' => f e ≠ f e') (he : e ∈ es) (he' : e' ∈ es) (hf : f e = f e') :
    e = e' := by
  by_contra hne
  have hsymm : Std.Symm fun e e' => f e ≠ f e' := ⟨fun _ _ hn => hn.symm⟩
  exact h.forall he he' hne hf

theorem Distinct.partner_eq (hg : g.Distinct) (hg' : g'.Distinct) (he : e ∈ g.entries)
    (he' : e' ∈ g'.entries) (h : g.sense e = g'.sense e') : g.partner g' e.1 = e'.1 := by
  have hex : ∃ d' ∈ g'.entries, ∃ d ∈ g.entries, d.1 = e.1 ∧ g.sense d = g'.sense d' :=
    ⟨e', he', e, he, rfl, h⟩
  rw [partner, dif_pos hex]
  obtain ⟨hd', d, hd, hname, hsense⟩ := hex.choose_spec
  obtain rfl := eq_of_pairwise_ne hg.names hd he hname
  rw [eq_of_pairwise_ne hg'.senses hd' he' (hsense.symm.trans h)]

theorem partner_eq_self (h : ∀ e ∈ g.entries, e.1 ≠ n) : g.partner g' n = n := by
  rw [partner, dif_neg]
  rintro ⟨-, -, e, he, hn, -⟩
  exact h e he hn

/-- Names that both glossaries know, or none of them, are kept apart. -/
theorem consistent_partner (hg : g.Distinct) (hg' : g'.Distinct)
    (h : ∀ n ∈ Name.spelled s, Shared g g' n) : Name.Consistent (g.partner g') s := by
  intro a ha b hb hab
  rcases h a ha with ⟨e, he, rfl, d, hd, hed⟩ | ⟨hforeign, hforeign'⟩
  · rw [hg.partner_eq hg' he hd hed] at hab
    rcases h b hb with ⟨e₂, he₂, rfl, d₂, hd₂, hed₂⟩ | ⟨hforeign₂, hforeign₂'⟩
    · rw [hg.partner_eq hg' he₂ hd₂ hed₂] at hab
      obtain rfl := eq_of_pairwise_ne hg'.names hd hd₂ hab
      rw [eq_of_pairwise_ne hg.senses he he₂ (hed.trans hed₂.symm)]
    · rw [partner_eq_self hforeign₂] at hab
      exact absurd hab (hforeign₂' d hd)
  · rw [partner_eq_self hforeign] at hab
    rcases h b hb with ⟨e₂, he₂, rfl, d₂, hd₂, hed₂⟩ | ⟨hforeign₂, -⟩
    · rw [hg.partner_eq hg' he₂ hd₂ hed₂] at hab
      exact absurd hab.symm (hforeign' d₂ hd₂)
    · rw [partner_eq_self hforeign₂] at hab
      exact hab

theorem reveal_of_read_none {c : Char} (h : Name.read (c :: s) = none) :
    g.reveal (c :: s) = .char c :: g.reveal s := by
  have hread : g.entries.read (c :: s) = none := by
    rw [Entries.read, h]
  rw [reveal, Text.scan_cons_of_none hread]
  rfl

theorem reveal_name (hg : g.Distinct) (he : e ∈ g.entries) (s : List Char) :
    g.reveal (e.1.text ++ s) = .value (g.sense e) :: g.reveal s := by
  have hseam := List.nil_append e.1.text ▸ seam_of_name_left [] e.1 s
  rw [reveal_append hseam, reveal, Entries.scan_name hg.names he]
  rfl

theorem reveal_foreign (h : ∀ e ∈ g.entries, e.1 ≠ n) (s : List Char) :
    g.reveal (n.text ++ s) = n.text.map .char ++ g.reveal s := by
  have hseam := List.nil_append n.text ▸ seam_of_name_left [] n s
  rw [reveal_append hseam, reveal_of_namesIn_nil]
  refine Entries.namesIn_of_free fun e he hi => h e he ?_
  exact Name.text_injective (hi.eq_of_length (by simp))

theorem exists_of_reveal_chars {w : List Char} {fs : List (Found α)}
    (h : g.reveal s = w.map .char ++ fs) : ∃ t, s = w ++ t ∧ g.reveal t = fs := by
  induction w generalizing s with
  | nil => exact ⟨s, rfl, h⟩
  | cons c w ih =>
    obtain ⟨gs, hgs, hrest⟩ := Text.exists_of_map_char h
    obtain ⟨t, rfl, -, rfl⟩ := Text.scan_eq_char_cons hgs
    obtain ⟨u, rfl, hu⟩ := ih hrest
    exact ⟨u, rfl, hu⟩

theorem exists_of_reveal_value {a : α} {fs : List (Found α)} (h : g.reveal s = .value a :: fs) :
    ∃ e ∈ g.entries, ∃ t, s = e.1.text ++ t ∧ g.sense e = a ∧ g.reveal t = fs := by
  obtain ⟨e, gs, hgs, hsense, hrest⟩ := Text.exists_of_map_value h
  cases s using Entries.scan_induction g.entries with
  | nil => simp at hgs
  | char c s hx _ =>
    rw [hx] at hgs
    simp at hgs
  | name e' he' s hx _ =>
    rw [hx] at hgs
    obtain ⟨hvalue, rfl⟩ := List.cons.inj hgs
    obtain rfl := Found.value.inj hvalue
    exact ⟨e', he', s, rfl, hsense, hrest⟩

end Glossary

namespace Renamed

section Cases

variable {α : Type} {g g' : Glossary α} {c : Char} {e e' : Name × List Char} {s s' : List Char}

theorem char (hr : g.entries.read (c :: s) = none) (hr' : g'.entries.read (c :: s') = none)
    (h : Renamed g g' s s') : Renamed g g' (c :: s) (c :: s') := by
  rw [Renamed, Glossary.reveal, Glossary.reveal, Text.scan_cons_of_none hr,
    Text.scan_cons_of_none hr']
  exact congrArg _ h

theorem char_inv (hr : g.entries.read (c :: s) = none) (h : Renamed g g' (c :: s) s') :
    ∃ t, s' = c :: t ∧ g'.entries.read (c :: t) = none ∧ Renamed g g' s t := by
  rw [Renamed, Glossary.reveal, Text.scan_cons_of_none hr] at h
  obtain ⟨fs, hfs, hrest⟩ := Text.exists_of_map_char h.symm
  obtain ⟨t, rfl, hnone, rfl⟩ := Text.scan_eq_char_cons hfs
  exact ⟨t, rfl, hnone, hrest.symm⟩

theorem name (hg : g.Distinct) (hg' : g'.Distinct) (he : e ∈ g.entries) (he' : e' ∈ g'.entries)
    (hsense : g.sense e = g'.sense e') (h : Renamed g g' s s') :
    Renamed g g' (e.1.text ++ s) (e'.1.text ++ s') := by
  rw [Renamed, Glossary.reveal_name hg he, Glossary.reveal_name hg' he', hsense, h]

theorem name_inv (hg : g.Distinct) (he : e ∈ g.entries) (h : Renamed g g' (e.1.text ++ s) s') :
    ∃ e' ∈ g'.entries, ∃ t, s' = e'.1.text ++ t ∧ g.sense e = g'.sense e' ∧ Renamed g g' s t := by
  rw [Renamed, Glossary.reveal_name hg he] at h
  obtain ⟨e', he', t, rfl, hsense, ht⟩ := Glossary.exists_of_reveal_value h.symm
  exact ⟨e', he', t, rfl, hsense.symm, ht.symm⟩

end Cases

open Glossary (Distinct Shared partner)

variable {α : Type} {g g' : Glossary α} {s s' : List Char} (hg : g.Distinct) (hg' : g'.Distinct)
include hg hg'

/-- The names of a text that has a renamed one are known on both sides or on none, and the other
text is got by one renaming. -/
theorem exists_renaming (h : Renamed g g' s s') :
    s' = Name.rename (partner g g') s ∧ ∀ n ∈ Name.spelled s, Shared g g' n := by
  induction s using Name.scan_induction generalizing s' with
  | nil =>
    obtain rfl := h.like.eq_nil_iff.1 rfl
    exact ⟨rfl, by simp [Name.spelled]⟩
  | char c s hr ih =>
    rw [Renamed, Glossary.reveal_of_read_none hr] at h
    obtain ⟨t, rfl, ht⟩ := Glossary.exists_of_reveal_chars (w := [c]) h.symm
    rw [Name.rename_cons hr, Name.spelled_cons hr]
    obtain ⟨rfl, hshared⟩ := ih ht.symm
    exact ⟨rfl, hshared⟩
  | name n s ih =>
    rw [Name.rename_append, Name.spelled_append]
    by_cases hn : ∃ e ∈ g.entries, e.1 = n
    · obtain ⟨e, he, rfl⟩ := hn
      obtain ⟨e', he', t, rfl, hsense, ht⟩ := name_inv hg he h
      obtain ⟨rfl, hshared⟩ := ih ht
      rw [hg.partner_eq hg' he he' hsense]
      exact ⟨rfl, List.forall_mem_cons.2 ⟨.inl ⟨e, he, rfl, e', he', hsense⟩, hshared⟩⟩
    · have hforeign : ∀ e ∈ g.entries, e.1 ≠ n := fun e he hen => hn ⟨e, he, hen⟩
      rw [Renamed, Glossary.reveal_foreign hforeign] at h
      obtain ⟨t, rfl, ht⟩ := Glossary.exists_of_reveal_chars h.symm
      obtain ⟨rfl, hshared⟩ := ih ht.symm
      rw [Glossary.partner_eq_self hforeign]
      refine ⟨rfl, List.forall_mem_cons.2 ⟨.inr ⟨hforeign, fun e' he' hen => ?_⟩, hshared⟩⟩
      -- a name that the second glossary knows would be read there
      subst hen
      rw [Glossary.reveal_name hg' he'] at h
      rcases hx : e'.1.text with _ | ⟨c, w⟩
      · exact absurd hx (Marked.name_ne_nil _)
      · rw [hx] at h
        simp at h

theorem of_shared (h : ∀ n ∈ Name.spelled s, Shared g g' n) :
    Renamed g g' s (Name.rename (partner g g') s) := by
  induction s using Name.scan_induction with
  | nil => exact .nil
  | char c s hr ih =>
    rw [Name.spelled_cons hr] at h
    have hrest := ih h
    rw [Name.rename_cons hr, Renamed, Glossary.reveal_of_read_none hr,
      Glossary.reveal_of_read_none (Name.read_rename_eq_none _ hr), hrest]
  | name n s ih =>
    rw [Name.spelled_append] at h
    obtain ⟨hn, hs⟩ := List.forall_mem_cons.1 h
    have hrest := ih hs
    rw [Name.rename_append]
    rcases hn with ⟨e, he, rfl, e', he', hsense⟩ | ⟨hforeign, hforeign'⟩
    · rw [hg.partner_eq hg' he he' hsense]
      exact name hg hg' he he' hsense hrest
    · rw [Glossary.partner_eq_self hforeign, Renamed, Glossary.reveal_foreign hforeign,
        Glossary.reveal_foreign hforeign', hrest]

end Renamed

end ErbLayout.Placeholder
