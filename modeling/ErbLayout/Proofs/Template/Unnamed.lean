import ErbLayout.Proofs.Placeholder.Redrawn
import ErbLayout.Proofs.Template.Local
/-!
What protection leaves as it is. A text of a protected template holds no names exactly when what it
stands for in the source holds neither an ERB tag nor a word like a name; so equal texts of the source
are equal in the protected template if they are of that kind, and differ if they are not.
-/

namespace ErbLayout.Text

theorem exists_of_scan_chars {α : Type} {read : Reader α} {s u : List Char}
    {fs : List (Found α)} (h : scan read s = u.map .char ++ fs) : ∃ r, s = u ++ r := by
  induction u generalizing s with
  | nil => exact ⟨s, rfl⟩
  | cons c u ih =>
    obtain ⟨t, rfl, -, ht⟩ := scan_eq_char_cons h
    obtain ⟨r, rfl⟩ := ih ht
    exact ⟨r, rfl⟩

end ErbLayout.Text

namespace ErbLayout.Placeholder

open Text (Found)

variable {s w : List Char} {k n : Nat}

theorem lastEnding_eq_some (h : lastEnding k s = some n) :
    ∃ u r, s = u ++ (ending ++ r) ∧ n = k + (u ++ ending).length := by
  induction s generalizing k with
  | nil => simp [lastEnding] at h
  | cons c s ih =>
    rw [lastEnding] at h
    split at h
    · rename_i m hm
      cases h
      obtain ⟨u, r, rfl, rfl⟩ := ih hm
      refine ⟨c :: u, r, rfl, ?_⟩
      rw [List.cons_append, List.length_cons]
      omega
    · split at h
      · rename_i hp
        cases h
        obtain ⟨r, hr⟩ := List.isPrefixOf_iff_prefix.1 hp
        exact ⟨[], r, hr.symm, rfl⟩
      · simp at h

theorem lastEnding_ne_none (h : ending <:+: s) (k : Nat) : lastEnding k s ≠ none := by
  induction s generalizing k with
  | nil => simp [ending] at h
  | cons c s ih =>
    rw [lastEnding]
    split
    · simp
    · rename_i hnone
      rcases List.infix_cons_iff.1 h with hp | hi
      · rw [if_pos (List.isPrefixOf_iff_prefix.2 hp)]
        simp
      · exact absurd hnone (ih hi (k + 1))

/-- A word with the outline of a name is `erb`, one character at least, and `tag`. -/
theorem outline_of_lookalike (h : lookalike s = some (w, n)) :
    ∃ c u, w = 'e' :: 'r' :: 'b' :: c :: (u ++ ending) := by
  unfold lookalike at h
  split at h
  · rename_i s
    split at h
    · simp at h
    · rename_i c v hrun
      split at h
      · rename_i m hm
        simp only [Option.some.injEq, Prod.mk.injEq] at h
        obtain ⟨rfl, -⟩ := h
        obtain ⟨u, t, rfl, rfl⟩ := lastEnding_eq_some hm
        obtain ⟨x, hx⟩ := hrun ▸ List.takeWhile_prefix isNameChar (l := s)
        refine ⟨c, u, ?_⟩
        have hs : s = c :: (u ++ ending) ++ (t ++ x) := by rw [← hx]; simp
        rw [hs, List.take_left' (Nat.add_comm _ _)]
      · simp at h
  · simp at h

/-- What was read as a word with the outline of a name is one wherever it stands. -/
theorem lookalike_append_ne_none (h : lookalike s = some (w, n)) (r : List Char) :
    lookalike (w ++ r) ≠ none := by
  have hw := isNameChar_of_lookalike h
  obtain ⟨c, u, rfl⟩ := outline_of_lookalike h
  have hall : ∀ d ∈ c :: (u ++ ending), isNameChar d = true := fun d hd => hw d (by simp [hd])
  have hending := lastEnding_ne_none (s := u ++ ending ++ r.takeWhile isNameChar)
    ⟨u, r.takeWhile isNameChar, rfl⟩ 1
  simp only [lookalike, List.cons_append]
  rw [← List.cons_append, List.takeWhile_append_of_pos hall, List.cons_append]
  dsimp only
  split
  · simp
  · rename_i hnone
    exact absurd hnone hending

/-- A text holds no names of words if none of its words looks like a name once it is restored. -/
theorem namesIn_of_nameless {es : Entries} {s : List Char}
    (hes : ∀ e ∈ es, ∃ t n, lookalike t = some (e.2, n)) (h : Nameless (es.restore s)) :
    es.namesIn s = [] := by
  induction s using Entries.scan_induction es with
  | nil => rfl
  | char c s hx ih =>
    rw [Entries.namesIn_char hx]
    rw [Entries.restore, hx] at h
    exact ih fun t ht => h t (List.mem_cons_of_mem _ ht)
  | name e he s hx ih =>
    obtain ⟨t, n, hr⟩ := hes e he
    rw [Entries.restore, hx] at h
    exact absurd (h _ ((List.mem_tails _ _).2 List.suffix_rfl)) (lookalike_append_ne_none hr _)

namespace Marking

variable {names : Names} {source : List Char} {ws ts : Marked} {a m c n b : List Char}
variable (h : Marking names source ws ts)
include h

/-- A text without names has no words like names either: such a word would have got a name. -/
theorem nameless_of_unnamed (hs : (protect names source).working = a ++ (m ++ b))
    (ha : LastFree a) (hb : HeadFree b) (hm : (protect names source).table.Unnamed m) :
    Nameless m := by
  obtain ⟨xs, ys, hxs⟩ := h.chars_of_unnamed hs ha hb hm
  intro s hsm
  obtain ⟨u, rfl⟩ := (List.mem_tails _ _).1 hsm
  have hscan : s.map Found.char ++ ys <:+ Text.scan lookalike source :=
    ⟨xs ++ u.map .char, by rw [← hxs]; simp⟩
  obtain ⟨t, -, ht⟩ := Text.exists_of_suffix_scan hscan
  cases s with
  | nil => rfl
  | cons d s =>
    obtain ⟨r, rfl⟩ := Text.exists_of_scan_chars ht
    obtain ⟨t, he, hnone, -⟩ := Text.scan_eq_char_cons ht
    obtain rfl := (List.cons.inj he).2
    by_contra hne
    obtain ⟨⟨w, k⟩, hw⟩ := Option.ne_none_iff_exists'.1 hne
    obtain ⟨v, hv⟩ := (lookalike_eq_some hw).2.2.1
    have hread := lookalike_append_ne_none hw (v ++ r)
    rw [← List.append_assoc, hv] at hread
    exact hread hnone

/-- A text holds no names if what it restores to holds neither an ERB tag nor a word like a name. -/
theorem unnamed_iff (hs : (protect names source).working = a ++ (m ++ b)) (ha : LastFree a)
    (hb : HeadFree b) (hangle : '<' ∉ m) :
    let t := (protect names source).table
    t.Unnamed m ↔ Nameless (t.restore m) ∧ Erb.tagsIn (t.restore m) = [] := by
  intro t
  constructor
  · intro hm
    rw [hm.restore]
    refine ⟨h.nameless_of_unnamed hs ha hb hm, ?_⟩
    have hnone := Erb.tagsIn_append_of_not_mem hangle []
    rwa [List.append_nil, Erb.tagsIn_nil] at hnone
  · rintro ⟨hword, htags⟩
    have hcode : t.codeTags.namesIn m = [] := by
      have hopen : ¬ ['<', '%'] <:+: m := fun hi => hangle (hi.subset (by simp))
      rw [Table.restore, Table.restoreCodeTags, (plain_lookalikes names source).tagsIn_restore,
        List.map_eq_nil_iff, (coded_codeTags names source).tagsIn_restore hopen,
        List.flatMap_eq_nil_iff] at htags
      refine List.eq_nil_iff_forall_not_mem.2 fun e he => ?_
      obtain ⟨tag, t, k, hr⟩ := coded_codeTags names source e (Entries.namesIn_mem e he)
      have hself := Erb.tagsIn_append_of_read hr []
      rw [List.append_nil, htags e he] at hself
      simp at hself
    refine ⟨hcode, ?_⟩
    rw [Table.restore, Table.restoreCodeTags, Entries.restore_of_namesIn_nil hcode] at hword
    refine namesIn_of_nameless (fun e he => ?_) hword
    obtain ⟨s, k, -, hr⟩ := exists_of_mem_lookalikes he
    exact ⟨s, k, hr⟩

/-- Two texts in a protected template are equal exactly when they restore to the same text and
protection left both as they were. -/
theorem eq_iff_restore (hs : (protect names source).working = a ++ (m ++ (c ++ (n ++ b))))
    (ha : LastFree a) (hc : HeadFree c) (hne : c ≠ []) (hc' : LastFree c) (hb : HeadFree b)
    (hm : '<' ∉ m) (hn : '<' ∉ n) :
    let t := (protect names source).table
    m = n ↔ t.restore m = t.restore n ∧ Nameless (t.restore n) ∧ Erb.tagsIn (t.restore n) = [] := by
  intro t
  have hlast : LastFree (a ++ (m ++ c)) := (hc'.behind hne m).behind (by simp [hne]) a
  have hfirst := h.unnamed_iff hs ha (hc.before hne _) hm
  have hsecond := h.unnamed_iff (a := a ++ (m ++ c)) (b := b) (by simpa using hs) hlast hb hn
  constructor
  · rintro rfl
    exact ⟨rfl, hfirst.1 (h.unnamed_of_twice hs ha hc hne hc' hb)⟩
  · rintro ⟨hsame, hclear⟩
    have hfree := hfirst.2 (hsame ▸ hclear)
    rw [← hfree.restore, hsame, (hsecond.2 hclear).restore]

end Marking

end ErbLayout.Placeholder
