import ErbLayout.Proofs.Template.Local
/-!
The stretches of a text in which names and words like them can stand: the longest of letters and
digits, as far as they hold `erb`. Texts with the same such stretches have the same names in them,
and the same words that look like names.
-/

namespace ErbLayout.Text

variable {α : Type} {fs gs fs' gs' : List (Found α)} {write : α → List Char}

/-- A list of findings is cut at one place only where the text before it ends there. -/
theorem Found.append_inj (hwrite : ∀ a ∈ Found.values fs ++ Found.values fs', write a ≠ [])
    (h : fs ++ gs = fs' ++ gs') (hfill : Found.fill write fs = Found.fill write fs') :
    fs = fs' ∧ gs = gs' := by
  have hne (f : Found α) (fs : List (Found α)) (hf : ∀ a ∈ Found.values (f :: fs), write a ≠ []) :
      Found.fill write (f :: fs) ≠ [] := by
    cases f with
    | char c => simp
    | value a => simp [hf a List.mem_cons_self]
  have hleft := fun a ha => hwrite a (List.mem_append_left _ ha)
  have hright := fun a ha => hwrite a (List.mem_append_right _ ha)
  induction fs generalizing fs' with
  | nil =>
    cases fs' with
    | nil => exact ⟨rfl, h⟩
    | cons f fs' => exact absurd hfill.symm (hne f fs' hright)
  | cons f fs ih =>
    cases fs' with
    | nil => exact absurd hfill (hne f fs hleft)
    | cons f' fs' =>
      obtain ⟨rfl, hrest⟩ := List.cons.inj h
      have hsub (fs : List (Found α)) : Found.values fs ⊆ Found.values (f :: fs) := by
        intro a ha
        exact Found.mem_values.2 (List.mem_cons_of_mem f (Found.mem_values.1 ha))
      have hfill' : Found.fill write fs = Found.fill write fs' := by
        cases f with
        | char c => exact (List.cons.inj hfill).2
        | value a => exact List.append_cancel_left hfill
      obtain ⟨rfl, rfl⟩ := ih (fun a ha => (List.mem_append.1 ha).elim
        (fun ha => hleft a (hsub fs ha)) fun ha => hright a (hsub fs' ha)) hrest hfill'
        (fun a ha => hleft a (hsub fs ha)) fun a ha => hright a (hsub fs' ha)
      exact ⟨rfl, rfl⟩

end ErbLayout.Text

namespace ErbLayout.Placeholder

open Text (Found)

variable {α : Type} {es : Entries} {s s' r : List Char} {c : Char}

/-- Induction over a text stretch by stretch, each ended by a character of no name. -/
theorem stretch_induction {motive : List Char → Prop}
    (stretch : ∀ r, (∀ c ∈ r, isNameChar c = true) → motive r)
    (behind : ∀ r c s, (∀ c ∈ r, isNameChar c = true) → isNameChar c = false → motive s →
      motive (r ++ c :: s)) (s : List Char) : motive s := by
  induction hn : s.length using Nat.strong_induction_on generalizing s with
  | _ n ih =>
    have hcut := List.takeWhile_append_dropWhile (p := isNameChar) (l := s)
    have hrun : ∀ c ∈ s.takeWhile isNameChar, isNameChar c = true := fun c hc =>
      List.mem_takeWhile_imp hc
    cases hrest : s.dropWhile isNameChar with
    | nil =>
      rw [hrest, List.append_nil] at hcut
      rw [← hcut]
      exact stretch _ hrun
    | cons c t =>
      have hc : isNameChar c = false := head_dropWhile isNameChar s c (by simp [hrest])
      rw [hrest] at hcut
      have hlen := congrArg List.length hcut
      rw [List.length_append, List.length_cons] at hlen
      rw [← hcut]
      exact behind _ c t hrun hc (ih t.length (by omega) t rfl)

/-- The longest stretches of letters and digits that hold `erb`. -/
def candidates (s : List Char) : List (List Char) :=
  (Text.words (s.map fun c => if isNameChar c then c else ' ')).filter
    fun r => decide (opening <:+: r)

theorem candidates_append_cons (hc : isNameChar c = false) (a b : List Char) :
    candidates (a ++ c :: b) = candidates a ++ candidates b := by
  rw [candidates, List.map_append, List.map_cons, hc, if_neg (by simp),
    Text.words_append_blank (by decide), List.filter_append]
  rfl

theorem seamwise_candidates : Seamwise candidates := by
  have hone (c : Char) (hc : isNameChar c = false) : candidates [c] = [] :=
    candidates_append_cons hc [] []
  exact ⟨rfl, fun a c b hc => by rw [candidates_append_cons hc, hone c hc, List.nil_append],
    fun c hc => hone c (isNameChar_of_isBlank hc)⟩

theorem candidates_of_stretch (hr : ∀ c ∈ r, isNameChar c = true) :
    candidates r = if opening <:+: r then [r] else [] := by
  have hmap : (r.map fun c => if isNameChar c then c else ' ') = r := by
    conv_rhs => rw [← List.map_id r]
    exact List.map_congr_left fun c hc => if_pos (hr c hc)
  rw [candidates, hmap]
  by_cases hne : r = []
  · subst hne
    rfl
  · rw [Text.words_of_word ⟨hne, fun c hc => isBlank_of_isNameChar (hr c hc)⟩]
    by_cases hopening : opening <:+: r <;> simp [hopening]

theorem candidates_of_no_opening (h : ¬ opening <:+: s) : candidates s = [] := by
  induction s using stretch_induction with
  | stretch r hr => rw [candidates_of_stretch hr, if_neg h]
  | behind r c s hr hc ih =>
    rw [candidates_append_cons hc, candidates_of_stretch hr,
      if_neg fun hi => h (hi.trans (List.prefix_append r _).isInfix),
      ih fun hi => h (hi.trans ⟨r ++ [c], [], by simp⟩)]
    rfl

/-- Letters and digits with `erb` among them stand in one of the stretches. -/
theorem infix_iff_candidates {w : List Char} (hw : ∀ c ∈ w, isNameChar c = true)
    (hopening : opening <:+: w) : w <:+: s ↔ ∃ r ∈ candidates s, w <:+: r := by
  have hstretch (r : List Char) (hr : ∀ c ∈ r, isNameChar c = true) :
      w <:+: r ↔ ∃ r' ∈ candidates r, w <:+: r' := by
    rw [candidates_of_stretch hr]
    constructor
    · intro h
      exact ⟨r, by simp [hopening.trans h], h⟩
    · rintro ⟨r', hr', h⟩
      split at hr'
      · exact List.mem_singleton.1 hr' ▸ h
      · simp at hr'
  induction s using stretch_induction with
  | stretch r hr => exact hstretch r hr
  | behind r c s hr hc ih =>
    have hfree : c ∉ w := fun hmem => by simp [hw c hmem] at hc
    have hparts : (∃ r' ∈ candidates r ++ candidates s, w <:+: r') ↔ w <:+: r ∨ w <:+: s := by
      rw [hstretch r hr, show w <:+: s ↔ ∃ r' ∈ candidates s, w <:+: r' from ih]
      simp only [List.mem_append, or_and_right, exists_or]
    rw [candidates_append_cons hc, hparts]
    constructor
    · exact Text.infix_of_not_mem hfree
    · rintro (h | h)
      · exact h.trans (List.prefix_append r _).isInfix
      · exact h.trans ⟨r ++ [c], [], by simp⟩

/-- Texts in which all that may be, or may hold, a name or a word like one is the same. -/
def Threaded (s s' : List Char) : Prop :=
  ∀ (α : Type) (f : List Char → List α), Seamwise f → (∀ u, ¬ opening <:+: u → f u = []) →
    f s' = f s

theorem Seamwise.restored {f : List Char → List α} (hf : Seamwise f) (es : Entries) :
    Seamwise fun s => f (es.restore s) where
  nil := hf.nil
  split a c b hc := by
    rw [Entries.restore_append_cons a hc, hf.split _ c _ hc, Entries.restore_cons hc,
      Entries.restore_nil]
  blank c hc := by
    rw [Entries.restore_cons (isNameChar_of_isBlank hc), Entries.restore_nil, hf.blank c hc]

section Lookalikes

theorem lookalike_append_cons (hc : isNameChar c = false) (s t : List Char) :
    lookalike (s ++ c :: t) = lookalike s := by
  cases h : lookalike s with
  | none => exact lookalike_append hc t h
  | some p =>
    unfold lookalike at h
    split at h
    · rename_i u
      rw [List.cons_append, List.cons_append, List.cons_append, lookalike,
        Text.takeWhile_append_cons hc]
      have hshort := (List.takeWhile_prefix isNameChar (l := u)).length_le
      split at h
      · simp at h
      · rename_i d v hrun
        rw [hrun] at hshort
        split at h
        · rename_i n hn
          have hle := lastEnding_le hn
          rw [List.length_cons] at hshort
          rw [List.take_append_of_le_length (by omega)]
          exact h
        · simp at h
    · simp at h

theorem scan_lookalike_append_cons (hc : isNameChar c = false) (s t : List Char) :
    Text.scan lookalike (s ++ c :: t) =
      Text.scan lookalike s ++ .char c :: Text.scan lookalike t := by
  have hnone : lookalike (c :: t) = none := lookalike_append_cons hc [] t
  rw [← Text.scan_cons_of_none hnone]
  refine Text.scanFrom_append (Nat.zero_le _) fun d u _ => ⟨lookalike_append_cons hc (d :: u) t, ?_⟩
  intro w n hw
  obtain ⟨-, rfl, hp, -⟩ := lookalike_eq_some hw
  exact hp.length_le

theorem lookalike_of_no_opening (h : ¬ opening <:+: s) : lookalike s = none := by
  unfold lookalike
  split
  · rename_i u
    exact absurd ⟨[], u, rfl⟩ h
  · rfl

theorem scan_lookalike_of_no_opening (h : ¬ opening <:+: s) :
    Text.scan lookalike s = s.map .char := by
  induction s with
  | nil => rfl
  | cons c s ih =>
    rw [Text.scan_cons_of_none (lookalike_of_no_opening h),
      ih fun hi => h (hi.trans (List.suffix_cons c s).isInfix)]
    rfl

/-- In what a text restores to, the words that look like names are those that its names stand
for. -/
def Entries.Exact (es : Entries) (s : List Char) : Prop :=
  Text.scan lookalike (es.restore s) = (Text.scan es.read s).map Marked.forget

theorem Entries.exact_of_no_opening (h : ¬ opening <:+: s) : es.Exact s := by
  have hnone : es.namesIn s = [] := Entries.namesIn_of_no_opening h
  rw [Exact, restore_of_namesIn_nil hnone, scan_of_namesIn_nil hnone,
    scan_lookalike_of_no_opening h, List.map_map]
  rfl

variable (hes : ∀ e ∈ es, e.2 ≠ [])
include hes

theorem Entries.exact_append_cons (hc : isNameChar c = false) (a b : List Char) :
    es.Exact (a ++ c :: b) ↔ es.Exact a ∧ es.Exact b := by
  have hscan : Text.scan es.read (a ++ c :: b) =
      Text.scan es.read a ++ .char c :: Text.scan es.read b := by
    rw [scan_append (seam_of_head hc a), scan_cons hc]
  rw [Exact, restore_append_cons a hc, scan_lookalike_append_cons hc, hscan, List.map_append,
    List.map_cons]
  constructor
  · intro h
    have hfill : Found.fill id (Text.scan lookalike (es.restore a)) =
        Found.fill id ((Text.scan es.read a).map Marked.forget) := by
      rw [Marked.meant_map_forget]
      exact Text.fill_scan (fun s w n hr => ⟨(lookalike_eq_some hr).1, (lookalike_eq_some hr).2.1,
        (lookalike_eq_some hr).2.2.1⟩) _
    have hwords : ∀ w ∈ Found.values (Text.scan lookalike (es.restore a)) ++
        Found.values ((Text.scan es.read a).map Marked.forget), id w ≠ [] := by
      intro w hw
      rcases List.mem_append.1 hw with hw | hw
      · obtain ⟨t, n, -, hr⟩ := Text.mem_scan (Found.mem_values.1 hw)
        exact (lookalike_eq_some hr).1
      · rw [Marked.values_map_forget] at hw
        obtain ⟨e, he, rfl⟩ := List.mem_map.1 hw
        exact hes e (namesIn_mem e he)
    obtain ⟨ha, hb⟩ := Found.append_inj hwords h hfill
    exact ⟨ha, (List.cons.inj hb).2⟩
  · rintro ⟨ha, hb⟩
    rw [ha, hb]
    rfl

theorem Entries.exact_iff_candidates : es.Exact s ↔ ∀ r ∈ candidates s, es.Exact r := by
  have hstretch (r : List Char) (hr : ∀ c ∈ r, isNameChar c = true) :
      es.Exact r ↔ ∀ r' ∈ candidates r, es.Exact r' := by
    rw [candidates_of_stretch hr]
    split
    · simp
    · rename_i hopening
      simp [exact_of_no_opening hopening]
  induction s using stretch_induction with
  | stretch r hr => exact hstretch r hr
  | behind r c s hr hc ih =>
    rw [exact_append_cons hes hc, candidates_append_cons hc, List.forall_mem_append,
      hstretch r hr, show es.Exact s ↔ ∀ r' ∈ candidates s, es.Exact r' from ih]

end Lookalikes

namespace Threaded

variable (h : Threaded s s')
include h

theorem exact (hes : ∀ e ∈ es, e.2 ≠ []) (hs : es.Exact s) : es.Exact s' := by
  rw [Entries.exact_iff_candidates hes] at hs ⊢
  rwa [h _ _ seamwise_candidates fun _ => candidates_of_no_opening]

theorem namesIn (es : Entries) : es.namesIn s' = es.namesIn s :=
  h _ _ es.seamwise_namesIn fun _ hu => Entries.namesIn_of_no_opening hu

theorem restored (es : Entries) : Threaded (es.restore s) (es.restore s') :=
  fun α f hf hnil => h α _ (hf.restored es) fun u hu => by
    rw [Entries.restore_of_namesIn_nil (Entries.namesIn_of_no_opening hu), hnil u hu]

theorem infix_iff (n : Name) : n.text <:+: s' ↔ n.text <:+: s := by
  have hword : ∀ c ∈ n.text, isNameChar c = true := fun c hc => Name.isNameChar_of_mem hc
  rw [infix_iff_candidates hword n.opening_infix_text,
    infix_iff_candidates hword n.opening_infix_text,
    h _ _ seamwise_candidates fun _ => candidates_of_no_opening]

end Threaded

end ErbLayout.Placeholder
