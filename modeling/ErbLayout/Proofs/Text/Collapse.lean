import ErbLayout.Proofs.Text.Spread
/-!
Text in which every run of white space is one space. A single-spaced text is that within its words;
here the ends keep theirs.
-/

namespace ErbLayout.Text

/-- Every run of white space becomes one space, at the ends too. -/
def collapse : List Char → List Char
  | [] => []
  | c :: s =>
    if isBlank c then if startsBlank s then collapse s else ' ' :: collapse s else c :: collapse s

theorem collapse_cons_of_solid {c : Char} (hc : isBlank c = false) (s : List Char) :
    collapse (c :: s) = c :: collapse s := by
  rw [collapse, hc, if_neg (by simp)]

theorem collapse_cons_of_blank {c : Char} (hc : isBlank c = true) (s : List Char) :
    collapse (c :: s) = if startsBlank s then collapse s else ' ' :: collapse s := by
  rw [collapse, if_pos hc]

theorem mem_of_mem_collapse {c : Char} {s : List Char} (h : c ∈ collapse s) : c ∈ s ∨ c = ' ' := by
  induction s with
  | nil => simp [collapse] at h
  | cons d s ih =>
    have hlater : c ∈ collapse s → c ∈ d :: s ∨ c = ' ' := fun h =>
      (ih h).imp_left (List.mem_cons_of_mem d)
    rw [collapse] at h
    split at h
    · split at h
      · exact hlater h
      · exact (List.mem_cons.1 h).elim .inr hlater
    · exact (List.mem_cons.1 h).elim (fun h => .inl (h ▸ List.mem_cons_self)) hlater

@[simp] theorem startsBlank_collapse (s : List Char) : startsBlank (collapse s) = startsBlank s := by
  induction s with
  | nil => rfl
  | cons c s ih =>
    cases hc : isBlank c with
    | false =>
      rw [collapse_cons_of_solid hc]
      rfl
    | true =>
      rw [collapse_cons_of_blank hc, show startsBlank (c :: s) = true from hc]
      split
      · rename_i hs
        rw [ih, hs]
      · rfl

theorem collapse_eq_nil_iff {s : List Char} : collapse s = [] ↔ s = [] := by
  induction s with
  | nil => simp [collapse]
  | cons c s ih =>
    rw [collapse]
    split
    · split
      · rename_i hs
        rw [ih]
        constructor
        · rintro rfl
          simp [startsBlank] at hs
        · simp
      · simp
    · simp

theorem endsBlank_cons (c : Char) {s : List Char} (h : s ≠ []) : endsBlank (c :: s) = endsBlank s :=
  endsBlank_append (s := [c]) h

@[simp] theorem endsBlank_collapse (s : List Char) : endsBlank (collapse s) = endsBlank s := by
  induction s with
  | nil => rfl
  | cons c s ih =>
    by_cases hnil : s = []
    · subst hnil
      cases hc : isBlank c with
      | false => rw [collapse_cons_of_solid hc, collapse]
      | true =>
        rw [collapse_cons_of_blank hc, show endsBlank [c] = true from hc]
        rfl
    · have hne : collapse s ≠ [] := fun h => hnil (collapse_eq_nil_iff.1 h)
      rw [endsBlank_cons c hnil, ← ih, collapse]
      split
      · split
        · rfl
        · exact endsBlank_cons ' ' hne
      · exact endsBlank_cons c hne

theorem collapse_collapse (s : List Char) : collapse (collapse s) = collapse s := by
  induction s with
  | nil => rfl
  | cons c s ih =>
    cases hc : isBlank c with
    | false => rw [collapse_cons_of_solid hc, collapse_cons_of_solid hc, ih]
    | true =>
      rw [collapse_cons_of_blank hc]
      split
      · exact ih
      · rename_i hs
        rw [collapse_cons_of_blank isBlank_space, startsBlank_collapse, if_neg hs, ih]

theorem wordsFrom_collapse (cur s : List Char) : wordsFrom cur (collapse s) = wordsFrom cur s := by
  have hcut {c : Char} (hc : isBlank c = true) (cur t : List Char) :
      wordsFrom cur (c :: t) = wordsFrom cur [] ++ words t := wordsFrom_append_blank hc cur [] t
  induction s generalizing cur with
  | nil => rfl
  | cons c s ih =>
    cases hc : isBlank c with
    | false =>
      rw [collapse_cons_of_solid hc, wordsFrom, wordsFrom, hc, if_neg (by simp), if_neg (by simp), ih]
    | true =>
      rw [collapse_cons_of_blank hc, hcut hc]
      split
      · rename_i hs
        cases s with
        | nil => simp [startsBlank] at hs
        | cons d s => rw [ih, hcut hs, words_cons_blank hs]
      · rw [hcut isBlank_space, words, ih]
        rfl

@[simp] theorem words_collapse (s : List Char) : words (collapse s) = words s :=
  wordsFrom_collapse [] s

/-- In front of a word, the current word goes on, and white space is one space. -/
theorem joinWords_wordsFrom {y : List Char} (hy : Word y) (v : List Char) :
    (∀ cur ≠ [], joinWords (wordsFrom cur (v ++ y)) = cur.reverse ++ (collapse v ++ y)) ∧
      ∀ c, isBlank c = true → ' ' :: joinWords (words (v ++ y)) = collapse (c :: v) ++ y := by
  induction v with
  | nil =>
    refine ⟨fun cur hcur => ?_, fun c hc => ?_⟩
    · rw [List.nil_append, wordsFrom_of_solid hy.solid (.inl hcur)]
      rfl
    · rw [List.nil_append, words_of_word hy, collapse_cons_of_blank hc]
      rfl
  | cons d v ih =>
    refine ⟨fun cur hcur => ?_, fun c hc => ?_⟩
    · rw [List.cons_append, wordsFrom]
      cases hd : isBlank d with
      | false =>
        rw [if_neg (by simp), ih.1 _ (by simp), collapse_cons_of_solid hd]
        simp
      | true =>
        rw [if_pos rfl, if_neg (by simpa using hcur), ← ih.2 d hd]
        rcases hws : words (v ++ y) with _ | ⟨w, ws⟩
        · rw [words_eq_nil_iff] at hws
          obtain ⟨e, he⟩ := List.exists_mem_of_ne_nil y hy.ne_nil
          have hsolid := hy.solid e he
          rw [List.all_eq_true.1 hws e (List.mem_append_right v he)] at hsolid
          exact absurd hsolid (by simp)
        · rw [show wordsFrom [] (v ++ y) = w :: ws from hws]
          rfl
    · rw [collapse_cons_of_blank hc, List.cons_append, startsBlank]
      cases hd : isBlank d with
      | false =>
        rw [words, wordsFrom, hd, if_neg (by simp), ih.1 [d] (by simp), if_neg (by simp),
          collapse_cons_of_solid hd]
        rfl
      | true => rw [words_cons_blank hd, if_pos rfl, ih.2 d hd]

/-- A text between solid ends keeps them in its single-spaced form. -/
theorem normalize_between {x y : List Char} (hx : Word x) (hy : Word y) (v : List Char) :
    normalize (x ++ (v ++ y)) = x ++ (collapse v ++ y) := by
  rw [normalize, words, wordsFrom_solid_append hx.solid, List.append_nil,
    (joinWords_wordsFrom hy v).1 x.reverse (by simpa using hx.ne_nil), List.reverse_reverse]

/-- A text with white space at both ends. -/
structure Padded (s : List Char) : Prop where
  start : startsBlank s = true
  finish : endsBlank s = true

instance (s : List Char) : Decidable (Padded s) :=
  decidable_of_iff (startsBlank s = true ∧ endsBlank s = true)
    ⟨fun h => ⟨h.1, h.2⟩, fun h => ⟨h.start, h.finish⟩⟩

@[simp] theorem padded_collapse {s : List Char} : Padded (collapse s) ↔ Padded s :=
  ⟨fun h => ⟨startsBlank_collapse s ▸ h.start, endsBlank_collapse s ▸ h.finish⟩,
    fun h => ⟨(startsBlank_collapse s).trans h.start, (endsBlank_collapse s).trans h.finish⟩⟩

theorem words_append_of_endsBlank {s : List Char} (h : endsBlank s = true) (t : List Char) :
    words (s ++ t) = words s ++ words t := by
  rcases List.eq_nil_or_concat s with rfl | ⟨s, c, rfl⟩
  · rfl
  · rw [List.concat_eq_append] at h ⊢
    have hc : isBlank c = true := by rwa [endsBlank_append (by simp)] at h
    rw [List.append_assoc, List.singleton_append, words_append_blank hc, words_append_blank hc]
    simp [words_nil]

/-- Between white space a text in this form is its words. -/
theorem Padded.collapse_append {s y : List Char} (h : Padded s) (hy : Word y) :
    collapse s ++ y = ' ' :: joinWords (words s ++ [y]) := by
  cases s with
  | nil => exact absurd h.start (by simp [startsBlank])
  | cons c s =>
    have hc : isBlank c = true := h.start
    rw [← (joinWords_wordsFrom hy s).2 c hc, words_cons_blank hc]
    by_cases hs : s = []
    · subst hs
      rw [List.nil_append, words_of_word hy]
      rfl
    · rw [words_append_of_endsBlank (endsBlank_cons c hs ▸ h.finish), words_of_word hy]

theorem Padded.collapse_eq {s t : List Char} (hs : Padded s) (ht : Padded t)
    (h : words s = words t) : collapse s = collapse t := by
  have hy : Word ['x'] := ⟨by simp, List.forall_mem_singleton.2 (by decide)⟩
  refine (List.append_left_inj ['x']).1 ?_
  rw [hs.collapse_append hy, ht.collapse_append hy, h]

end ErbLayout.Text
