import ErbLayout.Layout.Wrap
/-!
The words of a text: they are its maximal solid stretches, so they hold all of it but its white
space. A wrapped text has the same words, put on lines one after another.
-/

namespace ErbLayout.Text

/-- A text without its white space. -/
def solid (s : List Char) : List Char := s.filter (!isBlank ·)

@[simp] theorem solid_nil : solid [] = [] := rfl

@[simp] theorem solid_append (s t : List Char) : solid (s ++ t) = solid s ++ solid t :=
  List.filter_append s t

theorem solid_of_allBlank {s : List Char} (h : allBlank s = true) : solid s = [] := by
  rw [solid, List.filter_eq_nil_iff]
  intro c hc
  simpa using List.all_eq_true.1 h c hc

section Stretches

variable {c : Char} {p : Char → Bool} (hc : p c = false) (s t : List Char)
include hc

theorem takeWhile_append_cons : (s ++ c :: t).takeWhile p = s.takeWhile p := by
  rw [List.takeWhile_append]
  split
  · rename_i hlen
    rw [List.takeWhile_cons_of_neg (by simp [hc]), List.append_nil,
      (List.takeWhile_prefix p).eq_of_length hlen]
  · rfl

theorem dropWhile_append_cons : (s ++ c :: t).dropWhile p = s.dropWhile p ++ c :: t := by
  rw [List.dropWhile_append]
  split
  · rename_i hnil
    rw [List.dropWhile_cons_of_neg (by simp [hc]), List.isEmpty_iff.1 hnil, List.nil_append]
  · rfl

end Stretches

/-- A text that begins and ends with angle brackets. -/
def Framed (s : List Char) : Prop := ∃ u, s = '<' :: u ++ ['>']

theorem Framed.length_pos {s : List Char} (h : Framed s) : 0 < s.length := by
  obtain ⟨u, rfl⟩ := h
  simp

/-- A word: something, and no white space in it. -/
structure Word (w : List Char) : Prop where
  ne_nil : w ≠ []
  solid : ∀ c ∈ w, isBlank c = false

theorem wordsFrom_flatten (cur s : List Char) :
    (wordsFrom cur s).flatten = cur.reverse ++ solid s := by
  fun_induction wordsFrom cur s with
  | case1 cur h => simp_all
  | case2 cur h => simp
  | case3 cur c s hc h ih => simp_all [solid]
  | case4 cur c s hc h ih => simp_all [solid]
  | case5 cur c s hc ih => simp_all [solid]

theorem flatten_words (s : List Char) : (words s).flatten = solid s := wordsFrom_flatten [] s

theorem wordsFrom_word {cur s w : List Char} (hcur : ∀ c ∈ cur, isBlank c = false)
    (h : w ∈ wordsFrom cur s) : Word w := by
  fun_induction wordsFrom cur s with
  | case1 cur hc => simp at h
  | case2 cur hc =>
    simp only [List.mem_singleton] at h
    subst h
    exact ⟨by simpa using hc, by simpa using hcur⟩
  | case3 cur c s hc he ih => exact ih (by simp) h
  | case4 cur c s hc he ih =>
    rcases List.mem_cons.1 h with rfl | h
    · exact ⟨by simpa using he, by simpa using hcur⟩
    · exact ih (by simp) h
  | case5 cur c s hc ih =>
    refine ih ?_ h
    intro d hd
    rcases List.mem_cons.1 hd with rfl | hd
    · simpa using hc
    · exact hcur d hd

theorem word_of_mem_words {s w : List Char} (h : w ∈ words s) : Word w :=
  wordsFrom_word (by simp) h

theorem solid_eq_nil_iff {s : List Char} : solid s = [] ↔ allBlank s = true := by
  simp [solid, allBlank]

theorem words_eq_nil_iff {s : List Char} : words s = [] ↔ allBlank s = true := by
  rw [← solid_eq_nil_iff, ← flatten_words]
  constructor
  · intro h
    rw [h, List.flatten_nil]
  · intro h
    rw [List.flatten_eq_nil_iff] at h
    rw [List.eq_nil_iff_forall_not_mem]
    intro w hw
    exact (word_of_mem_words hw).ne_nil (h w hw)

theorem words_of_allBlank {s : List Char} (h : allBlank s = true) : words s = [] :=
  words_eq_nil_iff.2 h

theorem wordsFrom_append_blank {c : Char} (hc : isBlank c = true) (cur s t : List Char) :
    wordsFrom cur (s ++ c :: t) = wordsFrom cur s ++ words t := by
  fun_induction wordsFrom cur s with
  | case1 cur h => simp [wordsFrom, hc, h, words]
  | case2 cur h => simp [wordsFrom, hc, h, words]
  | case3 cur d s hd h ih => simp [wordsFrom, hd, h, ih]
  | case4 cur d s hd h ih => simp [wordsFrom, hd, h, ih]
  | case5 cur d s hd ih => simp [wordsFrom, hd, ih]

/-- Words are cut at every white space. -/
theorem words_append_blank {c : Char} (hc : isBlank c = true) (s t : List Char) :
    words (s ++ c :: t) = words s ++ words t := wordsFrom_append_blank hc [] s t

theorem words_cons_blank {c : Char} (hc : isBlank c = true) (t : List Char) :
    words (c :: t) = words t := words_append_blank hc [] t

theorem words_append_of_startsBlank {s t : List Char} (h : startsBlank t = true) :
    words (s ++ t) = words s ++ words t := by
  cases t with
  | nil => simp [startsBlank] at h
  | cons c t => rw [words_append_blank h, words_cons_blank h]

theorem words_allBlank_append {s : List Char} (h : allBlank s = true) (t : List Char) :
    words (s ++ t) = words t := by
  induction s with
  | nil => rfl
  | cons c s ih =>
    simp only [allBlank, List.all_cons, Bool.and_eq_true] at h
    rw [List.cons_append, words_cons_blank h.1, ih h.2]

theorem words_append_allBlank (s : List Char) {t : List Char} (h : allBlank t = true) :
    words (s ++ t) = words s := by
  cases t with
  | nil => rw [List.append_nil]
  | cons c t =>
    simp only [allBlank, List.all_cons, Bool.and_eq_true] at h
    rw [words_append_blank h.1, words_of_allBlank h.2, List.append_nil]

theorem wordsFrom_of_solid {cur w : List Char} (h : ∀ c ∈ w, isBlank c = false)
    (hne : cur ≠ [] ∨ w ≠ []) : wordsFrom cur w = [cur.reverse ++ w] := by
  induction w generalizing cur with
  | nil => simpa [wordsFrom] using hne
  | cons c w ih =>
    have hc := h c List.mem_cons_self
    rw [wordsFrom, hc, if_neg (by simp),
      ih (fun d hd => h d (List.mem_cons_of_mem c hd)) (.inl (by simp))]
    simp

theorem words_of_word {w : List Char} (h : Word w) : words w = [w] :=
  wordsFrom_of_solid h.solid (.inr h.ne_nil)

theorem joinWords_cons_cons (w v : List Char) (vs : List (List Char)) :
    joinWords (w :: v :: vs) = w ++ ' ' :: joinWords (v :: vs) := rfl

theorem wordsFrom_solid_append {cur x : List Char} (h : ∀ c ∈ x, isBlank c = false)
    (s : List Char) : wordsFrom cur (x ++ s) = wordsFrom (x.reverse ++ cur) s := by
  induction x generalizing cur with
  | nil => rfl
  | cons c x ih =>
    rw [List.cons_append, wordsFrom, h c List.mem_cons_self, if_neg (by simp),
      ih fun d hd => h d (List.mem_cons_of_mem c hd)]
    simp

theorem exists_wordsFrom_append (cur s t : List Char) :
    ∃ ws cur', wordsFrom cur (s ++ t) = ws ++ wordsFrom cur' t := by
  induction s generalizing cur with
  | nil => exact ⟨[], cur, rfl⟩
  | cons c s ih =>
    rw [List.cons_append, wordsFrom]
    split
    · split
      · exact ih []
      · obtain ⟨ws, cur', h⟩ := ih []
        exact ⟨cur.reverse :: ws, cur', by rw [h]; rfl⟩
    · exact ih (c :: cur)

theorem wordsFrom_eq_cons (cur : List Char) (h : cur ≠ []) (s : List Char) :
    ∃ u ws, wordsFrom cur s = (cur.reverse ++ u) :: ws := by
  have hne {c : List Char} (hc : c ≠ []) : c.isEmpty = false := by simpa using hc
  induction s generalizing cur with
  | nil => exact ⟨[], [], by simp [wordsFrom, h]⟩
  | cons c s ih =>
    rw [wordsFrom]
    split
    · rw [hne h]
      exact ⟨[], wordsFrom [] s, by simp⟩
    · obtain ⟨u, ws, hu⟩ := ih (c :: cur) (by simp)
      exact ⟨c :: u, ws, by rw [hu]; simp⟩

/-- What holds no white space stands within one word. -/
theorem exists_word_around {x s : List Char} (hne : x ≠ []) (hx : ∀ c ∈ x, isBlank c = false)
    (h : x <:+: s) : ∃ w ∈ words s, x <:+: w := by
  obtain ⟨a, b, rfl⟩ := h
  obtain ⟨ws, cur, hws⟩ := exists_wordsFrom_append [] a (x ++ b)
  obtain ⟨u, vs, hvs⟩ := wordsFrom_eq_cons (x.reverse ++ cur) (by simp [hne]) b
  rw [wordsFrom_solid_append hx, hvs] at hws
  refine ⟨(x.reverse ++ cur).reverse ++ u, ?_, cur.reverse, u, by simp⟩
  rw [words, List.append_assoc, hws]
  simp

theorem normalize_of_word {w : List Char} (h : Word w) : normalize w = w := by
  rw [normalize, words_of_word h]
  rfl

theorem joinWords_append {ws vs : List (List Char)} (hws : ws ≠ []) (hvs : vs ≠ []) :
    joinWords (ws ++ vs) = joinWords ws ++ ' ' :: joinWords vs := by
  induction ws with
  | nil => exact absurd rfl hws
  | cons w ws ih =>
    cases ws with
    | nil =>
      cases vs with
      | nil => exact absurd rfl hvs
      | cons v vs => rfl
    | cons u us =>
      rw [List.cons_append, List.cons_append, joinWords_cons_cons, joinWords_cons_cons,
        ← List.cons_append, ih (by simp)]
      simp

theorem joinWords_flatten {groups : List (List (List Char))} (h : ∀ g ∈ groups, g ≠ []) :
    joinWords groups.flatten = joinWords (groups.map joinWords) := by
  induction groups with
  | nil => rfl
  | cons g gs ih =>
    have hgs : ∀ g ∈ gs, g ≠ [] := fun g' hg => h g' (List.mem_cons_of_mem g hg)
    cases gs with
    | nil => simp [joinWords]
    | cons g' gs =>
      have hne : (g' :: gs).flatten ≠ [] := by
        simp [hgs g' List.mem_cons_self]
      rw [List.flatten_cons, joinWords_append (h g List.mem_cons_self) hne, ih hgs]
      rfl

end ErbLayout.Text
