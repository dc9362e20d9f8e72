import Mathlib.Data.List.Forall2
import Mathlib.Data.List.TakeWhile
import ErbLayout.Proofs.Text.Words
/-!
A text as a sequence of stretches with white space between them, or none. What is kept of the white
space is whether there is any.
-/

namespace ErbLayout.Text

variable {α β : Type}

/-- Stretches of text, each behind the white space before it. -/
def spread (ps : List (List Char × List Char)) : List Char := ps.flatMap fun p => p.1 ++ p.2

@[simp] theorem spread_nil : spread [] = [] := rfl

@[simp] theorem spread_cons (p : List Char × List Char) (ps : List (List Char × List Char)) :
    spread (p :: ps) = p.1 ++ p.2 ++ spread ps := rfl

@[simp] theorem spread_append (ps qs : List (List Char × List Char)) :
    spread (ps ++ qs) = spread ps ++ spread qs := List.flatMap_append

/-- A stretch that stands for an item: its text, with white space before it when the item is to
stand apart. -/
structure Stands (item : Bool × List Char) (p : List Char × List Char) : Prop where
  text : p.2 = item.2
  blank : allBlank p.1 = true
  apart : item.1 = true ↔ p.1 ≠ []

/-- A text consists of the items, in order, and white space; `apart` says whether white space ends
it. -/
def Reads (items : List (Bool × List Char)) (apart : Bool) (s : List Char) : Prop :=
  ∃ ps tail, List.Forall₂ Stands items ps ∧ s = spread ps ++ tail ∧ allBlank tail = true ∧
    (apart = true ↔ tail ≠ [])

theorem allBlank_append (s t : List Char) : allBlank (s ++ t) = (allBlank s && allBlank t) :=
  List.all_append

theorem reads_nil : Reads [] false [] := ⟨[], [], .nil, rfl, rfl, by simp⟩

theorem Reads.snoc {items : List (Bool × List Char)} {apart : Bool} {s : List Char}
    (h : Reads items apart s) (x : List Char) : Reads (items ++ [(apart, x)]) false (s ++ x) := by
  obtain ⟨ps, tail, hps, rfl, hblank, hapart⟩ := h
  exact ⟨ps ++ [(tail, x)], [], List.rel_append hps (.cons ⟨rfl, hblank, hapart⟩ .nil), by simp, rfl,
    by simp⟩

theorem Reads.append {items items' : List (Bool × List Char)} {apart : Bool} {s s' : List Char}
    (h : Reads items false s) (h' : Reads items' apart s') :
    Reads (items ++ items') apart (s ++ s') := by
  obtain ⟨ps, tail, hps, rfl, -, hnone⟩ := h
  obtain ⟨ps', tail', hps', rfl, hblank, hapart⟩ := h'
  have htail : tail = [] := by simpa using hnone
  exact ⟨ps ++ ps', tail', List.rel_append hps hps', by simp [htail], hblank, hapart⟩

/-- The words of a text; all but the first stand apart in any case. -/
def wordItems (s : List Char) : List (Bool × List Char) :=
  match words s with
  | [] => []
  | w :: ws => (startsBlank s, w) :: ws.map fun v => (true, v)

theorem exists_mem_of_forall₂ {R : α → β → Prop} {as : List α} {bs : List β}
    (h : List.Forall₂ R as bs) {a : α} (ha : a ∈ as) : ∃ b ∈ bs, R a b := by
  induction h with
  | nil => simp at ha
  | cons hr _ ih =>
    rcases List.mem_cons.1 ha with rfl | ha
    · exact ⟨_, List.mem_cons_self, hr⟩
    · obtain ⟨b, hb, hr'⟩ := ih ha
      exact ⟨b, List.mem_cons_of_mem _ hb, hr'⟩

theorem startsBlank_of_allBlank {s : List Char} (h : allBlank s = true) (hne : s ≠ []) :
    startsBlank s = true := by
  cases s with
  | nil => exact absurd rfl hne
  | cons c s =>
    simp only [allBlank, List.all_cons, Bool.and_eq_true] at h
    exact h.1

theorem endsBlank_of_allBlank {s : List Char} (h : allBlank s = true) (hne : s ≠ []) :
    endsBlank s = true :=
  startsBlank_of_allBlank (by simpa [allBlank] using h) (by simpa using hne)

theorem allBlank_of_startsBlank {s : List Char} (hne : s ≠ []) (h : startsBlank s = false) :
    allBlank s = false := by
  cases hb : allBlank s with
  | false => rfl
  | true =>
    rw [startsBlank_of_allBlank hb hne] at h
    exact absurd h (by simp)

theorem allBlank_of_endsBlank {s : List Char} (hne : s ≠ []) (h : endsBlank s = false) :
    allBlank s = false := by
  cases hb : allBlank s with
  | false => rfl
  | true =>
    rw [endsBlank_of_allBlank hb hne] at h
    exact absurd h (by simp)

theorem endsBlank_append {s t : List Char} (h : t ≠ []) : endsBlank (s ++ t) = endsBlank t := by
  rcases List.eq_nil_or_concat t with rfl | ⟨t, c, rfl⟩
  · exact absurd rfl h
  · simp [endsBlank, startsBlank]

theorem startsBlank_append {s t : List Char} (h : s ≠ []) :
    startsBlank (s ++ t) = startsBlank s := by
  cases s with
  | nil => exact absurd rfl h
  | cons c s => rfl

theorem Word.startsBlank {w : List Char} (h : Word w) : startsBlank w = false := by
  cases w with
  | nil => rfl
  | cons c w => exact h.solid c List.mem_cons_self

theorem Word.endsBlank {w : List Char} (h : Word w) : endsBlank w = false :=
  Word.startsBlank (w := w.reverse) ⟨by simpa using h.ne_nil, by simpa using h.solid⟩

theorem trimLeft_eq_self {s : List Char} (h : startsBlank s = false) : trimLeft s = s := by
  cases s with
  | nil => rfl
  | cons c s => rw [trimLeft, List.dropWhile_cons_of_neg (by rw [show isBlank c = false from h]; simp)]

theorem trimRight_eq_self {s : List Char} (h : endsBlank s = false) : trimRight s = s := by
  rw [trimRight, show s.reverse.dropWhile isBlank = s.reverse from trimLeft_eq_self h,
    List.reverse_reverse]

theorem trim_eq_self {s : List Char} (h : startsBlank s = false) (h' : endsBlank s = false) :
    trim s = s := by
  rw [trim, trimLeft_eq_self h, trimRight_eq_self h']

theorem exists_first_word {s : List Char} (h : allBlank s = false) :
    ∃ b w t, s = b ++ (w ++ t) ∧ allBlank b = true ∧ Word w ∧ (t = [] ∨ startsBlank t = true) := by
  have hne : s.dropWhile isBlank ≠ [] := by
    intro hnil
    rw [List.dropWhile_eq_nil_iff] at hnil
    rw [show allBlank s = true from List.all_eq_true.2 hnil] at h
    exact absurd h (by simp)
  rcases hd : s.dropWhile isBlank with _ | ⟨c, r⟩
  · exact absurd hd hne
  have hc : isBlank c = false := not_isBlank_head_trimLeft hd
  refine ⟨s.takeWhile isBlank, (c :: r).takeWhile (!isBlank ·), (c :: r).dropWhile (!isBlank ·),
    ?_, ?_, ⟨?_, ?_⟩, ?_⟩
  · rw [List.takeWhile_append_dropWhile, ← hd, List.takeWhile_append_dropWhile]
  · exact List.all_eq_true.2 fun d hmem => List.mem_takeWhile_imp hmem
  · rw [List.takeWhile_cons_of_pos (by simp [hc])]
    simp
  · intro d hmem
    simpa using List.mem_takeWhile_imp hmem
  · rcases ht : (c :: r).dropWhile (!isBlank ·) with _ | ⟨d, t⟩
    · exact .inl rfl
    · have hhead := List.head_dropWhile_not (p := (!isBlank ·)) (l := c :: r) (by rw [ht]; simp)
      simp only [ht, List.head_cons, Bool.not_eq_false'] at hhead
      exact .inr hhead

theorem words_of_first {b w t : List Char} (hb : allBlank b = true) (hw : Word w)
    (ht : t = [] ∨ startsBlank t = true) : words (b ++ (w ++ t)) = w :: words t := by
  rw [words_allBlank_append hb]
  rcases ht with rfl | ht
  · rw [List.append_nil, words_of_word hw]
    rfl
  · rw [words_append_of_startsBlank ht, words_of_word hw]
    rfl

theorem reads_words (s : List Char) : Reads (wordItems s) (endsBlank s) s := by
  by_cases hb : allBlank s = true
  · refine ⟨[], s, ?_, rfl, hb, ?_⟩
    · rw [wordItems, words_of_allBlank hb]
      exact .nil
    · constructor
      · rintro h rfl
        simp [endsBlank, startsBlank] at h
      · exact endsBlank_of_allBlank hb
  · obtain ⟨b, w, t, rfl, hbb, hw, ht⟩ := exists_first_word (by simpa using hb)
    have hwords := words_of_first hbb hw ht
    have hstart : startsBlank (b ++ (w ++ t)) = true ↔ b ≠ [] := by
      constructor
      · rintro h rfl
        rw [List.nil_append, startsBlank_append hw.ne_nil, hw.startsBlank] at h
        exact absurd h (by simp)
      · intro hne
        rw [startsBlank_append hne, startsBlank_of_allBlank hbb hne]
    have hfirst : Reads [(startsBlank (b ++ (w ++ t)), w)] false (b ++ w) :=
      ⟨[(b, w)], [], .cons ⟨rfl, hbb, hstart⟩ .nil, by simp, rfl, by simp⟩
    rcases ht with rfl | ht
    · have hend : endsBlank (b ++ (w ++ [])) = false := by
        rw [List.append_nil, endsBlank_append hw.ne_nil, hw.endsBlank]
      rw [hend, wordItems, hwords]
      simpa [words_nil] using hfirst
    · have htne : t ≠ [] := by
        rintro rfl
        simp [startsBlank] at ht
      have hrest := reads_words t
      have hitems : wordItems t = (words t).map fun v => (true, v) := by
        rw [wordItems, ht]
        cases words t <;> rfl
      rw [endsBlank_append (by simp [htne]), endsBlank_append htne, wordItems, hwords,
        ← List.append_assoc]
      rw [hitems] at hrest
      simpa using hfirst.append hrest
termination_by s.length
decreasing_by
  have hpos := List.length_pos_iff.2 hw.ne_nil
  subst_vars
  simp only [List.length_append]
  omega

theorem infix_of_mem_words {s w : List Char} (h : w ∈ words s) : w <:+: s := by
  obtain ⟨ps, tail, hps, rfl, -⟩ := reads_words s
  have hmem : ∃ a, (a, w) ∈ wordItems (spread ps ++ tail) := by
    unfold wordItems
    split
    · rename_i hnil
      rw [hnil] at h
      simp at h
    · rename_i v vs hws
      rw [hws] at h
      rcases List.mem_cons.1 h with rfl | h
      · exact ⟨_, List.mem_cons_self⟩
      · exact ⟨true, List.mem_cons_of_mem _ (List.mem_map.2 ⟨w, h, rfl⟩)⟩
  obtain ⟨a, hmem⟩ := hmem
  obtain ⟨p, hp, hstands⟩ := exists_mem_of_forall₂ hps hmem
  obtain ⟨qs, rs, rfl⟩ := List.append_of_mem hp
  refine ⟨spread qs ++ p.1, spread rs ++ tail, ?_⟩
  have htext : p.2 = w := hstands.text
  rw [spread_append, spread_cons, htext]
  simp

end ErbLayout.Text
