import Mathlib.Data.Finset.Card
import Mathlib.Data.List.TakeWhile
import ErbLayout.Proofs.Placeholder.Marked
/-!
A protection with names enough gives every stretch that it replaces a name of its own, which the
source does not spell out. Names that are drawn in an order of one's own are given out in that order,
as long as each is free.
-/

namespace ErbLayout.Placeholder

open Text (Found)

namespace Names

/-- The names that the turns left will draw. -/
def remaining (names : Names) : Finset Name :=
  (Finset.range names.left).image fun i => names.draw (names.turn + i)

/-- More than `count` names are still to be drawn. -/
def Ample (names : Names) (count : Nat) : Prop := count < names.remaining.card

/-- At least `count` names that are not taken are still to be drawn. -/
def Spare (names : Names) (taken : Name → Bool) (count : Nat) : Prop :=
  count ≤ (names.remaining.filter fun n => taken n = false).card

theorem ample_counting {left count : Nat} (h : count < left) (hleft : left < 2 ^ 128) :
    (counting left).Ample count := by
  have hinj : Set.InjOn (fun i => (counting left).draw ((counting left).turn + i))
      (Finset.range (counting left).left) := by
    intro i hi k hk he
    have hi' : i < left := by simpa [counting] using hi
    have hk' : k < left := by simpa [counting] using hk
    have hmod : (1 + i) % 2 ^ 128 = (1 + k) % 2 ^ 128 := congrArg BitVec.toNat he
    rw [Nat.mod_eq_of_lt (by omega), Nat.mod_eq_of_lt (by omega)] at hmod
    omega
  rw [Ample, remaining, Finset.card_image_of_injOn hinj, Finset.card_range]
  exact h

theorem remaining_succ (draw : Nat → Name) (turn left : Nat) :
    remaining ⟨draw, turn, left + 1⟩ = insert (draw turn) (remaining ⟨draw, turn + 1, left⟩) := by
  ext n
  simp only [remaining, Finset.mem_image, Finset.mem_range, Finset.mem_insert]
  constructor
  · rintro ⟨i, hi, rfl⟩
    cases i with
    | zero => exact .inl rfl
    | succ i => exact .inr ⟨i, by omega, by congr 1; omega⟩
  · rintro (rfl | ⟨i, hi, rfl⟩)
    · exact ⟨0, by omega, rfl⟩
    · exact ⟨i + 1, by omega, by congr 1; omega⟩

theorem freshFrom_spare {draw : Nat → Name} {taken : Name → Bool} {left turn count : Nat}
    (h : Spare ⟨draw, turn, left⟩ taken (count + 1)) :
    taken (freshFrom draw taken left turn).1 = false ∧
      Spare (freshFrom draw taken left turn).2
        (fun m => taken m || (freshFrom draw taken left turn).1 == m) count := by
  induction left generalizing turn with
  | zero => simp [Spare, remaining] at h
  | succ left ih =>
    rw [freshFrom]
    cases ht : taken (draw turn) with
    | true =>
      rw [if_pos rfl]
      refine ih ?_
      rw [Spare, remaining_succ, Finset.filter_insert, if_neg (by simp [ht])] at h
      exact h
    | false =>
      rw [if_neg (by simp)]
      refine ⟨ht, ?_⟩
      rw [Spare, remaining_succ, Finset.filter_insert, if_pos ht] at h
      have hcard := Finset.card_insert_le (draw turn)
        ((remaining ⟨draw, turn + 1, left⟩).filter fun n => taken n = false)
      have hsub : (((remaining ⟨draw, turn + 1, left⟩).filter fun n => taken n = false).erase
          (draw turn)) ⊆ (remaining ⟨draw, turn + 1, left⟩).filter
            fun m => (taken m || draw turn == m) = false := by
        intro m hm
        simp only [Finset.mem_erase, Finset.mem_filter] at hm ⊢
        refine ⟨hm.2.1, ?_⟩
        rw [hm.2.2, Bool.false_or, beq_eq_false_iff_ne]
        exact fun he => hm.1 he.symm
      have hle := Finset.card_le_card hsub
      by_cases hmem : draw turn ∈ (remaining ⟨draw, turn + 1, left⟩).filter
          fun n => taken n = false
      · rw [Finset.card_erase_of_mem hmem] at hle
        rw [Finset.insert_eq_of_mem hmem] at h
        exact Nat.le_trans (by omega) hle
      · rw [Finset.erase_eq_of_notMem hmem] at hle
        exact Nat.le_trans (by omega) hle

theorem fresh_spare {names : Names} {taken : Name → Bool} {count : Nat}
    (h : Spare names taken (count + 1)) :
    taken (names.fresh taken).1 = false ∧
      Spare (names.fresh taken).2 (fun m => taken m || (names.fresh taken).1 == m) count :=
  freshFrom_spare h

theorem Spare.congr {names : Names} {taken taken' : Name → Bool} {count : Nat}
    (h : Spare names taken count) (he : ∀ n, taken' n = taken n) : Spare names taken' count := by
  rw [show taken' = taken from funext he]
  exact h

theorem Spare.of_le {names : Names} {taken : Name → Bool} {count count' : Nat}
    (h : Spare names taken count) (hle : count' ≤ count) : Spare names taken count' :=
  Nat.le_trans hle h

theorem spare_of_ample {names : Names} {spelled : List Name} {count : Nat}
    (h : names.Ample (spelled.length + count)) : Spare names spelled.contains count := by
  have hsplit := Finset.card_filter_add_card_filter_not (s := names.remaining)
    (fun n => spelled.contains n = false)
  have hle : (names.remaining.filter fun n => ¬ spelled.contains n = false).card ≤
      spelled.length := by
    refine Nat.le_trans (Finset.card_le_card ?_) (List.toFinset_card_le spelled)
    intro n hn
    simpa using (Finset.mem_filter.1 hn).2
  unfold Ample at h
  unfold Spare
  omega

end Names

/-- A name that is taken or stands for something already. -/
def takenWith (taken : Name → Bool) (es : Entries) (n : Name) : Bool :=
  taken n || es.any (·.1 == n)

theorem takenWith_eq_false {taken : Name → Bool} {es : Entries} {n : Name} :
    takenWith taken es n = false ↔ taken n = false ∧ ∀ e ∈ es, e.1 ≠ n := by
  simp [takenWith]

theorem takenWith_append (taken : Name → Bool) (es : Entries) (e : Name × List Char) (n : Name) :
    takenWith taken (es ++ [e]) n = (takenWith taken es n || e.1 == n) := by
  simp [takenWith, Bool.or_assoc]

/-- Entries that stand for something under names of their own. -/
structure Own (taken : Name → Bool) (es new : Entries) : Prop where
  distinct : new.Pairwise fun e e' => e.1 ≠ e'.1
  free : ∀ e ∈ new, takenWith taken es e.1 = false

theorem Own.cons {taken : Name → Bool} {es new : Entries} {e : Name × List Char}
    (h : Own taken (es ++ [e]) new) (he : takenWith taken es e.1 = false) :
    Own taken es (e :: new) := by
  refine ⟨List.pairwise_cons.2 ⟨fun e' hmem => ?_, h.distinct⟩, fun e' hmem => ?_⟩
  · exact (takenWith_eq_false.1 (h.free e' hmem)).2 e (by simp)
  · rcases List.mem_cons.1 hmem with rfl | hmem
    · exact he
    · have hfree := h.free e' hmem
      rw [takenWith_append, Bool.or_eq_false_iff] at hfree
      exact hfree.1

theorem replaceFrom_value (taken : Name → Bool) (text : List Char)
    (fs : List (Found (List Char))) (es : Entries) (names : Names) :
    let drawn := names.fresh (takenWith taken es)
    let rest := replaceFrom taken fs (es ++ [(drawn.1, text)]) drawn.2
    replaceFrom taken (.value text :: fs) es names = (drawn.1.text ++ rest.1, rest.2) := rfl

theorem replaceFrom_marked (taken : Name → Bool) (fs : List (Found (List Char))) (es : Entries)
    (names : Names) : ∃ ms : Marked, (replaceFrom taken fs es names).1 = ms.written ∧
      (replaceFrom taken fs es names).2.1 = es ++ Found.values ms ∧
      ms.map Marked.forget = fs ∧
      ∀ count, names.Spare (takenWith taken es) ((Found.values ms).length + count) →
        Own taken es (Found.values ms) ∧
        (replaceFrom taken fs es names).2.2.Spare (takenWith taken (es ++ Found.values ms))
          count := by
  induction fs generalizing es names with
  | nil =>
    refine ⟨[], rfl, by simp [replaceFrom], rfl, fun count h => ⟨⟨.nil, by simp⟩, ?_⟩⟩
    simpa [replaceFrom] using h
  | cons f fs ih =>
    cases f with
    | char c =>
      obtain ⟨ms, hw, he, hf, hown⟩ := ih es names
      refine ⟨.char c :: ms, ?_, ?_, by rw [List.map_cons, hf]; rfl, ?_⟩
      · simp only [replaceFrom, hw]
        rfl
      · simp only [replaceFrom, he, Found.values_char]
      · intro count h
        simp only [replaceFrom, Found.values_char] at h ⊢
        exact hown count h
    | value text =>
      rw [replaceFrom_value]
      obtain ⟨ms, hw, he, hf, hown⟩ := ih (es ++ [((names.fresh (takenWith taken es)).1, text)])
        (names.fresh (takenWith taken es)).2
      refine ⟨.value ((names.fresh (takenWith taken es)).1, text) :: ms, ?_, ?_,
        by rw [List.map_cons, hf]; rfl, ?_⟩
      · rw [hw]
        rfl
      · rw [he]
        simp
      · intro count h
        have hspare : names.Spare (takenWith taken es) ((Found.values ms).length + count + 1) := by
          refine h.of_le ?_
          simp only [Found.values_value, List.length_cons]
          omega
        obtain ⟨hfree, hleft⟩ := Names.fresh_spare hspare
        obtain ⟨hown, hleft⟩ := hown count (hleft.congr (takenWith_append taken es _))
        exact ⟨hown.cons hfree, by simpa using hleft⟩

theorem lastEnding_le {k n : Nat} {s : List Char} (h : lastEnding k s = some n) :
    n ≤ k + s.length := by
  induction s generalizing k with
  | nil => simp [lastEnding] at h
  | cons c s ih =>
    rw [lastEnding] at h
    split at h
    · rename_i m hm
      cases h
      have := ih hm
      simp only [List.length_cons]
      omega
    · split at h
      · rename_i hp
        have hlen := (List.isPrefixOf_iff_prefix.1 hp).length_le
        cases h
        simp only [ending, List.length_cons, List.length_nil] at hlen ⊢
        omega
      · simp at h

theorem lookalike_eq_some {s w : List Char} {n : Nat} (h : lookalike s = some (w, n)) :
    w ≠ [] ∧ n = w.length ∧ w <+: s ∧ s.head? = some 'e' := by
  unfold lookalike at h
  split at h
  · rename_i s
    split at h
    · simp at h
    · rename_i c r hrun
      split at h
      · rename_i m hm
        simp only [Option.some.injEq, Prod.mk.injEq] at h
        obtain ⟨rfl, rfl⟩ := h
        have hle := lastEnding_le hm
        have hrun := congrArg List.length hrun
        have hshort := (List.takeWhile_prefix isNameChar (l := s)).length_le
        simp only [List.length_cons] at hrun
        refine ⟨by simp, ?_, ?_, rfl⟩
        · rw [List.length_cons, List.length_cons, List.length_cons, List.length_take]
          omega
        · simpa using List.take_prefix m s
      · simp at h
  · simp at h

theorem isBlank_of_isNameChar {c : Char} (h : isNameChar c = true) : isBlank c = false := by
  cases hc : isBlank c with
  | false => rfl
  | true =>
    simp only [isNameChar, Bool.or_eq_true, Bool.and_eq_true, decide_eq_true_eq, Char.le_def,
      UInt32.le_iff_toNat_le] at h
    simp only [isBlank, Bool.or_eq_true, Bool.and_eq_true, decide_eq_true_eq, beq_iff_eq] at hc
    change (97 ≤ c.toNat ∧ c.toNat ≤ 122) ∨ (48 ≤ c.toNat ∧ c.toNat ≤ 57) at h
    omega

theorem isNameChar_of_lookalike {s w : List Char} {n : Nat} (h : lookalike s = some (w, n)) :
    ∀ c ∈ w, isNameChar c = true := by
  intro c hc
  unfold lookalike at h
  split at h
  · rename_i s
    split at h
    · simp at h
    · rename_i d r hrun
      split at h
      · rename_i m hm
        simp only [Option.some.injEq, Prod.mk.injEq] at h
        obtain ⟨rfl, -⟩ := h
        have hle := lastEnding_le hm
        have hlen := congrArg List.length hrun
        simp only [List.length_cons] at hlen
        have htake : s.take m <+: s.takeWhile isNameChar :=
          List.prefix_of_prefix_length_le (List.take_prefix m s) (List.takeWhile_prefix _)
            (by rw [List.length_take]; omega)
        simp only [List.mem_cons] at hc
        rcases hc with rfl | rfl | rfl | hc
        · decide
        · decide
        · decide
        · exact List.mem_takeWhile_imp (htake.subset hc)
      · simp at h
  · simp at h

theorem word_of_lookalike {s w : List Char} {n : Nat} (h : lookalike s = some (w, n)) :
    Text.Word w :=
  ⟨(lookalike_eq_some h).1, fun c hc => isBlank_of_isNameChar (isNameChar_of_lookalike h c hc)⟩

theorem fill_tagsOf (s : List Char) : Found.fill id (tagsOf s) = s := by
  have hread : ∀ t p n, Erb.Tag.read t = some (p, n) →
      p.2 ≠ [] ∧ n = p.2.length ∧ p.2 <+: t := by
    intro t p n h
    obtain ⟨inside, hw, -, -, hn, hp⟩ := Erb.Tag.read_eq_some h
    exact ⟨by rw [hw]; simp, hn, hp⟩
  have hfill : Found.fill id (tagsOf s) = Found.fill Prod.snd (Text.scan Erb.Tag.read s) := by
    unfold tagsOf
    induction Text.scan Erb.Tag.read s with
    | nil => rfl
    | cons f fs ih =>
      cases f with
      | char c => exact congrArg _ ih
      | value p => exact congrArg _ ih
  exact hfill.trans (Text.fill_scan hread s)

theorem length_values_tagsOf_le (s : List Char) :
    (Found.values (tagsOf s)).length ≤ s.countP (· == '<') := by
  have hhead : ∀ c s p n, Erb.Tag.read (c :: s) = some (p, n) → (c == '<') = true := by
    intro c s p n h
    obtain ⟨-, -, -, -, -, t, ht⟩ := Erb.Tag.read_eq_some h
    obtain ⟨u, hu⟩ := Erb.Tag.framed_of_read h
    rw [hu] at ht
    simp only [List.cons_append, List.cons.injEq] at ht
    exact beq_iff_eq.2 ht.1.symm
  refine Nat.le_trans (Nat.le_of_eq ?_) (Text.length_values_scanFrom_le hhead 0 s)
  unfold tagsOf Text.scan
  induction Text.scanFrom Erb.Tag.read 0 s with
  | nil => rfl
  | cons f fs ih => cases f <;> simpa using ih

theorem length_occurrences_le (s : List Char) : (Name.occurrences s).length ≤ s.length := by
  induction s with
  | nil => exact Nat.le_refl _
  | cons c s ih =>
    rw [Name.occurrences]
    split
    · exact Nat.succ_le_succ ih
    · exact Nat.le_succ_of_le ih

theorem Marked.countP_written_le (ms : Marked) :
    ms.written.countP (· == '<') ≤ ms.meant.countP (· == '<') := by
  induction ms with
  | nil => exact Nat.le_refl _
  | cons f ms ih =>
    cases f with
    | char c =>
      change (c :: written ms).countP _ ≤ (c :: meant ms).countP _
      rw [List.countP_cons, List.countP_cons]
      omega
    | value e =>
      change (e.1.text ++ written ms).countP _ ≤ (e.2 ++ meant ms).countP _
      have hnone : e.1.text.countP (· == '<') = 0 := by
        rw [List.countP_eq_zero]
        intro c hc he
        have hname := Name.isNameChar_of_mem hc
        rw [beq_iff_eq.1 he] at hname
        exact absurd hname (by decide)
      rw [List.countP_append, List.countP_append, hnone]
      omega

/-- A template in which first the words like names and then the ERB tags are marked. -/
structure Marking (names : Names) (source : List Char) (ws ts : Marked) : Prop where
  plain : ws.meant = source
  found : ws.map Marked.forget = Text.scan lookalike source
  shielded : ts.meant = ws.written
  tagged : ts.map Marked.forget = tagsOf ws.written
  working : (protect names source).working = ts.written
  lookalikes : (protect names source).table.lookalikes = Found.values ws
  codeTags : (protect names source).table.codeTags = Found.values ts
  words : ws.Faithful
  tags : ts.Faithful

theorem meant_of_lookalikes {source : List Char} {ws : Marked}
    (h : ws.map Marked.forget = Text.scan lookalike source) : ws.meant = source := by
  rw [← Marked.meant_map_forget, h]
  refine Text.fill_scan (fun s a n hr => ?_) source
  obtain ⟨hne, hn, hp, -⟩ := lookalike_eq_some hr
  exact ⟨hne, hn, hp⟩

theorem length_values_lookalikes_le {source : List Char} {ws : Marked}
    (h : ws.map Marked.forget = Text.scan lookalike source) :
    (Found.values ws).length ≤ source.length := by
  rw [← Marked.length_values_map_forget, h]
  refine Nat.le_trans (Text.length_values_scanFrom_le (p := (· == 'e')) ?_ 0 source)
    List.countP_le_length
  intro c s a n hr
  simpa using (lookalike_eq_some hr).2.2.2

theorem length_values_tags_le {ws ts : Marked} (h : ts.map Marked.forget = tagsOf ws.written) :
    (Found.values ts).length ≤ ws.meant.length := by
  rw [← Marked.length_values_map_forget, h]
  exact Nat.le_trans (length_values_tagsOf_le _)
    (Nat.le_trans ws.countP_written_le List.countP_le_length)

theorem not_infix_of_not_occurs {source : List Char} {n : Name}
    (h : (Name.occurrences source).contains n = false) : ¬ n.text <:+: source := by
  intro hi
  rw [List.contains_eq_mem, decide_eq_false_iff_not, Name.mem_occurrences] at h
  exact h hi

/-- A template whose marks stand for what its two scans find, under names that it does not spell. -/
structure Marks (source : List Char) (ws ts : Marked) : Prop where
  found : ws.map Marked.forget = Text.scan lookalike source
  tagged : ts.map Marked.forget = tagsOf ws.written
  distinct : (Found.values ws ++ Found.values ts).Pairwise fun e e' => e.1 ≠ e'.1
  fresh : ∀ e ∈ Found.values ws ++ Found.values ts, ¬ e.1.text <:+: source

theorem Marks.marking_of {names : Names} {source : List Char} {ws ts : Marked}
    (h : Marks source ws ts)
    (hworking : (protect names source).working = ts.written)
    (hlooks : (protect names source).table.lookalikes = Found.values ws)
    (htags : (protect names source).table.codeTags = Found.values ts) :
    Marking names source ws ts := by
  obtain ⟨hws, hts, hcross⟩ := List.pairwise_append.1 h.distinct
  have hmeant := meant_of_lookalikes h.found
  have hshielded : ts.meant = ws.written := by
    rw [← Marked.meant_map_forget, h.tagged, fill_tagsOf]
  refine ⟨hmeant, h.found, hshielded, h.tagged, hworking, hlooks, htags, ⟨hws, fun e he => ?_⟩,
    ⟨hts, fun e he hi => ?_⟩⟩
  · rw [hmeant]
    exact h.fresh e (List.mem_append_left _ he)
  · rw [hshielded] at hi
    rcases Marked.infix_written hi with ⟨e', he', hn⟩ | hm
    · exact hcross e' he' e he hn
    · rw [hmeant] at hm
      exact h.fresh e (List.mem_append_right _ he) hm

/-- A protection with names enough marks what it replaces, under names of its own. -/
theorem exists_marks {names : Names} {source : List Char} (h : names.Ample (3 * source.length)) :
    ∃ ws ts, Marks source ws ts ∧ Marking names source ws ts := by
  obtain ⟨ws, hw, he, hf, hown⟩ := replaceFrom_marked (Name.occurrences source).contains
    (Text.scan lookalike source) [] names
  obtain ⟨ts, hw', he', hf', hown'⟩ := replaceFrom_marked (shieldTaken names source)
    (tagsOf ws.written) [] (shield names source).2.2
  rw [List.nil_append] at he he'
  have hspare : names.Spare (takenWith (Name.occurrences source).contains [])
      ((Found.values ws).length + (Found.values ts).length) := by
    have hspelled := length_occurrences_le source
    have hwords := length_values_lookalikes_le hf
    have htags := length_values_tags_le hf'
    rw [meant_of_lookalikes hf] at htags
    have hample : names.Ample ((Name.occurrences source).length +
        ((Found.values ws).length + (Found.values ts).length)) := by
      unfold Names.Ample at h ⊢
      omega
    exact (Names.spare_of_ample hample).congr fun n => by simp [takenWith]
  obtain ⟨⟨hdist, hfree⟩, hleft⟩ := hown _ hspare
  have hspare' : (shield names source).2.2.Spare (takenWith (shieldTaken names source) [])
      ((Found.values ts).length + 0) := by
    refine Names.Spare.congr (hleft.of_le (Nat.le_of_eq (Nat.add_zero _))) ?_
    intro n
    simp only [takenWith, shieldTaken, shield, he, List.any_nil, Bool.or_false, List.nil_append]
    exact Bool.or_comm _ _
  obtain ⟨⟨hdist', hfree'⟩, -⟩ := hown' 0 hspare'
  have hnew (e : Name × List Char) (hmem : e ∈ Found.values ts) :
      (∀ e' ∈ Found.values ws, e'.1 ≠ e.1) ∧ (Name.occurrences source).contains e.1 = false := by
    have htaken := (takenWith_eq_false.1 (hfree' e hmem)).1
    simpa [shieldTaken, shield, he] using htaken
  have hmarks : Marks source ws ts := by
    refine ⟨hf, hf', List.pairwise_append.2 ⟨hdist, hdist', fun e hmem e' hmem' => ?_⟩,
      fun e hmem => not_infix_of_not_occurs ?_⟩
    · exact (hnew e' hmem').1 e hmem
    · rcases List.mem_append.1 hmem with hmem | hmem
      · exact (takenWith_eq_false.1 (hfree e hmem)).1
      · exact (hnew e hmem).2
  refine ⟨ws, ts, hmarks, hmarks.marking_of ?_ he ?_⟩
  · rw [protect_eq, ← hw']
    change (replaceFrom _ (tagsOf (replaceFrom _ _ _ _).1) _ _).1 = _
    rw [hw]
  · rw [protect_eq]
    change (replaceFrom _ (tagsOf (replaceFrom _ _ _ _).1) _ _).2.1 = _
    rw [hw, he']

theorem exists_marking {names : Names} {source : List Char}
    (h : names.Ample (3 * source.length)) : ∃ ws ts, Marking names source ws ts := by
  obtain ⟨ws, ts, -, hm⟩ := exists_marks h
  exact ⟨ws, ts, hm⟩

variable {taken : Name → Bool} {ms ws ts : Marked} {es : Entries} {e : Name × List Char}
variable {names : Names} {source : List Char}

/-- The names of a list first, then those of `names`. -/
def Names.behind (ns : List Name) (names : Names) : Names where
  draw i := (ns[i]?).getD (names.draw (names.turn + (i - ns.length)))
  turn := 0
  left := ns.length + names.left

theorem Names.Ample.behind {count : Nat} (h : names.Ample count) (ns : List Name) :
    (Names.behind ns names).Ample count := by
  refine Nat.lt_of_lt_of_le h (Finset.card_le_card fun n hn => ?_)
  obtain ⟨i, hi, rfl⟩ := Finset.mem_image.1 hn
  rw [Finset.mem_range] at hi
  refine Finset.mem_image.2 ⟨ns.length + i, ?_, ?_⟩
  · rw [Finset.mem_range]
    exact Nat.add_lt_add_left hi _
  · simp [Names.behind]

/-- The names drawn next are those of the entries, in order. -/
structure Names.Offers (names : Names) (es : Entries) : Prop where
  left : es.length ≤ names.left
  draw : ∀ i e, es[i]? = some e → names.draw (names.turn + i) = e.1

/-- The names that are left after some turns. -/
def Names.after (names : Names) (count : Nat) : Names :=
  ⟨names.draw, names.turn + count, names.left - count⟩

theorem Names.after_add (names : Names) (m n : Nat) :
    (names.after m).after n = names.after (m + n) := by
  simp only [Names.after, Nat.add_assoc, Nat.sub_sub]

namespace Names.Offers

theorem fresh (h : names.Offers (e :: es)) (hfree : taken e.1 = false) :
    names.fresh taken = (e.1, names.after 1) := by
  obtain ⟨draw, turn, left⟩ := names
  have hdraw : draw turn = e.1 := h.draw 0 e rfl
  cases left with
  | zero => exact absurd h.left (by simp)
  | succ left =>
    have htaken : taken (draw turn) ≠ true := by simp [hdraw, hfree]
    exact (if_neg htaken).trans (Prod.ext hdraw rfl)

theorem append {es' : Entries} (h : names.Offers (es ++ es')) :
    names.Offers es ∧ (names.after es.length).Offers es' := by
  have hleft := h.left
  rw [List.length_append] at hleft
  refine ⟨⟨by omega, fun i e hi => h.draw i e ?_⟩, ⟨?_, fun i e hi => ?_⟩⟩
  · rw [List.getElem?_append_left (List.getElem?_eq_some_iff.1 hi).1, hi]
  · simp only [Names.after]
    omega
  · have hdraw := h.draw (es.length + i) e (by
      rw [List.getElem?_append_right (Nat.le_add_right _ _), Nat.add_sub_cancel_left, hi])
    rwa [← Nat.add_assoc] at hdraw

theorem behind (es : Entries) (names : Names) :
    (Names.behind (es.map Prod.fst) names).Offers es := by
  refine ⟨by simp [Names.behind], fun i e hi => ?_⟩
  simp [Names.behind, hi]

end Names.Offers

theorem replaceFrom_offered (h : names.Offers (Found.values ms))
    (hown : Own taken es (Found.values ms)) :
    replaceFrom taken (ms.map Marked.forget) es names =
      (ms.written, es ++ Found.values ms, names.after (Found.values ms).length) := by
  induction ms generalizing es names with
  | nil => simp [replaceFrom, Names.after, Marked.written]
  | cons f ms ih =>
    cases f with
    | char c =>
      rw [List.map_cons, Marked.forget, replaceFrom, ih h hown]
      rfl
    | value e =>
      obtain ⟨hdistinct, hfree⟩ := hown
      rw [Found.values_value] at h hdistinct hfree ⊢
      obtain ⟨he, hes⟩ := List.forall_mem_cons.1 hfree
      obtain ⟨hfirst, hrest⟩ := List.pairwise_cons.1 hdistinct
      have hown' : Own taken (es ++ [e]) (Found.values ms) := by
        refine ⟨hrest, fun e' he' => ?_⟩
        rw [takenWith_append, hes e' he', Bool.false_or, beq_eq_false_iff_ne]
        exact hfirst e' he'
      have hoffers : (names.after 1).Offers (Found.values ms) :=
        (show names.Offers ([e] ++ Found.values ms) from h).append.2
      rw [List.map_cons, Marked.forget, replaceFrom_value, h.fresh he]
      dsimp only
      rw [ih hoffers hown', Names.after_add, List.length_cons, Nat.add_comm 1, List.append_assoc]
      rfl

/-- When the names of the marks are drawn, the template is protected by these marks. -/
theorem Marks.marking (h : Marks source ws ts)
    (hnames : names.Offers (Found.values ws ++ Found.values ts)) :
    Marking names source ws ts := by
  obtain ⟨hws, hts, hcross⟩ := List.pairwise_append.1 h.distinct
  obtain ⟨hoffers, hoffers'⟩ := hnames.append
  have hspelled {e : Name × List Char} (he : e ∈ Found.values ws ++ Found.values ts) :
      (Name.occurrences source).contains e.1 = false := by
    rw [List.contains_eq_mem, decide_eq_false_iff_not, Name.mem_occurrences]
    exact h.fresh e he
  have hshield : shield names source =
      (ws.written, Found.values ws, names.after (Found.values ws).length) := by
    rw [shield, ← h.found, replaceFrom_offered hoffers ⟨hws, fun e he => ?_⟩]
    · rfl
    · exact takenWith_eq_false.2 ⟨hspelled (List.mem_append_left _ he), by simp⟩
  have hprotect : protect names source = ⟨ts.written, ⟨source, Found.values ts, Found.values ws⟩,
      (names.after (Found.values ws).length).after (Found.values ts).length⟩ := by
    rw [protect_eq, hshield]
    dsimp only
    rw [← h.tagged, replaceFrom_offered hoffers' ⟨hts, fun e he => ?_⟩]
    · rfl
    · refine takenWith_eq_false.2 ⟨?_, by simp⟩
      rw [shieldTaken, hshield, hspelled (List.mem_append_right _ he), Bool.or_false]
      exact List.any_eq_false.2 fun e' he' => by simpa using hcross e' he' e he
  exact h.marking_of (by rw [hprotect]) (by rw [hprotect]) (by rw [hprotect])

end ErbLayout.Placeholder
