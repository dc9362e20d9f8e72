import ErbLayout.Proofs.Erb.Reading
import ErbLayout.Proofs.Placeholder.Seams
import ErbLayout.Proofs.Text.Lines
/-!
Entries that stand for words of letters and digits. What such words restore to has the white space
and the punctuation of the text that they are restored in, so its words and its ERB tags are those of
that text, each restored.
-/

namespace ErbLayout.Placeholder

open Text (Found Word allBlank startsBlank endsBlank words)

/-- Entries that stand for words of lower-case letters and digits. -/
def Entries.Plain (es : Entries) : Prop := ∀ e ∈ es, e.2 ≠ [] ∧ ∀ c ∈ e.2, isNameChar c = true

theorem plain_lookalikes (names : Names) (source : List Char) :
    (protect names source).table.lookalikes.Plain := by
  intro e he
  obtain ⟨s, n, -, hr⟩ := exists_of_mem_lookalikes he
  exact ⟨(lookalike_eq_some hr).1, isNameChar_of_lookalike hr⟩

theorem free_opener (o : Erb.Opener) : Free o.text := free_of_all (by cases o <;> decide)

theorem free_closer (c : Erb.Closer) : Free c.text := free_of_all (by cases c <;> decide)

theorem Name.angle_not_mem (n : Name) : '<' ∉ n.text := fun hmem =>
  absurd (Name.isNameChar_of_mem hmem) (by decide)

namespace Entries

variable {es : Entries} {c d : Char} {s r : List Char}

/-- Induction over a text as it is scanned for names. -/
theorem scan_induction (es : Entries) {motive : List Char → Prop} (nil : motive [])
    (char : ∀ c s, Text.scan es.read (c :: s) = .char c :: Text.scan es.read s → motive s →
      motive (c :: s))
    (name : ∀ e ∈ es, ∀ s, Text.scan es.read (e.1.text ++ s) = .value e :: Text.scan es.read s →
      motive s → motive (e.1.text ++ s)) (s : List Char) : motive s := by
  induction hn : s.length using Nat.strong_induction_on generalizing s with
  | _ n ih =>
    cases s with
    | nil => exact nil
    | cons c s =>
      cases hr : es.read (c :: s) with
      | none => exact char c s (Text.scan_cons_of_none hr) (ih s.length (by simp [← hn]) s rfl)
      | some p =>
        obtain ⟨e, k⟩ := p
        obtain rfl := read_size hr
        obtain ⟨t, ht⟩ := read_initial hr
        have hdrop : (c :: s).drop Name.size = t := by
          rw [← ht, List.drop_left' (Name.length_text e.1)]
        have hshort : t.length < n := by
          rw [← hn, ← ht, List.length_append, Name.length_text]
          exact Nat.lt_add_of_pos_left (by decide)
        have hscan := Text.scan_of_some (by decide) hr (by simp)
        rw [hdrop, ← ht] at hscan
        rw [← ht]
        exact name e (read_mem hr) t hscan (ih t.length hshort t rfl)

/-- Induction over a text as it is restored: a character stays, or a name gives way. -/
theorem restore_induction (es : Entries) {motive : List Char → Prop} (nil : motive [])
    (char : ∀ c s, es.restore (c :: s) = c :: es.restore s → motive s → motive (c :: s))
    (name : ∀ e ∈ es, ∀ s, es.restore (e.1.text ++ s) = e.2 ++ es.restore s → motive s →
      motive (e.1.text ++ s)) (s : List Char) : motive s := by
  induction s using scan_induction es with
  | nil => exact nil
  | char c s hx ih => exact char c s (congrArg (Found.fill Prod.snd) hx) ih
  | name e he s hx ih => exact name e he s (congrArg (Found.fill Prod.snd) hx) ih

/-- Induction over a text with names, tag by tag. -/
theorem scan_tag_induction (es : Entries) {motive : List Char → Prop} (nil : motive [])
    (char : ∀ c s, Text.scan es.read (c :: s) = .char c :: Text.scan es.read s →
      Erb.Tag.read (c :: s) = none → motive s → motive (c :: s))
    (name : ∀ e ∈ es, ∀ s, Text.scan es.read (e.1.text ++ s) = .value e :: Text.scan es.read s →
      motive s → motive (e.1.text ++ s))
    (tag : ∀ t tag whole n s, Erb.Tag.read t = some ((tag, whole), n) → motive s →
      motive (whole ++ s)) (s : List Char) : motive s := by
  induction hn : s.length using Nat.strong_induction_on generalizing s with
  | _ n ih =>
    cases hr : Erb.Tag.read s with
    | none =>
      cases s using scan_induction es with
      | nil => exact nil
      | char c s hx _ => exact char c s hx hr (ih s.length (by simp [← hn]) s rfl)
      | name e he s hx _ =>
        refine name e he s hx (ih s.length ?_ s rfl)
        rw [← hn, List.length_append, Name.length_text]
        exact Nat.lt_add_of_pos_left (by decide)
    | some p =>
      obtain ⟨⟨found, whole⟩, k⟩ := p
      obtain ⟨r, rfl⟩ := Erb.Tag.exists_append_of_read hr
      refine tag _ found whole k r hr (ih r.length ?_ r rfl)
      rw [← hn, List.length_append]
      exact Nat.lt_add_of_pos_left (Erb.Tag.framed_of_read hr).length_pos

/-- Induction over a text and what it restores to, tag by tag. -/
theorem tag_induction (es : Entries) {motive : List Char → Prop} (nil : motive [])
    (char : ∀ c s, es.restore (c :: s) = c :: es.restore s → Erb.Tag.read (c :: s) = none →
      motive s → motive (c :: s))
    (name : ∀ e ∈ es, ∀ s, es.restore (e.1.text ++ s) = e.2 ++ es.restore s → motive s →
      motive (e.1.text ++ s))
    (tag : ∀ t tag whole n s, Erb.Tag.read t = some ((tag, whole), n) →
      es.restore (whole ++ s) = es.restore whole ++ es.restore s → motive s → motive (whole ++ s))
    (s : List Char) : motive s := by
  induction s using scan_tag_induction es with
  | nil => exact nil
  | char c s hx hr ih => exact char c s (congrArg (Found.fill Prod.snd) hx) hr ih
  | name e he s hx ih => exact name e he s (congrArg (Found.fill Prod.snd) hx) ih
  | tag t found whole n s hr ih =>
    refine tag t found whole n s hr ?_ ih
    obtain ⟨u, rfl⟩ := Erb.Tag.framed_of_read hr
    rw [restore_append (seam_of_last _ (by decide) s)]

theorem mem_restore (h : c ∈ es.restore s) : c ∈ s ∨ ∃ e ∈ es, c ∈ e.2 := by
  induction s using restore_induction es with
  | nil => exact .inl h
  | char x s hx ih =>
    rw [hx] at h
    rcases List.mem_cons.1 h with rfl | h
    · exact .inl List.mem_cons_self
    · exact (ih h).imp_left (List.mem_cons_of_mem x)
  | name e he s hx ih =>
    rw [hx] at h
    rcases List.mem_append.1 h with h | h
    · exact .inr ⟨e, he, h⟩
    · exact (ih h).imp_left (List.mem_append_right _)

theorem restore_append_cons (a : List Char) (hc : isNameChar c = false) (b : List Char) :
    es.restore (a ++ c :: b) = es.restore a ++ c :: es.restore b := by
  rw [restore_append (seam_of_head hc a), restore_cons hc]

theorem restore_free_append (h : Free r) (s : List Char) :
    es.restore (r ++ s) = r ++ es.restore s := by
  induction r with
  | nil => rfl
  | cons c r ih =>
    rw [List.cons_append, restore_cons (h c List.mem_cons_self),
      ih fun d hd => h d (List.mem_cons_of_mem c hd), List.cons_append]

theorem restore_append_free (s : List Char) (h : Free r) :
    es.restore (s ++ r) = es.restore s ++ r := by
  cases r with
  | nil => rw [List.append_nil, List.append_nil]
  | cons c r =>
    have hr : es.restore (r ++ []) = r ++ es.restore [] :=
      restore_free_append (fun d hd => h d (List.mem_cons_of_mem c hd)) []
    rw [List.append_nil, restore_nil, List.append_nil] at hr
    rw [restore_append_cons s (h c List.mem_cons_self), hr]

namespace Plain

variable (h : es.Plain)
include h

theorem restore_eq_nil (hs : es.restore s = []) : s = [] := by
  induction s using restore_induction es with
  | nil => rfl
  | char x s hx ih => simp [hx] at hs
  | name e he s hx ih =>
    rw [hx, List.append_eq_nil_iff] at hs
    exact absurd hs.1 (h e he).1

theorem restore_eq_cons (hc : isNameChar c = false) (hs : es.restore s = c :: r) :
    ∃ t, s = c :: t ∧ r = es.restore t := by
  induction s using restore_induction es with
  | nil => simp [restore_nil] at hs
  | char x s hx ih =>
    rw [hx] at hs
    obtain ⟨rfl, rfl⟩ := List.cons.inj hs
    exact ⟨s, rfl, rfl⟩
  | name e he s hx ih =>
    obtain ⟨hne, hname⟩ := h e he
    rcases he2 : e.2 with _ | ⟨x, w⟩
    · exact absurd he2 hne
    · rw [hx, he2] at hs
      obtain ⟨rfl, -⟩ := List.cons.inj hs
      rw [hname x (by simp [he2])] at hc
      exact absurd hc (by simp)

theorem restore_eq_concat (hc : isNameChar c = false) (hs : es.restore s = r ++ [c]) :
    ∃ t, s = t ++ [c] := by
  induction s using restore_induction es generalizing r with
  | nil =>
    rw [restore_nil] at hs
    exact absurd hs.symm (by simp)
  | char x s hx ih =>
    rw [hx] at hs
    cases r with
    | nil =>
      obtain ⟨rfl, hnil⟩ := List.cons.inj hs
      exact ⟨[], by rw [h.restore_eq_nil hnil]; rfl⟩
    | cons y r =>
      obtain ⟨t, rfl⟩ := ih (List.cons.inj hs).2
      exact ⟨x :: t, rfl⟩
  | name e he s hx ih =>
    rw [hx] at hs
    rcases List.eq_nil_or_concat (es.restore s) with hnil | ⟨r', c', hlast⟩
    · rw [hnil, List.append_nil] at hs
      rw [(h e he).2 c (by simp [hs])] at hc
      exact absurd hc (by simp)
    · rw [List.concat_eq_append] at hlast
      rw [hlast, ← List.append_assoc] at hs
      obtain ⟨-, rfl⟩ := List.append_singleton_inj.1 hs
      obtain ⟨t, rfl⟩ := ih hlast
      exact ⟨e.1.text ++ t, (List.append_assoc _ _ _).symm⟩

/-- Two characters of punctuation stand together where they stood together before. -/
theorem infix_of_restore (hc : isNameChar c = false) (hd : isNameChar d = false)
    (hs : [c, d] <:+: es.restore s) : [c, d] <:+: s := by
  induction s using restore_induction es with
  | nil => exact hs
  | char x s hx ih =>
    rw [hx] at hs
    rcases List.infix_cons_iff.1 hs with ⟨r, hr⟩ | hs
    · obtain ⟨rfl, hlater⟩ := List.cons.inj hr
      obtain ⟨t, rfl, -⟩ := h.restore_eq_cons hd hlater.symm
      exact ⟨[], t, rfl⟩
    · exact (ih hs).trans (List.suffix_cons x s).isInfix
  | name e he s hx ih =>
    rw [hx] at hs
    have hlater : ∀ w : List Char, (∀ x ∈ w, isNameChar x = true) →
        [c, d] <:+: w ++ es.restore s → [c, d] <:+: es.restore s := by
      intro w hw hi
      induction w with
      | nil => exact hi
      | cons x w ihw =>
        rcases List.infix_cons_iff.1 hi with hp | hi
        · obtain ⟨rfl, -⟩ := List.cons_prefix_cons.1 hp
          rw [hw c List.mem_cons_self] at hc
          exact absurd hc (by simp)
        · exact ihw (fun y hy => hw y (List.mem_cons_of_mem x hy)) hi
    exact (ih (hlater e.2 (h e he).2 hs)).trans (List.suffix_append _ s).isInfix

theorem restore_word {w : List Char} (hw : Word w) : Word (es.restore w) := by
  refine ⟨fun hnil => hw.ne_nil (h.restore_eq_nil hnil), fun c hc => ?_⟩
  rcases mem_restore hc with hc | ⟨e, he, hc⟩
  · exact hw.solid c hc
  · exact isBlank_of_isNameChar ((h e he).2 c hc)

theorem words_restoreFrom {cur : List Char} (hcur : ∀ c ∈ cur, isBlank c = false)
    (s : List Char) :
    words (es.restore (cur.reverse ++ s)) = (Text.wordsFrom cur s).map es.restore := by
  have hword (hne : cur.isEmpty = false) : Word cur.reverse :=
    ⟨by simpa using hne, fun c hc => hcur c (List.mem_reverse.1 hc)⟩
  fun_induction Text.wordsFrom cur s with
  | case1 cur hnil =>
    rw [List.isEmpty_iff] at hnil
    rw [hnil]
    rfl
  | case2 cur hne =>
    rw [List.append_nil]
    exact Text.words_of_word (h.restore_word (hword (by simpa using hne)))
  | case3 cur c s hc hnil ih =>
    rw [List.isEmpty_iff] at hnil
    rw [hnil, List.reverse_nil, List.nil_append, restore_cons (isNameChar_of_isBlank hc),
      Text.words_cons_blank hc]
    exact ih (by simp) (by simp)
  | case4 cur c s hc hne ih =>
    rw [restore_append_cons _ (isNameChar_of_isBlank hc), Text.words_append_blank hc,
      Text.words_of_word (h.restore_word (hword (by simpa using hne)))]
    exact congrArg _ (ih (by simp) (by simp))
  | case5 cur c s hc ih =>
    have hcons : ∀ d ∈ c :: cur, isBlank d = false := by
      intro d hd
      rcases List.mem_cons.1 hd with rfl | hd
      · simpa using hc
      · exact hcur d hd
    rw [← ih hcons fun _ => ⟨by simp, fun d hd => hcons d (List.mem_reverse.1 hd)⟩]
    simp

theorem words_restore (s : List Char) : words (es.restore s) = (words s).map es.restore :=
  h.words_restoreFrom (List.forall_mem_nil _) s

theorem startsBlank_restore (hs : startsBlank s = false) : startsBlank (es.restore s) = false := by
  rcases hr : es.restore s with _ | ⟨c, r⟩
  · rfl
  · cases hc : isBlank c with
    | false => exact hc
    | true =>
      obtain ⟨t, rfl, -⟩ := h.restore_eq_cons (isNameChar_of_isBlank hc) hr
      exact absurd (hc.symm.trans hs) (by simp)

theorem endsBlank_restore (hs : endsBlank s = false) : endsBlank (es.restore s) = false := by
  rcases List.eq_nil_or_concat (es.restore s) with hr | ⟨r, c, hr⟩
  · rw [hr]
    rfl
  · rw [List.concat_eq_append] at hr
    rw [hr, Text.endsBlank_append (by simp)]
    cases hc : isBlank c with
    | false => exact hc
    | true =>
      obtain ⟨t, rfl⟩ := h.restore_eq_concat (isNameChar_of_isBlank hc) hr
      rw [Text.endsBlank_append (by simp)] at hs
      exact absurd (hc.symm.trans hs) (by simp)

theorem trim_restore (s : List Char) : Text.trim (es.restore s) = es.restore (Text.trim s) := by
  obtain ⟨g, g', hs, hg, hg', hstart, hend⟩ := Text.trim_append s
  conv_lhs => rw [hs]
  rw [restore_free_append (free_of_allBlank hg), restore_append_free _ (free_of_allBlank hg'),
    Text.trim_between hg hg' (h.startsBlank_restore hstart) (h.endsBlank_restore hend)]

end Plain

/-- A tag with its code restored. -/
def restoreTag (es : Entries) (tag : Erb.Tag) : Erb.Tag := { tag with code := es.restore tag.code }

namespace Plain

variable (h : es.Plain)
include h

theorem ofInside_restore (o : Erb.Opener) (inside : List Char) :
    Erb.Tag.ofInside o (es.restore inside) = es.restoreTag (Erb.Tag.ofInside o inside) := by
  rcases List.eq_nil_or_concat inside with rfl | ⟨r, c, rfl⟩
  · rfl
  · rw [List.concat_eq_append]
    by_cases hc : c = '-'
    · subst hc
      rw [restore_append_free r (r := ['-']) (free_of_all (by decide))]
      simp only [Erb.Tag.ofInside, List.reverse_append, List.reverse_cons, List.reverse_nil,
        List.nil_append, List.cons_append, List.reverse_reverse, h.trim_restore]
      rfl
    · have hplain {x : List Char} (hx : ∀ y, x ≠ y ++ ['-']) :
          Erb.Tag.ofInside o x = ⟨o, Text.trim x, .plain⟩ := by
        unfold Erb.Tag.ofInside
        split
        · rename_i y hy
          exact absurd (List.reverse_eq_cons_iff.1 hy) (hx _)
        · rfl
      have hr : ∀ y, r ++ [c] ≠ y ++ ['-'] := by simp [hc]
      rw [hplain hr, hplain fun y hy => ?_, h.trim_restore]
      · rfl
      · obtain ⟨t, ht⟩ := h.restore_eq_concat (by decide) hy
        exact hr t ht

theorem readOpener_restore {o : Erb.Opener} (hs : Erb.Opener.read (o.text ++ s) = some (o, s)) :
    Erb.Opener.read (o.text ++ es.restore s) = some (o, es.restore s) := by
  cases s with
  | nil => exact hs
  | cons c s =>
    cases hc : isNameChar c with
    | false =>
      rw [restore_cons hc]
      exact Erb.Opener.read_of_head_eq hs rfl
    | true =>
      have hhead (d : Char) (hd : isNameChar d = false) :
          (es.restore (c :: s)).head? ≠ some d := by
        intro he
        obtain ⟨r, hr⟩ := List.head?_eq_some_iff.1 he
        obtain ⟨t, ht, -⟩ := h.restore_eq_cons hd hr
        rw [(List.cons.inj ht).1, hd] at hc
        exact absurd hc (by simp)
      exact Erb.Opener.read_text o _ (hhead '=' (by decide)) (hhead '-' (by decide))

theorem angle_not_mem {e : Name × List Char} (he : e ∈ es) : '<' ∉ e.2 := fun hmem =>
  absurd ((h e he).2 '<' hmem) (by decide)

theorem readTag_restore_eq_none (hs : Erb.Tag.read (c :: s) = none) :
    Erb.Tag.read (c :: es.restore s) = none := by
  by_contra hne
  obtain ⟨r, hr, hi⟩ := Erb.Tag.of_read_ne_none hne
  obtain ⟨rfl, hlater⟩ := List.cons.inj hr
  obtain ⟨t, rfl, rfl⟩ := h.restore_eq_cons (by decide) hlater
  exact Erb.Tag.read_ne_none (h.infix_of_restore (by decide) (by decide) hi) hs

theorem readTag_restore {whole : List Char} {tag : Erb.Tag} {n : Nat}
    (hs : Erb.Tag.read s = some ((tag, whole), n)) (r : List Char) :
    Erb.Tag.read (es.restore whole ++ r) =
      some ((es.restoreTag tag, es.restore whole), (es.restore whole).length) := by
  obtain ⟨inside, t, hshape, ho, hfree, htag, hwhole, -⟩ := Erb.Tag.read_split hs
  rw [hshape] at ho
  have hopener := h.readOpener_restore
    (Erb.Opener.read_of_head_eq (b := inside ++ '%' :: '>' :: r) ho (by cases inside <;> rfl))
  rw [restore_append_cons _ (by decide), restore_cons (by decide)] at hopener
  have hread := Erb.Tag.read_of_opener hopener fun hi =>
    hfree (h.infix_of_restore (by decide) (by decide) hi)
  have hrestore : es.restore whole = tag.opener.text ++ (es.restore inside ++ ['%', '>']) := by
    rw [hwhole, restore_free_append (free_opener _),
      restore_append_free _ (free_of_all (by decide))]
  rw [h.ofInside_restore, ← htag, ← hrestore] at hread
  exact Erb.Tag.read_append hread r

/-- The tags of a restored text are the tags of the text, restored. -/
theorem tagsIn_restore (s : List Char) :
    Erb.tagsIn (es.restore s) =
      (Erb.tagsIn s).map fun p => (es.restoreTag p.1, es.restore p.2) := by
  induction s using tag_induction es with
  | nil => rfl
  | char c s hx hr ih =>
    rw [hx, Erb.tagsIn_cons_of_none hr, Erb.tagsIn_cons_of_none (h.readTag_restore_eq_none hr), ih]
  | name e he s hx ih =>
    rw [hx, Erb.tagsIn_append_of_not_mem (h.angle_not_mem he),
      Erb.tagsIn_append_of_not_mem (Name.angle_not_mem e.1), ih]
  | tag t tag whole n s hr hx ih =>
    rw [hx, Erb.tagsIn_append_of_read (h.readTag_restore hr []), Erb.tagsIn_append_of_read hr, ih]
    rfl

theorem settled_restore_iff (s : List Char) : Erb.Settled (es.restore s) ↔ Erb.Settled s := by
  induction s using tag_induction es with
  | nil => rfl
  | char c s hx hr ih =>
    rw [hx, Erb.settled_cons_iff hr, Erb.settled_cons_iff (h.readTag_restore_eq_none hr), ih]
    refine and_congr_left fun _ => not_congr ⟨?_, ?_⟩
    · intro hp
      obtain ⟨rfl, r, hr⟩ := List.cons_prefix_cons.1 hp
      obtain ⟨t, rfl, -⟩ := h.restore_eq_cons (by decide) hr.symm
      exact ⟨t, rfl⟩
    · intro hp
      obtain ⟨rfl, r, rfl⟩ := List.cons_prefix_cons.1 hp
      exact ⟨es.restore r, by rw [List.singleton_append, restore_cons (by decide)]; rfl⟩
  | name e he s hx ih =>
    rw [hx, Erb.settled_append_iff (h.angle_not_mem he),
      Erb.settled_append_iff (Name.angle_not_mem e.1), ih]
  | tag t tag whole n s hr hx ih =>
    rw [hx, Erb.settled_append_iff_of_read (h.readTag_restore hr []),
      Erb.settled_append_iff_of_read hr, ih]

end Plain

end Entries

end ErbLayout.Placeholder
