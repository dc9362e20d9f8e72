import ErbLayout.Proofs.Placeholder.Fresh
import ErbLayout.Proofs.Text.Words
/-!
Where a text may be cut without a change of what it restores to: at a seam, which no name crosses.
Names hold neither white space nor punctuation, so there is a seam on both sides of each of these,
and on both sides of a name.
-/

namespace ErbLayout.Placeholder

open Text (Found Word Framed solid words)

/-- No name lies across the place where two texts meet. -/
def Seam (a b : List Char) : Prop :=
  ∀ (n : Name) (u v : List Char), n.text = u ++ v → u ≠ [] → v ≠ [] → u <:+ a → ¬ v <+: b

theorem seam_of_head {c : Char} {b : List Char} (hc : isNameChar c = false) (a : List Char) :
    Seam a (c :: b) := by
  intro n u v hn hu hv hua hvb
  rcases v with _ | ⟨d, v⟩
  · exact hv rfl
  · obtain ⟨rfl, -⟩ := List.cons_prefix_cons.1 hvb
    have hd : isNameChar d = true := Name.isNameChar_of_mem (n := n) (by rw [hn]; simp)
    rw [hc] at hd
    exact absurd hd (by simp)

theorem seam_of_last {c : Char} (a : List Char) (hc : isNameChar c = false) (b : List Char) :
    Seam (a ++ [c]) b := by
  intro n u v hn hu hv hua hvb
  obtain ⟨s, hs⟩ := hua
  rcases List.eq_nil_or_concat u with rfl | ⟨u, d, rfl⟩
  · exact hu rfl
  · rw [List.concat_eq_append] at hs hn
    have hlast := congrArg List.getLast? hs
    simp only [List.getLast?_append, List.getLast?_singleton, Option.some_or,
      Option.some.injEq] at hlast
    have hd : isNameChar d = true := Name.isNameChar_of_mem (n := n) (by rw [hn]; simp)
    rw [hlast, hc] at hd
    exact absurd hd (by simp)

theorem seam_of_name_right (a : List Char) (n : Name) (b : List Char) : Seam a (n.text ++ b) := by
  intro m u v hm hu hv hua hvb
  have hlen := congrArg List.length hm
  have hpos := List.length_pos_iff.2 hu
  rw [Name.length_text, List.length_append] at hlen
  refine Name.not_overlap hm hu hv (n := n) ?_
  refine List.prefix_of_prefix_length_le hvb (List.prefix_append _ _) ?_
  rw [Name.length_text]
  omega

theorem seam_of_name_left (a : List Char) (n : Name) (b : List Char) : Seam (a ++ n.text) b := by
  intro m u v hm hu hv hua hvb
  have hlen := congrArg List.length hm
  have hpos := List.length_pos_iff.2 hv
  rw [Name.length_text, List.length_append] at hlen
  obtain ⟨w, hw⟩ : u <:+ n.text := by
    refine List.suffix_of_suffix_length_le hua (List.suffix_append _ _) ?_
    rw [Name.length_text]
    omega
  have hne : w ≠ [] := by
    rintro rfl
    have hlen' := congrArg List.length hw
    rw [Name.length_text, List.nil_append] at hlen'
    omega
  exact Name.not_overlap hw.symm hne hu (n := m) ⟨v, hm.symm⟩

namespace Entries

variable {es : Entries}

theorem read_append_of_none {s t : List Char} (h : es.read (s ++ t) = none) : es.read s = none := by
  cases hr : es.read s with
  | none => rfl
  | some p =>
    obtain ⟨u, hu⟩ := read_initial hr
    unfold Entries.read at h hr
    rw [← hu, List.append_assoc,
      Name.read_eq_some.2 ⟨rfl, List.prefix_append p.1.1.text (u ++ t)⟩] at h
    rw [← hu, Name.read_eq_some.2 ⟨rfl, List.prefix_append p.1.1.text u⟩] at hr
    dsimp only at h hr
    cases hf : es.find? (·.1 == p.1.1) with
    | none => rw [hf] at hr; simp at hr
    | some e => rw [hf] at h; simp at h

theorem read_append_of_some {s t : List Char} {p : (Name × List Char) × Nat}
    (h : es.read s = some p) : es.read (s ++ t) = some p := by
  obtain ⟨u, hu⟩ := read_initial h
  unfold Entries.read at h ⊢
  rw [← hu, Name.read_eq_some.2 ⟨rfl, List.prefix_append p.1.1.text u⟩] at h
  rw [← hu, List.append_assoc,
    Name.read_eq_some.2 ⟨rfl, List.prefix_append p.1.1.text (u ++ t)⟩]
  exact h

theorem read_across {s t : List Char} (h : Seam s t) (hs : s ≠ []) :
    es.read (s ++ t) = es.read s := by
  cases hr : es.read (s ++ t) with
  | none => exact (read_append_of_none hr).symm
  | some p =>
    have hp := read_initial hr
    by_cases hlen : p.1.1.text.length ≤ s.length
    · obtain ⟨u, hu⟩ := List.prefix_of_prefix_length_le hp (List.prefix_append s t) hlen
      cases hr' : es.read s with
      | some q => rw [← hr, read_append_of_some hr']
      | none =>
        unfold Entries.read at hr hr'
        rw [← hu, List.append_assoc,
          Name.read_eq_some.2 ⟨rfl, List.prefix_append p.1.1.text (u ++ t)⟩] at hr
        rw [← hu, Name.read_eq_some.2 ⟨rfl, List.prefix_append p.1.1.text u⟩] at hr'
        exact absurd (hr'.symm.trans hr) (by simp)
    · obtain ⟨v, hv⟩ := List.prefix_of_prefix_length_le (List.prefix_append s t) hp (by omega)
      have hne : v ≠ [] := by
        rintro rfl
        rw [List.append_nil] at hv
        rw [← hv] at hlen
        exact hlen (Nat.le_refl _)
      rw [← hv] at hp
      exact absurd ((List.prefix_append_right_inj s).1 hp)
        (h p.1.1 s v hv.symm hs hne List.suffix_rfl)

theorem seam_of_suffix {a a' b : List Char} (h : Seam a b) (hs : a' <:+ a) : Seam a' b :=
  fun n u v hn hu hv hua => h n u v hn hu hv (hua.trans hs)

theorem scan_append {a b : List Char} (h : Seam a b) :
    Text.scan es.read (a ++ b) = Text.scan es.read a ++ Text.scan es.read b := by
  refine Text.scanFrom_append (Nat.zero_le _) fun c s hs => ⟨?_, ?_⟩
  · exact read_across (seam_of_suffix h hs) (by simp)
  · intro e n hr
    have hlen := (read_initial hr).length_le
    rw [Name.length_text, ← read_size hr] at hlen
    exact hlen

theorem restore_append {a b : List Char} (h : Seam a b) :
    es.restore (a ++ b) = es.restore a ++ es.restore b := by
  rw [restore, scan_append h, Found.fill_append]
  rfl

theorem scan_cons {c : Char} (hc : isNameChar c = false) (s : List Char) :
    Text.scan es.read (c :: s) = .char c :: Text.scan es.read s := by
  refine Text.scan_cons_of_none ?_
  cases hr : es.read (c :: s) with
  | none => rfl
  | some p =>
    obtain ⟨u, hu⟩ := read_initial hr
    have hmem : c ∈ p.1.1.text := by
      rcases ht : p.1.1.text with _ | ⟨d, w⟩
      · exact absurd ht (Marked.name_ne_nil _)
      · rw [ht] at hu
        simp only [List.cons_append, List.cons.injEq] at hu
        simp [hu.1]
    rw [Name.isNameChar_of_mem hmem] at hc
    exact absurd hc (by simp)

theorem restore_cons {c : Char} (hc : isNameChar c = false) (s : List Char) :
    es.restore (c :: s) = c :: es.restore s := by
  rw [restore, scan_cons hc]
  rfl

theorem restore_nil : es.restore [] = [] := rfl

theorem restore_concat {c : Char} (s : List Char) (hc : isNameChar c = false) :
    es.restore (s ++ [c]) = es.restore s ++ [c] := by
  rw [restore_append (seam_of_head hc s), restore_cons hc, restore_nil]

theorem read_name (hd : es.Pairwise fun e e' => e.1 ≠ e'.1) {e : Name × List Char}
    (he : e ∈ es) : es.read e.1.text = some (e, Name.size) := by
  unfold Entries.read
  rw [Name.read_eq_some.2 ⟨rfl, List.prefix_rfl⟩]
  dsimp only
  rw [Marked.find?_of_distinct hd he]

theorem scan_name (hd : es.Pairwise fun e e' => e.1 ≠ e'.1) {e : Name × List Char}
    (he : e ∈ es) : Text.scan es.read e.1.text = [.value e] := by
  rw [Text.scan_of_some (by decide) (read_name hd he) (Marked.name_ne_nil _),
    ← Name.length_text e.1, List.drop_length, Text.scan_nil]

theorem restore_name (hd : es.Pairwise fun e e' => e.1 ≠ e'.1) {e : Name × List Char}
    (he : e ∈ es) : es.restore e.1.text = e.2 := by
  rw [restore, scan_name hd he]
  simp

theorem restore_eq_self {s : List Char} (h : ∀ e ∈ es, ¬ e.1.text <:+: s) : es.restore s = s := by
  induction s with
  | nil => rfl
  | cons c s ih =>
    have hnone : es.read (c :: s) = none := by
      cases hr : es.read (c :: s) with
      | none => rfl
      | some p => exact absurd (read_initial hr).isInfix (h p.1 (read_mem hr))
    rw [restore, Text.scan_cons_of_none hnone]
    exact congrArg _ (ih fun e he hi => h e he (hi.trans (List.suffix_cons c s).isInfix))

end Entries

theorem isNameChar_of_isBlank {c : Char} (h : isBlank c = true) : isNameChar c = false := by
  cases hc : isNameChar c with
  | false => rfl
  | true =>
    rw [isBlank_of_isNameChar hc] at h
    exact absurd h (by simp)

/-- A text that begins with no character of a name, if it begins at all. -/
def HeadFree (s : List Char) : Prop := ∀ c ∈ s.head?, isNameChar c = false

theorem HeadFree.append {a b : List Char} (ha : HeadFree a) (hb : HeadFree b) :
    HeadFree (a ++ b) := by
  cases a with
  | nil => exact hb
  | cons c a => exact ha

theorem headFree_flatMap {α : Type} {f : α → List Char} {as : List α}
    (h : ∀ a ∈ as, HeadFree (f a)) : HeadFree (as.flatMap f) := by
  induction as with
  | nil => simp [HeadFree]
  | cons a as ih =>
    exact (h a List.mem_cons_self).append (ih fun b hb => h b (List.mem_cons_of_mem a hb))

/-- A text without characters of names. -/
def Free (s : List Char) : Prop := ∀ c ∈ s, isNameChar c = false

theorem free_of_all {s : List Char} (h : (s.all fun c => !isNameChar c) = true) : Free s := by
  intro c hc
  simpa using List.all_eq_true.1 h c hc

theorem free_of_allBlank {s : List Char} (h : Text.allBlank s = true) : Free s :=
  fun c hc => isNameChar_of_isBlank (List.all_eq_true.1 h c hc)

theorem Free.append {a b : List Char} (ha : Free a) (hb : Free b) : Free (a ++ b) :=
  List.forall_mem_append.2 ⟨ha, hb⟩

theorem Free.headFree {a : List Char} (h : Free a) : HeadFree a :=
  fun c hc => h c (List.mem_of_mem_head? hc)

/-- A reading of texts that may be done in parts, wherever a character stands that no name holds.
White space has no part in it. -/
structure Seamwise {α : Type} (f : List Char → List α) : Prop where
  nil : f [] = []
  split : ∀ a c b, isNameChar c = false → f (a ++ c :: b) = f a ++ (f [c] ++ f b)
  blank : ∀ c, isBlank c = true → f [c] = []

namespace Seamwise

variable {α : Type} {f : List Char → List α} (hf : Seamwise f)
include hf

theorem append {a b : List Char} (h : HeadFree b) : f (a ++ b) = f a ++ f b := by
  cases b with
  | nil => simp [hf.nil]
  | cons c b =>
    have hb := hf.split [] c b (h c rfl)
    rw [List.nil_append, hf.nil, List.nil_append] at hb
    rw [hf.split a c b (h c rfl), hb]

theorem append_blank {c : Char} (hc : isBlank c = true) (a b : List Char) :
    f (a ++ c :: b) = f a ++ f b := by
  rw [hf.split a c b (isNameChar_of_isBlank hc), hf.blank c hc, List.nil_append]

theorem free_append {a : List Char} (ha : Free a) (b : List Char) : f (a ++ b) = f a ++ f b := by
  rcases List.eq_nil_or_concat a with rfl | ⟨a, c, rfl⟩
  · simp [hf.nil]
  · have hc := ha c (by simp)
    have hac := hf.split a c [] hc
    rw [hf.nil, List.append_nil] at hac
    rw [List.concat_eq_append, List.append_assoc, List.singleton_append, hf.split a c b hc, hac,
      List.append_assoc]

theorem append_free (a : List Char) {b : List Char} (hb : Free b) : f (a ++ b) = f a ++ f b :=
  hf.append hb.headFree

theorem between {a b : List Char} (ha : Free a) (hb : Free b) (s : List Char) :
    f (a ++ (s ++ b)) = f a ++ (f s ++ f b) := by
  rw [hf.free_append ha, hf.append_free s hb]

theorem flatMap {β : Type} {g : β → List Char} {bs : List β} (h : ∀ b ∈ bs, HeadFree (g b)) :
    f (bs.flatMap g) = bs.flatMap fun b => f (g b) := by
  induction bs with
  | nil => exact hf.nil
  | cons b bs ih =>
    have hbs : ∀ b ∈ bs, HeadFree (g b) := fun x hx => h x (List.mem_cons_of_mem b hx)
    rw [List.flatMap_cons, List.flatMap_cons, hf.append (headFree_flatMap hbs), ih hbs]

theorem wordsFrom (cur s : List Char) :
    f (cur.reverse ++ s) = (Text.wordsFrom cur s).flatMap f := by
  fun_induction Text.wordsFrom cur s with
  | case1 cur h =>
    rw [List.isEmpty_iff] at h
    simp [h, hf.nil]
  | case2 cur h => simp
  | case3 cur c s hc h ih =>
    rw [List.isEmpty_iff] at h
    rw [hf.append_blank hc, ← ih, h]
    simp [hf.nil]
  | case4 cur c s hc h ih =>
    rw [hf.append_blank hc, List.flatMap_cons, ← ih]
    rfl
  | case5 cur c s hc ih => simpa using ih

/-- What is read in a text depends on its words only. -/
theorem words (s : List Char) : f s = (Text.words s).flatMap f := hf.wordsFrom [] s

theorem congr {s s' : List Char} (h : Text.words s = Text.words s') : f s = f s' := by
  rw [hf.words, h, ← hf.words]

end Seamwise

/-- What the table of a protected template is like. -/
structure Table.Proper (t : Table) : Prop where
  distinct : t.codeTags.Pairwise fun e e' => e.1 ≠ e'.1
  framed : ∀ e ∈ t.codeTags, Framed e.2
  fresh : ∀ e ∈ t.codeTags, ∀ e' ∈ t.codeTags, ¬ e.1.text <:+: e'.2
  solid : ∀ e ∈ t.lookalikes, Word e.2

/-- A text that begins with no part of a name. -/
def Table.Begins (t : Table) (s : List Char) : Prop :=
  (∃ c r, s = c :: r ∧ isNameChar c = false) ∨ ∃ e ∈ t.codeTags, e.1.text <+: s

/-- A text that ends with no part of a name. -/
def Table.Ends (t : Table) (s : List Char) : Prop :=
  (∃ r c, s = r ++ [c] ∧ isNameChar c = false) ∨ ∃ e ∈ t.codeTags, e.1.text <:+ s

namespace Table

variable {t : Table}

theorem restore_cons {c : Char} (hc : isNameChar c = false) (s : List Char) :
    t.restore (c :: s) = c :: t.restore s := by
  rw [restore, restoreCodeTags, Entries.restore_cons hc, Entries.restore_cons hc]
  rfl

theorem restore_concat {c : Char} (s : List Char) (hc : isNameChar c = false) :
    t.restore (s ++ [c]) = t.restore s ++ [c] := by
  rw [restore, restoreCodeTags, Entries.restore_concat s hc, Entries.restore_concat _ hc]
  rfl

theorem restore_nil : t.restore [] = [] := rfl

theorem restore_append_cons {c : Char} (a : List Char) (hc : isNameChar c = false)
    (b : List Char) : t.restore (a ++ c :: b) = t.restore a ++ c :: t.restore b := by
  rw [restore, restoreCodeTags, Entries.restore_append (seam_of_head hc a),
    Entries.restore_cons hc, Entries.restore_append (seam_of_head hc _), Entries.restore_cons hc]
  rfl

theorem restoreCodeTags_name (h : t.Proper) {e : Name × List Char} (he : e ∈ t.codeTags) :
    t.restoreCodeTags e.1.text = e.2 := Entries.restore_name h.distinct he

theorem restoreCodeTags_code (h : t.Proper) {e : Name × List Char} (he : e ∈ t.codeTags) :
    t.restoreCodeTags e.2 = e.2 := Entries.restore_eq_self fun e' he' => h.fresh e' he' e he

theorem restore_name (h : t.Proper) {e : Name × List Char} (he : e ∈ t.codeTags) :
    t.restore e.1.text = t.restore e.2 := by
  rw [restore, restoreCodeTags_name h he, restore, restoreCodeTags_code h he]

theorem restore_append_of_begins (h : t.Proper) (a : List Char) {b : List Char}
    (hb : t.Begins b) : t.restore (a ++ b) = t.restore a ++ t.restore b := by
  rcases hb with ⟨c, r, rfl, hc⟩ | ⟨e, he, r, rfl⟩
  · rw [restore_append_cons a hc, restore_cons hc]
  · have hcode : t.codeTags.restore (e.1.text ++ r) = e.2 ++ t.codeTags.restore r := by
      rw [Entries.restore_append (List.nil_append e.1.text ▸ seam_of_name_left [] e.1 r)]
      exact congrArg (· ++ t.codeTags.restore r) (restoreCodeTags_name h he)
    obtain ⟨u, hu⟩ := h.framed e he
    rw [restore, restoreCodeTags, Entries.restore_append (seam_of_name_right a e.1 r), hcode]
    conv_rhs => rw [restore, restore, restoreCodeTags, restoreCodeTags, hcode]
    rw [hu, List.cons_append, List.cons_append, Entries.restore_append (seam_of_head (by decide) _)]

theorem restore_append_of_ends (h : t.Proper) {a : List Char} (ha : t.Ends a) (b : List Char) :
    t.restore (a ++ b) = t.restore a ++ t.restore b := by
  rcases ha with ⟨r, c, rfl, hc⟩ | ⟨e, he, r, rfl⟩
  · rw [List.append_assoc, List.singleton_append, restore_append_cons r hc, restore_concat r hc,
      List.append_assoc, List.singleton_append]
  · have hcode : t.codeTags.restore (r ++ e.1.text) = t.codeTags.restore r ++ e.2 := by
      rw [Entries.restore_append (List.append_nil e.1.text ▸ seam_of_name_right r e.1 [])]
      exact congrArg (t.codeTags.restore r ++ ·) (restoreCodeTags_name h he)
    obtain ⟨u, hu⟩ := h.framed e he
    rw [restore, restoreCodeTags, Entries.restore_append (seam_of_name_left r e.1 b), hcode]
    conv_rhs => rw [restore, restore, restoreCodeTags, restoreCodeTags, hcode]
    rw [hu, ← List.append_assoc, Entries.restore_append (seam_of_last _ (by decide) _)]

theorem restore_free_append {a : List Char} (ha : Free a) (b : List Char) :
    t.restore (a ++ b) = a ++ t.restore b := by
  induction a with
  | nil => rfl
  | cons c a ih =>
    rw [List.cons_append, restore_cons (ha c List.mem_cons_self),
      ih fun d hd => ha d (List.mem_cons_of_mem c hd), List.cons_append]

theorem restore_allBlank_append {a : List Char} (ha : Text.allBlank a = true) (b : List Char) :
    t.restore (a ++ b) = a ++ t.restore b := restore_free_append (free_of_allBlank ha) b

theorem restore_allBlank {a : List Char} (ha : Text.allBlank a = true) : t.restore a = a := by
  have h := restore_allBlank_append (t := t) ha []
  rwa [List.append_nil, restore_nil, List.append_nil] at h

theorem framed_restore {s : List Char} (h : Framed s) : Framed (t.restore s) := by
  obtain ⟨u, rfl⟩ := h
  refine ⟨t.restore u, ?_⟩
  rw [List.cons_append, restore_cons (by decide), restore_concat u (by decide)]
  rfl

/-- The restored text without its white space. -/
def solidRestored (t : Table) (s : List Char) : List Char := solid (t.restore s)

theorem seamwise_solidRestored (t : Table) : Seamwise t.solidRestored where
  nil := rfl
  split a c b hc := by
    rw [solidRestored, restore_append_cons a hc, Text.solid_append, ← List.singleton_append,
      Text.solid_append, solidRestored, solidRestored, restore_cons hc]
    rfl
  blank c hc := by
    rw [solidRestored, restore_cons (isNameChar_of_isBlank hc)]
    simp [restore_nil, solid, hc]

end Table

theorem Marking.proper {names : Names} {source : List Char} {ws ts : Marked}
    (h : Marking names source ws ts) : (protect names source).table.Proper := by
  refine ⟨?_, ?_, ?_, ?_⟩
  · rw [h.codeTags]
    exact h.tags.distinct
  · intro e he
    obtain ⟨tag, s, n, -, hr⟩ := exists_of_mem_codeTags he
    exact Erb.Tag.framed_of_read hr
  · rw [h.codeTags]
    intro e he e' he' hi
    exact h.tags.fresh e he (hi.trans (Marked.infix_of_mem he').2)
  · intro e he
    obtain ⟨s, n, -, hr⟩ := exists_of_mem_lookalikes he
    exact word_of_lookalike hr

theorem Marking.restore_working {names : Names} {source : List Char} {ws ts : Marked}
    (h : Marking names source ws ts) :
    (protect names source).table.restore (protect names source).working = source := by
  rw [Table.restore, Table.restoreCodeTags, h.lookalikes, h.codeTags, h.working, h.tags.restore,
    h.shielded, h.words.restore, h.plain]

end ErbLayout.Placeholder
