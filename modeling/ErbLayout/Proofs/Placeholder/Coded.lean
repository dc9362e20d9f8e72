import ErbLayout.Proofs.Placeholder.Plain
/-!
Entries that stand for ERB tags. In a text without `<%` the tags that it restores to are those of the
names in it, one by one.
-/

namespace ErbLayout.Placeholder

open Text (Found Framed)

/-- Entries that stand for ERB tags. -/
def Entries.Coded (es : Entries) : Prop :=
  ∀ e ∈ es, ∃ tag t n, Erb.Tag.read t = some ((tag, e.2), n)

theorem coded_codeTags (names : Names) (source : List Char) :
    (protect names source).table.codeTags.Coded := by
  intro e he
  obtain ⟨tag, s, n, -, hr⟩ := exists_of_mem_codeTags he
  exact ⟨tag, s, n, hr⟩

theorem Name.opening_infix_text (n : Name) : opening <:+: n.text :=
  ⟨[], Text.hexDigits 32 n.toNat ++ ending, by simp [Name.text]⟩

namespace Entries

/-- The entries whose names stand in a text, in order. -/
def namesIn (es : Entries) (s : List Char) : Entries := Found.values (Text.scan es.read s)

variable {es : Entries}

theorem namesIn_char {c : Char} {s : List Char}
    (h : Text.scan es.read (c :: s) = .char c :: Text.scan es.read s) :
    es.namesIn (c :: s) = es.namesIn s := by
  rw [namesIn, h]
  rfl

theorem namesIn_name {e : Name × List Char} {s : List Char}
    (h : Text.scan es.read (e.1.text ++ s) = .value e :: Text.scan es.read s) :
    es.namesIn (e.1.text ++ s) = e :: es.namesIn s := by
  rw [namesIn, h]
  rfl

theorem namesIn_of_short {s : List Char} (h : s.length < Name.size) : es.namesIn s = [] := by
  induction s using scan_induction es with
  | nil => rfl
  | char c s hx ih =>
    rw [namesIn_char hx]
    exact ih (Nat.lt_of_succ_lt h)
  | name e he s hx ih =>
    rw [List.length_append, Name.length_text] at h
    omega

theorem namesIn_singleton (c : Char) : es.namesIn [c] = [] :=
  namesIn_of_short (Nat.one_lt_succ_succ 36)

theorem namesIn_append {a b : List Char} (h : Seam a b) :
    es.namesIn (a ++ b) = es.namesIn a ++ es.namesIn b := by
  rw [namesIn, scan_append h, Found.values, List.filterMap_append]
  rfl

theorem namesIn_mem {s : List Char} : ∀ e ∈ es.namesIn s, e ∈ es := by
  intro e he
  exact mem_of_mem_scan (Found.mem_values.1 he)

theorem namesIn_text (hd : es.Pairwise fun e e' => e.1 ≠ e'.1) {e : Name × List Char}
    (he : e ∈ es) : es.namesIn e.1.text = [e] := by
  rw [namesIn, scan_name hd he]
  rfl

theorem seamwise_namesIn (es : Entries) : Seamwise es.namesIn where
  nil := rfl
  split a c b hc := by
    rw [namesIn_append (seam_of_head hc a)]
    exact congrArg _ (namesIn_append (seam_of_last [] hc b))
  blank c _ := namesIn_singleton c

theorem namesIn_of_free {s : List Char} (h : ∀ e ∈ es, ¬ e.1.text <:+: s) : es.namesIn s = [] := by
  induction s using scan_induction es with
  | nil => rfl
  | char c s hx ih =>
    rw [namesIn_char hx]
    exact ih fun e he hi => h e he (hi.trans (List.suffix_cons c s).isInfix)
  | name e he s hx ih => exact absurd (List.prefix_append e.1.text s).isInfix (h e he)

theorem namesIn_of_no_opening {s : List Char} (h : ¬ opening <:+: s) : es.namesIn s = [] :=
  namesIn_of_free fun e _ hi => h (e.1.opening_infix_text.trans hi)

theorem scan_of_namesIn_nil {s : List Char} (h : es.namesIn s = []) :
    Text.scan es.read s = s.map .char := by
  induction s using scan_induction es with
  | nil => rfl
  | char c s hx ih =>
    rw [namesIn_char hx] at h
    rw [hx, ih h]
    rfl
  | name e he s hx ih =>
    rw [namesIn_name hx] at h
    exact absurd h (by simp)

/-- A text in which no name stands is restored to itself. -/
theorem restore_of_namesIn_nil {s : List Char} (h : es.namesIn s = []) : es.restore s = s := by
  rw [restore, scan_of_namesIn_nil h, Found.fill, List.flatMap_map]
  exact List.flatMap_singleton' s

namespace Coded

variable (h : es.Coded)
include h

theorem restore_eq_percent {s r : List Char} (hs : es.restore s = '%' :: r) :
    ∃ t, s = '%' :: t := by
  induction s using restore_induction es with
  | nil => simp [restore_nil] at hs
  | char c s hx _ =>
    rw [hx] at hs
    exact ⟨s, by rw [(List.cons.inj hs).1]⟩
  | name e he s hx _ =>
    obtain ⟨tag, t, n, hr⟩ := h e he
    obtain ⟨u, hu⟩ := Erb.Tag.framed_of_read hr
    rw [hx, hu] at hs
    exact absurd (List.cons.inj hs).1 (by decide)

theorem not_opening {c : Char} {s : List Char} (hs : ¬ ['<', '%'] <+: c :: s) :
    ¬ ['<', '%'] <+: c :: es.restore s := by
  intro hp
  obtain ⟨rfl, r, hr⟩ := List.cons_prefix_cons.1 hp
  obtain ⟨t, rfl⟩ := h.restore_eq_percent hr.symm
  exact hs ⟨t, rfl⟩

theorem settled_restore {s : List Char} (hs : ¬ ['<', '%'] <:+: s) :
    Erb.Settled (es.restore s) := by
  induction s using restore_induction es with
  | nil => exact .nil
  | char c s hx ih =>
    rw [hx]
    exact .char (h.not_opening fun hp => hs hp.isInfix)
      (ih fun hi => hs (hi.trans (List.suffix_cons c s).isInfix))
  | name e he s hx ih =>
    obtain ⟨tag, t, n, hr⟩ := h e he
    rw [hx]
    exact .tag hr (ih fun hi => hs (hi.trans (List.suffix_append _ s).isInfix))

theorem tagsIn_restore {s : List Char} (hs : ¬ ['<', '%'] <:+: s) :
    Erb.tagsIn (es.restore s) = (es.namesIn s).flatMap fun e => Erb.tagsIn e.2 := by
  induction s using scan_induction es with
  | nil => rfl
  | char c s hx ih =>
    have hopening := h.not_opening fun hp => hs (List.IsPrefix.isInfix hp)
    rw [restore, hx, namesIn_char hx, ← ih fun hi => hs (hi.trans (List.suffix_cons c s).isInfix)]
    exact Erb.tagsIn_cons_of_none (Erb.Tag.read_eq_none_of_not_opening hopening)
  | name e he s hx ih =>
    obtain ⟨tag, t, n, hr⟩ := h e he
    have hself := Erb.tagsIn_append_of_read hr []
    rw [List.append_nil, Erb.tagsIn_nil] at hself
    rw [restore, hx, namesIn_name hx, List.flatMap_cons, hself,
      ← ih fun hi => hs (hi.trans (List.suffix_append _ s).isInfix)]
    exact Erb.tagsIn_append_of_read hr _

end Coded

end Entries

/-- A tag that was taken out of the text comes back with the lookalikes in it. -/
theorem Table.restore_code {t : Table} (h : t.Proper) {e : Name × List Char}
    (he : e ∈ t.codeTags) : t.restore e.1.text = t.lookalikes.restore e.2 := by
  rw [Table.restore_name h he, Table.restore, Table.restoreCodeTags_code h he]

end ErbLayout.Placeholder
