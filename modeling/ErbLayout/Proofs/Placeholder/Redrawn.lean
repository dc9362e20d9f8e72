import ErbLayout.Proofs.Erb.Renamed
import ErbLayout.Proofs.Placeholder.Numbering
/-!
A template that is protected with other names is the same but for the names, and so is what they
stand for. Each name stands at one place of a protected template. So what stands at two places,
between characters of no name, holds no names; and what holds none stands there as it does in the
source.
-/

namespace ErbLayout.Placeholder

open Text (Found)

section Tags

variable {s w : List Char} {c : Char} {fs gs : List (Found (List Char))} {ms : Marked}

theorem tagsOf_cons_of_none (h : Erb.Tag.read (c :: s) = none) :
    tagsOf (c :: s) = .char c :: tagsOf s := by
  rw [tagsOf, Text.scan_cons_of_none h]
  rfl

theorem tagsOf_append_of_read {tag : Erb.Tag} {n : Nat}
    (h : Erb.Tag.read s = some ((tag, w), n)) (r : List Char) :
    tagsOf (w ++ r) = .value w :: tagsOf r := by
  have hpos := (Erb.Tag.framed_of_read h).length_pos
  have hne : w ++ r ≠ [] := by simp [List.ne_nil_of_length_pos hpos]
  rw [tagsOf, Text.scan_of_some hpos (Erb.Tag.read_append h r) hne, List.drop_left]
  rfl

theorem tagsOf_append_of_not_mem (hw : '<' ∉ w) (s : List Char) :
    tagsOf (w ++ s) = w.map .char ++ tagsOf s := by
  induction w with
  | nil => rfl
  | cons c w ih =>
    obtain ⟨hc, hw⟩ := not_or.1 (mt List.mem_cons.2 hw)
    have hnone : ¬ ['<', '%'] <+: c :: (w ++ s) := fun hp => hc (List.cons_prefix_cons.1 hp).1
    rw [List.cons_append, tagsOf_cons_of_none (Erb.Tag.read_eq_none_of_not_opening hnone), ih hw]
    rfl

namespace Marked

theorem exists_of_forget_char (h : ms.map forget = .char c :: fs) :
    ∃ ms' : Marked, ms = .char c :: ms' ∧ ms'.map forget = fs := by
  obtain ⟨x, ms', rfl, hx, rfl⟩ := List.map_eq_cons_iff.1 h
  cases x with
  | char d =>
    obtain rfl := Found.char.inj hx
    exact ⟨ms', rfl, rfl⟩
  | value e => simp [forget] at hx

theorem exists_of_forget_value (h : ms.map forget = .value w :: fs) :
    ∃ e, ∃ ms' : Marked, ms = .value e :: ms' ∧ e.2 = w ∧ ms'.map forget = fs := by
  obtain ⟨x, ms', rfl, hx, rfl⟩ := List.map_eq_cons_iff.1 h
  cases x with
  | char d => simp [forget] at hx
  | value e => exact ⟨e, ms', rfl, Found.value.inj hx, rfl⟩

theorem exists_of_forget_chars (h : ms.map forget = w.map .char ++ fs) :
    ∃ ms' : Marked, ms = w.map .char ++ ms' ∧ ms'.map forget = fs := by
  induction w generalizing ms with
  | nil => exact ⟨ms, rfl, h⟩
  | cons c w ih =>
    obtain ⟨ms', rfl, hms⟩ := exists_of_forget_char h
    obtain ⟨ms'', rfl, hfs⟩ := ih hms
    exact ⟨ms'', rfl, hfs⟩

theorem written_chars (w : List Char) (ms : Marked) :
    written (w.map .char ++ ms) = w ++ ms.written := by
  induction w with
  | nil => rfl
  | cons c w ih => exact congrArg _ ih

theorem values_chars (w : List Char) (ms : Marked) :
    Found.values (w.map .char ++ ms) = Found.values ms := by
  induction w with
  | nil => rfl
  | cons c w ih => exact ih

theorem meant_of_forget (h : ms.map forget = tagsOf s) : ms.meant = s := by
  rw [← meant_map_forget, h, fill_tagsOf]

/-- A name that begins where no mark does is spelled by what is meant. -/
theorem initial_of_char {n : Name} (h : n.text <+: c :: ms.written) : n.text <+: c :: ms.meant := by
  rcases initial_written (.char c :: ms) h with ⟨text, ms', he⟩ | hm
  · simp at he
  · exact hm

end Marked

end Tags

/-- Entries of two glossaries that are read as the same. -/
def Glossary.Same {α : Type} (g g' : Glossary α) (e e' : Name × List Char) : Prop :=
  e ∈ g.entries ∧ e' ∈ g'.entries ∧ g.sense e = g'.sense e'

section Written

variable {α : Type} {g g' : Glossary α} (hg : g.Distinct) (hg' : g'.Distinct)
include hg hg'

/-- When the tags of a text and of a renamed one give way to names that belong together, what is
left is renamed, and so are the tags. -/
theorem renamed_written {s s' : List Char} {ts ts' : Marked} (h : Renamed g g' s s')
    (hts : ts.map Marked.forget = tagsOf s) (hts' : ts'.map Marked.forget = tagsOf s')
    (hsame : List.Forall₂ (g.Same g') (Found.values ts) (Found.values ts')) :
    Renamed g g' ts.written ts'.written ∧
      List.Forall₂ (fun e e' => Renamed g g' e.2 e'.2) (Found.values ts) (Found.values ts') := by
  induction s using Entries.scan_tag_induction g.entries generalizing s' ts ts' with
  | nil =>
    obtain rfl := h.like.eq_nil_iff.1 rfl
    obtain rfl := List.map_eq_nil_iff.1 hts
    obtain rfl := List.map_eq_nil_iff.1 hts'
    exact ⟨.nil, .nil⟩
  | char c s hx hr ih =>
    obtain ⟨s₁, hs₁, hread, -⟩ := Text.scan_eq_char_cons hx
    obtain ⟨-, rfl⟩ := List.cons.inj hs₁
    obtain ⟨t, rfl, hread', ht⟩ := h.char_inv hread
    have hr' : Erb.Tag.read (c :: t) = none := by
      cases hr' : Erb.Tag.read (c :: t) with
      | none => rfl
      | some p =>
        obtain ⟨tag, whole, hback, -⟩ := Erb.Tag.renamed_read h.symm hr'
        rw [hback] at hr
        simp at hr
    rw [tagsOf_cons_of_none hr] at hts
    rw [tagsOf_cons_of_none hr'] at hts'
    obtain ⟨us, rfl, hus⟩ := Marked.exists_of_forget_char hts
    obtain ⟨us', rfl, hus'⟩ := Marked.exists_of_forget_char hts'
    obtain ⟨hwritten, hcodes⟩ := ih ht hus hus' hsame
    refine ⟨hwritten.char ?_ ?_, hcodes⟩
    · refine Entries.read_eq_none_iff.2 fun e he hp => Entries.read_eq_none_iff.1 hread e he ?_
      exact Marked.meant_of_forget hus ▸ Marked.initial_of_char hp
    · refine Entries.read_eq_none_iff.2 fun e he hp => Entries.read_eq_none_iff.1 hread' e he ?_
      exact Marked.meant_of_forget hus' ▸ Marked.initial_of_char hp
  | name e he s hx ih =>
    obtain ⟨e', he', t, rfl, hsense, ht⟩ := h.name_inv hg he
    rw [tagsOf_append_of_not_mem (Name.angle_not_mem e.1)] at hts
    rw [tagsOf_append_of_not_mem (Name.angle_not_mem e'.1)] at hts'
    obtain ⟨us, rfl, hus⟩ := Marked.exists_of_forget_chars hts
    obtain ⟨us', rfl, hus'⟩ := Marked.exists_of_forget_chars hts'
    rw [Marked.values_chars, Marked.values_chars] at hsame ⊢
    obtain ⟨hwritten, hcodes⟩ := ih ht hus hus' hsame
    rw [Marked.written_chars, Marked.written_chars]
    exact ⟨hwritten.name hg hg' he he' hsense, hcodes⟩
  | tag t tag whole n s hr ih =>
    have hframed := Erb.Tag.framed_of_read hr
    have hlast : LastFree whole := by
      obtain ⟨u, rfl⟩ := hframed
      exact lastFree_concat ('<' :: u) (by decide)
    obtain ⟨tag', whole', hr', hwhole⟩ := Erb.Tag.renamed_read h (Erb.Tag.read_append hr s)
    obtain ⟨t', rfl⟩ := Erb.Tag.exists_append_of_read hr'
    obtain ⟨-, ht⟩ := h.cut hwhole.like.length_eq (.inl hlast)
    rw [tagsOf_append_of_read hr] at hts
    rw [tagsOf_append_of_read hr'] at hts'
    obtain ⟨e, us, rfl, rfl, hus⟩ := Marked.exists_of_forget_value hts
    obtain ⟨e', us', rfl, rfl, hus'⟩ := Marked.exists_of_forget_value hts'
    obtain ⟨⟨he, he', hsense⟩, hrest⟩ := List.forall₂_cons.1 hsame
    obtain ⟨hwritten, hcodes⟩ := ih ht hus hus' hrest
    exact ⟨hwritten.name hg hg' he he' hsense, .cons hwhole hcodes⟩

end Written

namespace Entries

/-- Names that a text does not spell are not found in it. -/
theorem scan_append_of_free {es es' : Entries} {s : List Char}
    (h : ∀ e ∈ es', ¬ e.1.text <:+: s) : Text.scan (es ++ es').read s = Text.scan es.read s := by
  have hread (t : List Char) (ht : t <:+ s) : (es ++ es').read t = es.read t := by
    cases hr : es.read t with
    | none =>
      have hnone := read_eq_none_iff.1 hr
      refine read_eq_none_iff.2 fun e he hp => ?_
      rcases List.mem_append.1 he with he | he
      · exact hnone e he hp
      · exact h e he (hp.isInfix.trans ht.isInfix)
    | some p =>
      unfold Entries.read at hr ⊢
      split at hr
      · rename_i n k hname
        split at hr
        · rename_i e hfind
          rw [List.find?_append, hfind]
          exact hr
        · simp at hr
      · simp at hr
  have hscan (k : Nat) (t : List Char) (ht : t <:+ s) :
      Text.scanFrom (es ++ es').read k t = Text.scanFrom es.read k t := by
    induction t generalizing k with
    | nil => cases k <;> rfl
    | cons c t ih =>
      have ht' := (List.suffix_cons c t).trans ht
      cases k with
      | zero =>
        rw [Text.scanFrom, Text.scanFrom, hread _ ht]
        split
        · rw [ih _ ht']
        · rw [ih _ ht']
      | succ k => exact ih k ht'
  exact hscan 0 s List.suffix_rfl

end Entries

section Protect

variable {names names' : Names} {source : List Char} {ws ts ws' ts' : Marked}

theorem Marking.apart (h : Marking names source ws ts) : (protect names source).table.Apart := by
  refine ⟨h.proper, ?_, ?_⟩
  · rw [Table.entries, h.lookalikes, h.codeTags, List.pairwise_append]
    refine ⟨h.words.distinct, h.tags.distinct, fun e he e' he' hname => ?_⟩
    refine h.tags.fresh e' he' ?_
    rw [← hname, h.shielded]
    exact (Marked.infix_of_mem he).1
  · rw [h.lookalikes]
    refine fun e he => Entries.restore_eq_self fun e' he' hi => ?_
    exact h.words.fresh e' he' (hi.trans (Marked.infix_of_mem he).2)

theorem Marking.map_lookalikes (h : Marking names source ws ts) :
    (protect names source).table.lookalikes.map Prod.snd =
      Found.values (Text.scan lookalike source) := by
  rw [h.lookalikes, ← h.found, Marked.values_map_forget]

/-- What the names of a protected template stand for depends on the template only. -/
theorem Marking.meanings (h : Marking names source ws ts) :
    let t := (protect names source).table
    t.entries.map t.meaning =
      Found.values (Text.scan lookalike source) ++ (Erb.tagsIn source).map Prod.snd := by
  intro t
  rw [Table.entries, List.map_append, ← h.map_lookalikes, ← h.restore_codeTags]
  exact congrArg (· ++ _) (List.map_congr_left h.apart.settled)

/-- The first pass of a protection, with its names numbered. -/
theorem Marking.reveal_shielded (h : Marking names source ws ts) :
    (protect names source).table.numbering.reveal ws.written =
      ws.map (Found.map (protect names source).table.numbering.sense) := by
  have hfree : ∀ e ∈ (protect names source).table.codeTags, ¬ e.1.text <:+: ws.written := by
    rw [h.codeTags, ← h.shielded]
    exact h.tags.fresh
  have hscan : Text.scan (protect names source).table.entries.read ws.written =
      Text.scan (protect names source).table.lookalikes.read ws.written :=
    Entries.scan_append_of_free hfree
  rw [h.lookalikes, h.words.scan_part List.infix_rfl] at hscan
  exact congrArg (List.map _) hscan

theorem Marked.map_sense_eq {α : Type} {g g' : Glossary α} {ms ms' : Marked}
    (h : ms.map Marked.forget = ms'.map Marked.forget)
    (hsame : List.Forall₂ (g.Same g') (Found.values ms) (Found.values ms')) :
    ms.map (Found.map g.sense) = ms'.map (Found.map g'.sense) := by
  induction ms generalizing ms' with
  | nil =>
    obtain rfl := List.map_eq_nil_iff.1 h.symm
    rfl
  | cons x ms ih =>
    cases x with
    | char c =>
      obtain ⟨us, rfl, hus⟩ := exists_of_forget_char h.symm
      exact congrArg _ (ih hus.symm hsame)
    | value e =>
      obtain ⟨e', us, rfl, -, hus⟩ := exists_of_forget_value h.symm
      obtain ⟨⟨-, -, hsense⟩, hrest⟩ := List.forall₂_cons.1 hsame
      rw [List.map_cons, List.map_cons, ih hus.symm hrest]
      exact congrArg (Found.value · :: _) hsense

theorem Table.same_entries {t t' : Table} (ht : t.Apart) (ht' : t'.Apart)
    (hlen : t.entries.length = t'.entries.length) :
    List.Forall₂ (t.numbering.Same t'.numbering) t.entries t'.entries := by
  refine List.forall₂_iff_get.2 ⟨hlen, fun i hi hi' => ⟨List.get_mem _ _, List.get_mem _ _, ?_⟩⟩
  exact (ht.nodup.idxOf_getElem i hi).trans (ht'.nodup.idxOf_getElem i hi').symm

/-- A template that is protected with other names is the same but for them. -/
theorem matches_protect (ha : names.Ample (3 * source.length))
    (ha' : names'.Ample (3 * source.length)) :
    let p := protect names source
    let p' := protect names' source
    p.table.Matches p'.table ∧
      Renamed p.table.numbering p'.table.numbering p.working p'.working := by
  intro p p'
  obtain ⟨ws, ts, h⟩ := exists_marking ha
  obtain ⟨ws', ts', h'⟩ := exists_marking ha'
  have hmeanings := h.meanings.trans h'.meanings.symm
  have hcount := congrArg List.length (h.map_lookalikes.trans h'.map_lookalikes.symm)
  rw [List.length_map, List.length_map] at hcount
  have hsame := Table.same_entries h.apart h'.apart (by simpa using congrArg List.length hmeanings)
  have hlooks := List.forall₂_take p.table.lookalikes.length hsame
  have hcodes := List.forall₂_drop p.table.lookalikes.length hsame
  rw [Table.entries, Table.entries, List.take_left, hcount, List.take_left, h.lookalikes,
    h'.lookalikes] at hlooks
  rw [Table.entries, Table.entries, List.drop_left, hcount, List.drop_left, h.codeTags,
    h'.codeTags] at hcodes
  have hshielded : Renamed p.table.numbering p'.table.numbering ws.written ws'.written := by
    rw [Renamed, h.reveal_shielded, h'.reveal_shielded]
    exact Marked.map_sense_eq (h.found.trans h'.found.symm) hlooks
  obtain ⟨hworking, hrenamed⟩ := renamed_written h.apart.distinct_numbering
    h'.apart.distinct_numbering hshielded h.tagged h'.tagged hcodes
  rw [← h.codeTags, ← h'.codeTags] at hrenamed
  rw [← h.working, ← h'.working] at hworking
  exact ⟨⟨h.apart, h'.apart, hcount, hmeanings, hrenamed⟩, hworking⟩

end Protect

theorem HeadFree.before {a : List Char} (ha : HeadFree a) (hne : a ≠ []) (b : List Char) :
    HeadFree (a ++ b) := by
  obtain ⟨c, r, rfl⟩ := List.exists_cons_of_ne_nil hne
  exact headFree_cons (ha c rfl) (r ++ b)

/-- A text in which no name of the table stands. -/
def Table.Unnamed (t : Table) (s : List Char) : Prop :=
  t.codeTags.namesIn s = [] ∧ t.lookalikes.namesIn s = []

theorem Table.Unnamed.restore {t : Table} {s : List Char} (h : t.Unnamed s) : t.restore s = s := by
  rw [Table.restore, Table.restoreCodeTags, Entries.restore_of_namesIn_nil h.1,
    Entries.restore_of_namesIn_nil h.2]

namespace Marked

variable {ms xs ys as bs cs : Marked} {ts ws : Marked} {a m b : List Char}

theorem values_append (xs ys : Marked) :
    Found.values (xs ++ ys) = Found.values xs ++ Found.values ys := List.filterMap_append

theorem eq_chars_of_values (h : Found.values xs = []) : xs = xs.written.map .char := by
  induction xs with
  | nil => rfl
  | cons x xs ih =>
    cases x with
    | value e => simp at h
    | char c => exact congrArg (Found.char c :: ·) (ih h)

/-- Two stretches that are written alike have the same marks. -/
theorem Faithful.eq_of_written (h : Faithful ms) (hx : xs <:+: ms) (hy : ys <:+: ms)
    (hw : xs.written = ys.written) : xs = ys := by
  rw [← h.scan_part hx, hw, h.scan_part hy]

/-- A mark stands once, so what is written twice holds no marks. -/
theorem Faithful.values_of_twice (h : Faithful (as ++ (xs ++ (cs ++ (ys ++ bs)))))
    (hw : xs.written = ys.written) : Found.values xs = [] := by
  have hsame : xs = ys := by
    refine h.eq_of_written ⟨as, cs ++ (ys ++ bs), by simp⟩ ⟨as ++ (xs ++ cs), bs, by simp⟩ hw
  have hdistinct := h.distinct
  simp only [values_append, List.pairwise_append] at hdistinct
  obtain ⟨-, ⟨-, -, hapart⟩, -⟩ := hdistinct
  refine List.eq_nil_iff_forall_not_mem.2 fun e he => ?_
  exact hapart e he e (by simp [← hsame, he]) rfl

/-- A stretch between characters of no name takes its marks with it. -/
theorem Layers.exists_middle (h : Layers ts ws) (hs : ts.written = a ++ (m ++ b))
    (ha : LastFree a) (hb : HeadFree b) :
    ∃ ts₁ tm ts₂ ws₁ wm ws₂ : Marked, ts = ts₁ ++ (tm ++ ts₂) ∧ ws = ws₁ ++ (wm ++ ws₂) ∧
      tm.written = m ∧ ts₂.written = b ∧ Layers tm wm ∧ Layers ts₂ ws₂ := by
  have hcut {s t : List Char} (hst : LastFree s ∨ HeadFree t) (es : Entries) :
      ∀ e ∈ es, ∀ u v, e.1.text = u ++ v → u ≠ [] → v ≠ [] → u <:+ s → ¬ v <+: t :=
    fun e _ => seam_of_free hst e.1
  obtain ⟨ts₁, ts', ws₁, ws', rfl, rfl, -, hs', -, h'⟩ := h.exists_halves hs (hcut (.inl ha) _)
  obtain ⟨tm, ts₂, wm, ws₂, rfl, rfl, hm, hb', h₁, h₂⟩ :=
    h'.exists_halves hs' (hcut (.inr hb) _)
  exact ⟨ts₁, tm, ts₂, ws₁, wm, ws₂, rfl, rfl, hm, hb', h₁, h₂⟩

end Marked

namespace Marking

variable {names : Names} {source : List Char} {ws ts : Marked} {a m c b : List Char}
variable (h : Marking names source ws ts)
include h

/-- Where no name of a tag stands both passes write the same. -/
theorem written_eq {tm wm : Marked} (hl : Marked.Layers tm wm) (htm : tm <:+: ts)
    (hnone : (protect names source).table.codeTags.namesIn tm.written = []) :
    tm.written = wm.written := by
  rw [← hl.meant, ← h.tags.restore_part htm, ← h.codeTags, Entries.restore_of_namesIn_nil hnone]

theorem unnamed_of_values {tm wm : Marked} (hl : Marked.Layers tm wm) (htm : tm <:+: ts)
    (hwm : wm <:+: ws) (ht : Found.values tm = []) (hw : Found.values wm = []) :
    (protect names source).table.Unnamed tm.written := by
  have hnone : (protect names source).table.codeTags.namesIn tm.written = [] := by
    rw [h.codeTags, Entries.namesIn, h.tags.scan_part htm, ht]
  refine ⟨hnone, ?_⟩
  rw [h.written_eq hl htm hnone, h.lookalikes, Entries.namesIn, h.words.scan_part hwm, hw]

/-- What stands at two places of a protected template holds no names. -/
theorem unnamed_of_twice (hs : (protect names source).working = a ++ (m ++ (c ++ (m ++ b))))
    (ha : LastFree a) (hc : HeadFree c) (hne : c ≠ []) (hc' : LastFree c) (hb : HeadFree b) :
    (protect names source).table.Unnamed m := by
  obtain ⟨ts₁, tm, ts₂, ws₁, wm, ws₂, hts, hws, hm, hrest, hl, hl₂⟩ :=
    h.layers.exists_middle (h.working.symm.trans hs) ha (hc.before hne _)
  obtain ⟨tc, tn, ts₃, wc, wn, ws₃, rfl, rfl, hn, -, hl', -⟩ := hl₂.exists_middle hrest hc' hb
  have htags := h.tags
  have hwords := h.words
  rw [hts] at htags
  rw [hws] at hwords
  have htm : tm <:+: ts := ⟨ts₁, tc ++ (tn ++ ts₃), by rw [hts, List.append_assoc]⟩
  have htn : tn <:+: ts := ⟨ts₁ ++ (tm ++ tc), ts₃, by rw [hts]; simp⟩
  have hsame : tm = tn := h.tags.eq_of_written htm htn (hm.trans hn.symm)
  rw [← hm]
  refine h.unnamed_of_values hl htm ⟨ws₁, wc ++ (wn ++ ws₃), by rw [hws, List.append_assoc]⟩
    (htags.values_of_twice (hm.trans hn.symm)) (hwords.values_of_twice ?_)
  rw [← hl.meant, hsame, hl'.meant]

/-- The first pass found nothing in a text without names, nor across its ends. -/
theorem chars_of_unnamed (hs : (protect names source).working = a ++ (m ++ b)) (ha : LastFree a)
    (hb : HeadFree b) (hm : (protect names source).table.Unnamed m) :
    m.map Found.char <:+: Text.scan lookalike source := by
  obtain ⟨ts₁, tm, ts₂, ws₁, wm, ws₂, hts, hws, rfl, -, hl, -⟩ :=
    h.layers.exists_middle (h.working.symm.trans hs) ha hb
  have htm : tm <:+: ts := ⟨ts₁, ts₂, by rw [hts, List.append_assoc]⟩
  have hwm : wm <:+: ws := ⟨ws₁, ws₂, by rw [hws, List.append_assoc]⟩
  have hwritten := h.written_eq hl htm hm.1
  have hnone := hm.2
  rw [hwritten, h.lookalikes, Entries.namesIn, h.words.scan_part hwm] at hnone
  have hchars := congrArg (List.map Marked.forget) (Marked.eq_chars_of_values hnone)
  rw [List.map_map] at hchars
  rw [hwritten, ← h.found]
  exact hchars ▸ hwm.map Marked.forget

end Marking

end ErbLayout.Placeholder
