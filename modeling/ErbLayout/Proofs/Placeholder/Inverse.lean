import ErbLayout.Proofs.Placeholder.Plain
/-!
Restoring undoes protection, on the whole of a protected text and on the parts of it that no name
lies across. What is protected holds no ERB tag, and the tags that gave way to names are those of the
source.
-/

namespace ErbLayout.Placeholder

open Text (Found Framed)

/-- The place where two texts meet lies inside no name of the table. -/
def Table.Uncut (t : Table) (a b : List Char) : Prop :=
  ∀ e ∈ t.codeTags ++ t.lookalikes, ∀ u v,
    e.1.text = u ++ v → u ≠ [] → v ≠ [] → u <:+ a → ¬ v <+: b

namespace Marked

/-- A place that lies inside none of the marked names parts the marks. -/
theorem exists_parts {ms : Marked} {a b : List Char} (hs : ms.written = a ++ b)
    (hcut : ∀ e ∈ Found.values ms, ∀ u v,
      e.1.text = u ++ v → u ≠ [] → v ≠ [] → u <:+ a → ¬ v <+: b) :
    ∃ ms₁ ms₂ : Marked, ms = ms₁ ++ ms₂ ∧ ms₁.written = a ∧ ms₂.written = b := by
  induction ms generalizing a with
  | nil =>
    obtain ⟨rfl, rfl⟩ := List.append_eq_nil_iff.1 hs.symm
    exact ⟨[], [], rfl, rfl, rfl⟩
  | cons f ms ih =>
    cases a with
    | nil => exact ⟨[], f :: ms, rfl, rfl, hs⟩
    | cons x a =>
      cases f with
      | char c =>
        obtain ⟨rfl, hlater⟩ := List.cons.inj hs
        obtain ⟨ms₁, ms₂, rfl, rfl, rfl⟩ := ih hlater fun e he u v hn hu hv hua =>
          hcut e he u v hn hu hv (hua.trans (List.suffix_cons c a))
        exact ⟨.char c :: ms₁, ms₂, rfl, rfl, rfl⟩
      | value e =>
        rcases List.append_eq_append_iff.1 hs with ⟨a', ha, hs'⟩ | ⟨v, hn, hb⟩
        · obtain ⟨ms₁, ms₂, rfl, rfl, rfl⟩ := ih hs' fun e' he' u v hn hu hv hua =>
            hcut e' (List.mem_cons_of_mem e he') u v hn hu hv (ha ▸ hua.trans (List.suffix_append _ _))
          exact ⟨.value e :: ms₁, ms₂, rfl, ha.symm, rfl⟩
        · cases v with
          | nil =>
            rw [List.append_nil] at hn
            exact ⟨[.value e], ms, rfl, by rw [← hn]; exact List.append_nil _, hb.symm⟩
          | cons d v =>
            refine absurd ?_ (hcut e List.mem_cons_self (x :: a) (d :: v) hn (by simp) (by simp)
              List.suffix_rfl)
            rw [hb]
            exact List.prefix_append _ _

variable {ms : Marked} {w : List Char}

/-- Characters of names that begin what is meant stand before any framed stretch. -/
theorem initial_written_of_framed (hms : ∀ e ∈ Found.values ms, Framed e.2)
    (hw : ∀ c ∈ w, isNameChar c = true) (h : w <+: ms.meant) : w <+: ms.written := by
  induction ms generalizing w with
  | nil => exact h
  | cons f ms ih =>
    cases w with
    | nil => exact List.nil_prefix
    | cons x w =>
      cases f with
      | char c =>
        obtain ⟨rfl, hrest⟩ := List.cons_prefix_cons.1 h
        exact List.cons_prefix_cons.2
          ⟨rfl, ih hms (fun d hd => hw d (List.mem_cons_of_mem x hd)) hrest⟩
      | value e =>
        obtain ⟨u, hu⟩ := hms e List.mem_cons_self
        change x :: w <+: e.2 ++ meant ms at h
        rw [hu] at h
        obtain ⟨rfl, -⟩ := List.cons_prefix_cons.1 h
        exact absurd (hw '<' List.mem_cons_self) (by decide)

theorem final_written_of_framed (hms : ∀ e ∈ Found.values ms, Framed e.2)
    (hw : ∀ c ∈ w, isNameChar c = true) (h : w <:+ ms.meant) : w <:+ ms.written := by
  induction ms using List.reverseRecOn generalizing w with
  | nil => exact h
  | append_singleton ms f ih =>
    have hms' : ∀ e ∈ Found.values ms, Framed e.2 := fun e he =>
      hms e (Found.mem_values.2 (List.mem_append_left _ (Found.mem_values.1 he)))
    rw [meant, Found.fill_append] at h
    rw [written, Found.fill_append]
    cases f with
    | char c =>
      rcases List.suffix_concat_iff.1 h with rfl | ⟨w', rfl, hrest⟩
      · exact List.nil_suffix
      · exact List.suffix_concat_iff.2
          (.inr ⟨w', rfl, ih hms' (fun d hd => hw d (List.mem_append_left _ hd)) hrest⟩)
    | value e =>
      obtain ⟨u, hu⟩ := hms e (Found.mem_values.2 (by simp))
      change w <:+ Found.fill Prod.snd ms ++ (e.2 ++ []) at h
      rw [List.append_nil, hu, ← List.append_assoc] at h
      rcases List.suffix_concat_iff.1 h with rfl | ⟨w', rfl, -⟩
      · exact List.nil_suffix
      · exact absurd (hw '>' (by simp)) (by decide)

/-- The marks of both passes over a stretch: what the marks of the tags stand for is written with the
marks of the words. -/
structure Layers (ts ws : Marked) : Prop where
  meant : ts.meant = ws.written
  framed : ∀ e ∈ Found.values ts, Framed e.2

/-- A place that lies inside no name parts the marks of both passes. -/
theorem Layers.exists_halves {ts ws : Marked} {a b : List Char} (h : Layers ts ws)
    (hs : ts.written = a ++ b)
    (hcut : ∀ e ∈ Found.values ts ++ Found.values ws, ∀ u v,
      e.1.text = u ++ v → u ≠ [] → v ≠ [] → u <:+ a → ¬ v <+: b) :
    ∃ ts₁ ts₂ ws₁ ws₂ : Marked, ts = ts₁ ++ ts₂ ∧ ws = ws₁ ++ ws₂ ∧ ts₁.written = a ∧
      ts₂.written = b ∧ Layers ts₁ ws₁ ∧ Layers ts₂ ws₂ := by
  rw [List.forall_mem_append] at hcut
  obtain ⟨ts₁, ts₂, rfl, rfl, rfl⟩ := exists_parts hs hcut.1
  have hframed₁ : ∀ e ∈ Found.values ts₁, Framed e.2 := fun e he => h.framed e
    (Found.mem_values.2 (List.mem_append_left _ (Found.mem_values.1 he)))
  have hframed₂ : ∀ e ∈ Found.values ts₂, Framed e.2 := fun e he => h.framed e
    (Found.mem_values.2 (List.mem_append_right _ (Found.mem_values.1 he)))
  have hmeant : ws.written = ts₁.meant ++ ts₂.meant := by
    rw [← h.meant]
    exact Found.fill_append _ _ _
  obtain ⟨ws₁, ws₂, rfl, hw₁, hw₂⟩ := exists_parts hmeant fun e he u v hn hu hv hua hvb => by
    have hname : ∀ c ∈ u ++ v, isNameChar c = true := fun c hc =>
      Name.isNameChar_of_mem (n := e.1) (hn ▸ hc)
    refine hcut.2 e he u v hn hu hv ?_ ?_
    · exact final_written_of_framed hframed₁ (fun c hc => hname c (List.mem_append_left v hc)) hua
    · exact initial_written_of_framed hframed₂
        (fun c hc => hname c (List.mem_append_right u hc)) hvb
  exact ⟨ts₁, ts₂, ws₁, ws₂, rfl, rfl, rfl, rfl, ⟨hw₁.symm, hframed₁⟩, ⟨hw₂.symm, hframed₂⟩⟩

theorem written_eq_cons {c : Char} {s : List Char} (hc : isNameChar c = false)
    (h : ms.written = c :: s) : ∃ ms' : Marked, ms = .char c :: ms' ∧ ms'.written = s := by
  rcases ms with _ | ⟨f, ms⟩
  · simp [written] at h
  · cases f with
    | char d =>
      obtain ⟨rfl, hs⟩ := List.cons.inj h
      exact ⟨ms, rfl, hs⟩
    | value e =>
      change e.1.text ++ written ms = c :: s at h
      rcases ht : e.1.text with _ | ⟨d, v⟩
      · exact absurd ht (name_ne_nil e.1)
      · have hd : isNameChar d = true := Name.isNameChar_of_mem (n := e.1) (by simp [ht])
        rw [ht] at h
        rw [(List.cons.inj h).1, hc] at hd
        exact absurd hd (by simp)

theorem exists_suffix_of_written {c : Char} {s : List Char} (hc : isNameChar c = false)
    (h : c :: s <:+ ms.written) : ∃ ms' : Marked, .char c :: ms' <:+ ms ∧ ms'.written = s := by
  induction ms with
  | nil => simp [written] at h
  | cons f ms ih =>
    have hlater (hs : c :: s <:+ written ms) :
        ∃ ms' : Marked, .char c :: ms' <:+ f :: ms ∧ ms'.written = s := by
      obtain ⟨ms', hms', hs'⟩ := ih hs
      exact ⟨ms', hms'.trans (List.suffix_cons f ms), hs'⟩
    cases f with
    | char d =>
      rcases List.suffix_cons_iff.1 h with h | h
      · obtain ⟨rfl, rfl⟩ := List.cons.inj h
        exact ⟨ms, List.suffix_rfl, rfl⟩
      · exact hlater h
    | value e =>
      have hskip : ∀ u : List Char, (∀ d ∈ u, isNameChar d = true) →
          c :: s <:+ u ++ written ms → c :: s <:+ written ms := by
        intro u hu hs
        induction u with
        | nil => exact hs
        | cons d u ihu =>
          rcases List.suffix_cons_iff.1 hs with he | hs
          · rw [← (List.cons.inj he).1] at hu
            rw [hu c List.mem_cons_self] at hc
            exact absurd hc (by simp)
          · exact ihu (fun x hx => hu x (List.mem_cons_of_mem d hx)) hs
      exact hlater (hskip e.1.text (fun d hd => Name.isNameChar_of_mem hd) h)

/-- Two characters of punctuation that stand together stand together in what is meant. -/
theorem infix_meant {c d : Char} (hc : isNameChar c = false) (hd : isNameChar d = false)
    (h : [c, d] <:+: ms.written) : [c, d] <:+: ms.meant := by
  obtain ⟨a, b, hab⟩ := h
  have hsuffix : c :: d :: b <:+ ms.written := ⟨a, by simpa using hab⟩
  obtain ⟨ms', hms', hs⟩ := exists_suffix_of_written hc hsuffix
  obtain ⟨ms'', rfl, -⟩ := written_eq_cons hd hs
  refine List.IsInfix.trans ⟨[], meant ms'', rfl⟩ (meant_within hms'.isInfix)

end Marked

theorem values_tagsOf (s : List Char) :
    Found.values (tagsOf s) = (Erb.tagsIn s).map Prod.snd := by
  rw [Erb.tagsIn, tagsOf]
  induction Text.scan Erb.Tag.read s with
  | nil => rfl
  | cons f fs ih =>
    cases f with
    | char c => exact ih
    | value p => exact congrArg _ ih

theorem Marked.values_map_forget (ms : Marked) :
    Found.values (ms.map Marked.forget) = (Found.values ms).map Prod.snd := by
  induction ms with
  | nil => rfl
  | cons f ms ih =>
    cases f with
    | char c => exact ih
    | value e => exact congrArg _ ih

/-- Where a character was left over no tag is read. -/
theorem read_eq_none_of_tagsOf {s : List Char} {c : Char} {fs : List (Found (List Char))}
    (h : .char c :: fs <:+ tagsOf s) : Erb.Tag.read (c :: Found.fill id fs) = none := by
  obtain ⟨gs, hgs⟩ := h
  obtain ⟨gs', fs', hscan, -, hfs⟩ := List.map_eq_append_iff.1 hgs.symm
  obtain ⟨t, -, ht⟩ := Text.exists_of_suffix_scan ⟨gs', hscan.symm⟩
  obtain ⟨f, fs'', rfl, hf, rfl⟩ := List.map_eq_cons_iff.1 hfs
  cases f with
  | value p => simp at hf
  | char d =>
    obtain rfl := Found.char.inj hf
    obtain ⟨t', rfl, hnone, rfl⟩ := Text.scan_eq_char_cons ht
    rw [← fill_tagsOf t'] at hnone
    exact hnone

namespace Marking

variable {names : Names} {source : List Char} {ws ts : Marked} (h : Marking names source ws ts)
include h

theorem framed_tags : ∀ e ∈ Found.values ts, Framed e.2 := by
  rw [← h.codeTags]
  exact h.proper.framed

theorem layers : Marked.Layers ts ws := ⟨h.shielded, h.framed_tags⟩

theorem restore_parts {a b : List Char} (hs : (protect names source).working = a ++ b)
    (hcut : (protect names source).table.Uncut a b) :
    (protect names source).table.restore a ++ (protect names source).table.restore b = source := by
  unfold Table.Uncut at hcut
  rw [h.codeTags, h.lookalikes] at hcut
  obtain ⟨ts₁, ts₂, ws₁, ws₂, rfl, rfl, rfl, rfl, h₁, h₂⟩ :=
    h.layers.exists_halves (h.working.symm.trans hs) hcut
  rw [Table.restore, Table.restore, Table.restoreCodeTags, Table.restoreCodeTags, h.lookalikes,
    h.codeTags, h.tags.restore_part (List.prefix_append ts₁ ts₂).isInfix,
    h.tags.restore_part (List.suffix_append ts₁ ts₂).isInfix, h₁.meant, h₂.meant,
    h.words.restore_part (List.prefix_append ws₁ ws₂).isInfix,
    h.words.restore_part (List.suffix_append ws₁ ws₂).isInfix, ← h.plain]
  exact (Found.fill_append _ _ _).symm

theorem read_eq_none {s : List Char} (hs : s <:+ (protect names source).working) :
    Erb.Tag.read s = none := by
  by_contra hne
  obtain ⟨r, rfl, hr⟩ := Erb.Tag.of_read_ne_none hne
  rw [h.working] at hs
  obtain ⟨ts', hts', hw⟩ := Marked.exists_suffix_of_written (by decide) hs
  obtain ⟨ts'', rfl, rfl⟩ := Marked.written_eq_cons (by decide) hw
  have hfs := hts'.map Marked.forget
  rw [h.tagged] at hfs
  have hnone := read_eq_none_of_tagsOf hfs
  rw [Marked.meant_map_forget] at hnone
  exact Erb.Tag.read_ne_none (Marked.infix_meant (by decide) (by decide) hr) hnone

theorem restore_codeTags :
    (protect names source).table.codeTags.map
        (fun e => (protect names source).table.lookalikes.restore e.2) =
      (Erb.tagsIn source).map Prod.snd := by
  have hsource : source = (protect names source).table.lookalikes.restore ws.written := by
    rw [h.lookalikes, h.words.restore, h.plain]
  conv_rhs => rw [hsource, (plain_lookalikes names source).tagsIn_restore, List.map_map]
  change _ = (Erb.tagsIn ws.written).map ((protect names source).table.lookalikes.restore ∘ Prod.snd)
  rw [← List.map_map, ← values_tagsOf, ← h.tagged, Marked.values_map_forget, ← h.codeTags,
    List.map_map]
  rfl

/-- If every `<%` of a template begins a tag, there is none left over in the protected template. -/
theorem not_opening (hs : Erb.Settled source) :
    ¬ ['<', '%'] <:+: (protect names source).working := by
  intro hi
  rw [h.working] at hi
  obtain ⟨a, b, hab⟩ := hi
  have hsuffix : '<' :: '%' :: b <:+ ts.written := ⟨a, by simpa using hab⟩
  obtain ⟨ts', hts', hw⟩ := Marked.exists_suffix_of_written (by decide) hsuffix
  obtain ⟨ts'', rfl, -⟩ := Marked.written_eq_cons (by decide) hw
  have hleft : [.char '<', .char '%'] <:+: tagsOf ws.written := by
    rw [← h.tagged]
    exact List.IsInfix.trans ⟨[], ts''.map Marked.forget, rfl⟩ (hts'.map Marked.forget).isInfix
  have hsettled : Erb.Settled ws.written := by
    rwa [← (plain_lookalikes names source).settled_restore_iff, h.lookalikes, h.words.restore,
      h.plain]
  obtain ⟨fs, hfs, he⟩ := List.infix_map_iff.1 hleft
  obtain ⟨f, gs, rfl, hf, hgs⟩ := List.map_eq_cons_iff.1 he.symm
  obtain ⟨g, gs, rfl, hg, hnil⟩ := List.map_eq_cons_iff.1 hgs
  obtain rfl := List.map_eq_nil_iff.1 hnil
  cases f with
  | value p => simp at hf
  | char c =>
    cases g with
    | value p => simp at hg
    | char d =>
      obtain rfl := Found.char.inj hf
      obtain rfl := Found.char.inj hg
      exact hsettled.scan hfs

end Marking

/-- Restoring is the inverse of protecting, on pieces too. -/
theorem restore_inverts_protect (names : Names) (source : List Char)
    (ha : names.Ample (3 * source.length)) :
    let p := protect names source
    p.table.restore p.working = source ∧
      (∀ a b, p.working = a ++ b → p.table.Uncut a b →
        p.table.restore a ++ p.table.restore b = source) ∧
      (∀ s, s <:+ p.working → Erb.Tag.read s = none) ∧
      p.table.codeTags.map (fun e => p.table.lookalikes.restore e.2) =
        (Erb.tagsIn source).map Prod.snd := by
  obtain ⟨ws, ts, h⟩ := exists_marking ha
  exact ⟨h.restore_working, fun a b hs hcut => h.restore_parts hs hcut, fun s hs => h.read_eq_none hs,
    h.restore_codeTags⟩

-- Both kinds of entry, one inside the other, cut between the two names.
theorem restore_inverts_protect_nested :
    let source := "erb0tagtag<%= erb1tag %>".toList
    let p := protect (Names.counting 128) source
    let a := p.working.take Name.size
    let b := p.working.drop Name.size
    p.table.codeTags.length = 1 ∧ p.table.lookalikes.length = 2 ∧ p.table.Uncut a b ∧
      p.table.restore a ++ p.table.restore b = source := by
  intro source p a b
  have ha : (Names.counting 128).Ample (3 * source.length) :=
    Names.ample_counting (by decide) (by decide)
  have hname : a = Name.text 1 := by decide +kernel
  have hcut : p.table.Uncut a b := by
    intro e _
    rw [hname]
    exact seam_of_name_left [] 1 b e.1
  exact ⟨by decide +kernel, by decide +kernel, hcut,
    (restore_inverts_protect (Names.counting 128) source ha).2.1 a b
      (List.take_append_drop _ _).symm hcut⟩

end ErbLayout.Placeholder
