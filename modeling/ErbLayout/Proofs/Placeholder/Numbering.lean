import ErbLayout.Proofs.Placeholder.Inverse
import ErbLayout.Proofs.Placeholder.Rename
/-!
The names of a table numbered in the order in which they were drawn. Where two tables number the
same things, texts that are renamed to each other restore to the same.
-/

namespace ErbLayout.Text

variable {α β γ : Type}

/-- Two readings of which those that belong together are written alike fill in the same text. -/
theorem Found.fill_eq_of_map {f : α → γ} {f' : β → γ} {write : α → List Char}
    {write' : β → List Char} {fs : List (Found α)} {fs' : List (Found β)}
    (h : fs.map (Found.map f) = fs'.map (Found.map f'))
    (hwrite : ∀ a ∈ Found.values fs, ∀ b ∈ Found.values fs', f a = f' b → write a = write' b) :
    Found.fill write fs = Found.fill write' fs' := by
  induction fs generalizing fs' with
  | nil =>
    obtain rfl := List.map_eq_nil_iff.1 h.symm
    rfl
  | cons x fs ih =>
    cases x with
    | char c =>
      obtain ⟨gs, rfl, hgs⟩ := exists_of_map_char h.symm
      exact congrArg _ (ih hgs.symm hwrite)
    | value a =>
      obtain ⟨b, gs, rfl, hb, hgs⟩ := exists_of_map_value h.symm
      rw [Found.fill_value, Found.fill_value,
        hwrite a List.mem_cons_self b List.mem_cons_self hb.symm]
      refine congrArg _ (ih hgs.symm fun a' ha' b' hb' => ?_)
      exact hwrite a' (List.mem_cons_of_mem _ ha') b' (List.mem_cons_of_mem _ hb')

end ErbLayout.Text

namespace ErbLayout.Placeholder

open Text (Found Framed)

namespace Entries

variable {es es' : Entries} {s w : List Char}

theorem read_eq_none_iff : es.read s = none ↔ ∀ e ∈ es, ¬ e.1.text <+: s := by
  constructor
  · intro h e he hs
    rw [Entries.read, Name.read_eq_some.2 ⟨rfl, hs⟩] at h
    dsimp only at h
    cases hf : es.find? (·.1 == e.1) with
    | none => exact absurd (List.find?_eq_none.1 hf e he) (by simp)
    | some d =>
      rw [hf] at h
      simp at h
  · intro h
    cases hr : es.read s with
    | none => rfl
    | some p => exact absurd (read_initial hr) (h p.1 (read_mem hr))

/-- Characters of names that begin a text with its tags put back begin the text. -/
theorem initial_of_restore (hes : ∀ e ∈ es, Framed e.2) (hw : ∀ c ∈ w, isNameChar c = true)
    (h : w <+: es.restore s) : w <+: s := by
  induction s using restore_induction es generalizing w with
  | nil => exact h
  | char c s hx ih =>
    cases w with
    | nil => exact List.nil_prefix
    | cons x w =>
      rw [hx] at h
      obtain ⟨rfl, hrest⟩ := List.cons_prefix_cons.1 h
      obtain ⟨-, hw⟩ := List.forall_mem_cons.1 hw
      exact List.cons_prefix_cons.2 ⟨rfl, ih hw hrest⟩
  | name e he s hx ih =>
    cases w with
    | nil => exact List.nil_prefix
    | cons x w =>
      obtain ⟨u, hu⟩ := hes e he
      rw [hx, hu] at h
      obtain ⟨rfl, -⟩ := List.cons_prefix_cons.1 h
      exact absurd (hw '<' List.mem_cons_self) (by decide)

end Entries

namespace Table

/-- All entries, in the order in which their names were drawn. -/
def entries (t : Table) : Entries := t.lookalikes ++ t.codeTags

/-- The names of a table, each read as its number. -/
def numbering (t : Table) : Glossary Nat := ⟨t.entries, fun e => t.entries.idxOf e⟩

/-- What a name stands for in the source. -/
def meaning (t : Table) (e : Name × List Char) : List Char := t.lookalikes.restore e.2

/-- A table whose names are told from each other, and whose lookalikes spell none of them. -/
structure Apart (t : Table) : Prop extends t.Proper where
  names : t.entries.Pairwise fun e e' => e.1 ≠ e'.1
  settled : ∀ e ∈ t.lookalikes, t.lookalikes.restore e.2 = e.2

variable {t : Table} {s : List Char}

theorem Apart.distinct_numbering (h : t.Apart) : t.numbering.Distinct := by
  refine ⟨h.names, h.names.imp_of_mem fun {e e'} he _ hne heq => hne ?_⟩
  exact congrArg Prod.fst ((List.idxOf_inj he).1 heq)

theorem read_codeTags (hr : t.entries.read s = none) : t.codeTags.read s = none :=
  Entries.read_eq_none_iff.2 fun e he =>
    Entries.read_eq_none_iff.1 hr e (List.mem_append_right _ he)

theorem Apart.restore_cons (h : t.Apart) {c : Char} (hr : t.entries.read (c :: s) = none) :
    t.restore (c :: s) = c :: t.restore s := by
  have hnone := Entries.read_eq_none_iff.1 hr
  have hcodes : t.codeTags.restore (c :: s) = c :: t.codeTags.restore s := by
    rw [Entries.restore, Text.scan_cons_of_none (read_codeTags hr)]
    rfl
  have hlook : t.lookalikes.read (c :: t.codeTags.restore s) = none := by
    refine Entries.read_eq_none_iff.2 fun e he hp => hnone e (List.mem_append_left _ he) ?_
    rcases ht : e.1.text with _ | ⟨d, v⟩
    · exact List.nil_prefix
    · rw [ht] at hp
      obtain ⟨rfl, hv⟩ := List.cons_prefix_cons.1 hp
      have hname : ∀ x ∈ v, isNameChar x = true := fun x hx =>
        Name.isNameChar_of_mem (n := e.1) (by simp [ht, hx])
      exact List.cons_prefix_cons.2 ⟨rfl, Entries.initial_of_restore h.framed hname hv⟩
  rw [restore, restore, restoreCodeTags, restoreCodeTags, hcodes, Entries.restore,
    Text.scan_cons_of_none hlook]
  rfl

/-- The names of the lookalikes are none of code tags. -/
theorem Apart.namesIn_lookalike (h : t.Apart) {e : Name × List Char} (he : e ∈ t.lookalikes) :
    t.codeTags.namesIn e.1.text = [] := by
  refine Entries.namesIn_of_free fun e' he' hi => ?_
  have hsame := Name.text_injective (hi.eq_of_length (by simp))
  exact (List.pairwise_append.1 h.names).2.2 e he e' he' hsame.symm

theorem Apart.scan_lookalike (h : t.Apart) {e : Name × List Char} (he : e ∈ t.lookalikes)
    (s : List Char) : Text.scan t.codeTags.read (e.1.text ++ s) =
      e.1.text.map .char ++ Text.scan t.codeTags.read s := by
  have hseam := List.nil_append e.1.text ▸ seam_of_name_left [] e.1 s
  rw [Entries.scan_append hseam, Entries.scan_of_namesIn_nil (h.namesIn_lookalike he)]

theorem Apart.scan_code (h : t.Apart) {e : Name × List Char} (he : e ∈ t.codeTags)
    (s : List Char) : Text.scan t.codeTags.read (e.1.text ++ s) =
      .value e :: Text.scan t.codeTags.read s := by
  have hseam := List.nil_append e.1.text ▸ seam_of_name_left [] e.1 s
  rw [Entries.scan_append hseam, Entries.scan_name h.distinct he]
  rfl

theorem Apart.restore_name_append (h : t.Apart) {e : Name × List Char} (he : e ∈ t.entries)
    (s : List Char) : t.restore (e.1.text ++ s) = t.meaning e ++ t.restore s := by
  have hseam (s : List Char) := List.nil_append e.1.text ▸ seam_of_name_left [] e.1 s
  rcases List.mem_append.1 he with he | he
  · have hcode := Entries.restore_of_namesIn_nil (h.namesIn_lookalike he)
    have hlooks := (List.pairwise_append.1 h.names).1
    rw [restore, restoreCodeTags, Entries.restore_append (hseam s), hcode,
      Entries.restore_append (hseam _), Entries.restore_name hlooks he, meaning, h.settled e he]
    rfl
  · rw [restore_append_of_ends h.toProper (.inr ⟨e, he, List.suffix_rfl⟩),
      restore_code h.toProper he]
    rfl

/-- Restoring puts the meaning of each name into its place. -/
theorem Apart.restore_eq_fill (h : t.Apart) (s : List Char) :
    t.restore s = Found.fill t.meaning (Text.scan t.entries.read s) := by
  induction s using Entries.scan_induction t.entries with
  | nil => rfl
  | char c s hx ih =>
    obtain ⟨s', hs, hr, -⟩ := Text.scan_eq_char_cons hx
    obtain ⟨-, rfl⟩ := List.cons.inj hs
    rw [h.restore_cons hr, hx, ih]
    rfl
  | name e he s hx ih =>
    rw [h.restore_name_append he, hx, ih]
    rfl

/-- Two tables of which one numbers what the other numbers. -/
structure Matches (t t' : Table) : Prop where
  apart : t.Apart
  apart' : t'.Apart
  count : t.lookalikes.length = t'.lookalikes.length
  meanings : t.entries.map t.meaning = t'.entries.map t'.meaning
  codes : List.Forall₂ (fun e e' => Renamed t.numbering t'.numbering e.2 e'.2) t.codeTags
    t'.codeTags

variable {t t' : Table} {e e' : Name × List Char} {s s' : List Char}

theorem Apart.nodup (h : t.Apart) : t.entries.Nodup :=
  h.names.imp fun hne he => hne (congrArg Prod.fst he)

theorem getElem?_sense (he : e ∈ t.entries) : t.entries[t.numbering.sense e]? = some e :=
  List.getElem?_idxOf he

/-- The names of the code tags are drawn behind those of the lookalikes. -/
theorem Apart.sense_code (h : t.Apart) (he : e ∈ t.codeTags) :
    t.numbering.sense e = t.lookalikes.length + t.codeTags.idxOf e := by
  refine List.idxOf_append_of_notMem fun hlook => ?_
  exact (List.pairwise_append.1 h.names).2.2 e hlook e he rfl

theorem sense_lookalike_lt (he : e ∈ t.lookalikes) :
    t.numbering.sense e < t.lookalikes.length := by
  change List.idxOf e (t.lookalikes ++ t.codeTags) < _
  rw [List.idxOf_append_of_mem he]
  exact List.idxOf_lt_length_of_mem he

namespace Matches

variable (h : t.Matches t')
include h

theorem meaning_eq (he : e ∈ t.entries) (he' : e' ∈ t'.entries)
    (hsense : t.numbering.sense e = t'.numbering.sense e') : t.meaning e = t'.meaning e' := by
  have hmeant := congrArg (·[t.numbering.sense e]?) h.meanings
  simp only [List.getElem?_map] at hmeant
  rw [getElem?_sense he, hsense, getElem?_sense he'] at hmeant
  exact Option.some.inj hmeant

theorem mem_codeTags (he : e ∈ t.codeTags) (he' : e' ∈ t'.entries)
    (hsense : t.numbering.sense e = t'.numbering.sense e') : e' ∈ t'.codeTags := by
  refine (List.mem_append.1 he').resolve_left fun hlook => ?_
  have hlt := sense_lookalike_lt hlook
  rw [← hsense, h.apart.sense_code he, h.count] at hlt
  omega

theorem mem_lookalikes (he : e ∈ t.lookalikes) (he' : e' ∈ t'.entries)
    (hsense : t.numbering.sense e = t'.numbering.sense e') : e' ∈ t'.lookalikes := by
  refine (List.mem_append.1 he').resolve_right fun hcode => ?_
  have hlt := sense_lookalike_lt he
  rw [hsense, h.apart'.sense_code hcode, ← h.count] at hlt
  omega

/-- Tags that are numbered alike are renamed to each other. -/
theorem renamed_code (he : e ∈ t.codeTags) (he' : e' ∈ t'.codeTags)
    (hsense : t.numbering.sense e = t'.numbering.sense e') :
    Renamed t.numbering t'.numbering e.2 e'.2 := by
  rw [h.apart.sense_code he, h.apart'.sense_code he', h.count, Nat.add_left_cancel_iff] at hsense
  have hi := List.idxOf_lt_length_of_mem he
  have hi' := List.idxOf_lt_length_of_mem he'
  have hcodes := h.codes.get hi (hsense ▸ hi')
  simp only [List.get_eq_getElem, List.getElem_idxOf] at hcodes
  simpa only [hsense, List.getElem_idxOf] using hcodes

/-- Texts that are renamed to each other restore to the same. -/
theorem restore_eq (hs : Renamed t.numbering t'.numbering s s') : t.restore s = t'.restore s' := by
  rw [h.apart.restore_eq_fill, h.apart'.restore_eq_fill]
  refine Found.fill_eq_of_map hs fun e he e' he' hsense => ?_
  exact h.meaning_eq (mem_of_mem_scan (Found.mem_values.1 he))
    (mem_of_mem_scan (Found.mem_values.1 he')) hsense

end Matches

end Table

end ErbLayout.Placeholder
