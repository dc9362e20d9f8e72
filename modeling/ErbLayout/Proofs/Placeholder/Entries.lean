import ErbLayout.Placeholder.Table
import ErbLayout.Proofs.Erb.Reading
import ErbLayout.Proofs.Placeholder.Names
import ErbLayout.Proofs.Text.Scan
/-!
The entries of a protected template are what its two scans found, in order: first the words that look
like names, then, in the text that is left, the ERB tags.
-/

namespace ErbLayout.Placeholder

open Text (Found)

/-- Names drawn by counting from one. -/
def Names.counting (left : Nat) : Names := ⟨BitVec.ofNat 128, 1, left⟩

/-- The first pass of a protection: the text without lookalikes, the entries, the names left. -/
def shield (names : Names) (source : List Char) : List Char × Entries × Names :=
  replaceFrom (Name.occurrences source).contains (Text.scan lookalike source) [] names

/-- The ERB tags of a text by their full texts. -/
def tagsOf (s : List Char) : List (Found (List Char)) :=
  (Text.scan Erb.Tag.read s).map fun
    | .char c => .char c
    | .value (_, text) => .value text

/-- The names that the second pass must not use. -/
def shieldTaken (names : Names) (source : List Char) (n : Name) : Bool :=
  (shield names source).2.1.any (·.1 == n) || (Name.occurrences source).contains n

theorem protect_eq (names : Names) (source : List Char) :
    let tags := replaceFrom (shieldTaken names source) (tagsOf (shield names source).1) []
      (shield names source).2.2
    protect names source = ⟨tags.1, ⟨source, tags.2.1, (shield names source).2.1⟩, tags.2.2⟩ := rfl

theorem replaceFrom_entries (taken : Name → Bool) (fs : List (Found (List Char))) (es : Entries)
    (names : Names) :
    (replaceFrom taken fs es names).2.1.map Prod.snd = es.map Prod.snd ++ Found.values fs := by
  induction fs generalizing es names with
  | nil => simp [replaceFrom]
  | cons f fs ih =>
    cases f with
    | char c => simp [replaceFrom, ih]
    | value text => simp [replaceFrom, ih]

theorem Entries.read_mem {es : Entries} {s : List Char} {e : Name × List Char} {n : Nat}
    (h : es.read s = some (e, n)) : e ∈ es := by
  unfold Entries.read at h
  split at h
  · split at h
    · rename_i e' he
      simp only [Option.some.injEq, Prod.mk.injEq] at h
      exact h.1 ▸ List.mem_of_find?_eq_some he
    · simp at h
  · simp at h

theorem Entries.read_initial {es : Entries} {s : List Char} {e : Name × List Char} {n : Nat}
    (h : es.read s = some (e, n)) : e.1.text <+: s := by
  unfold Entries.read at h
  split at h
  · rename_i m k hr
    split at h
    · rename_i e' he
      simp only [Option.some.injEq, Prod.mk.injEq] at h
      obtain ⟨rfl, rfl⟩ := h
      have hm : e'.1 = m := by simpa using List.find?_some he
      exact hm ▸ (Name.read_eq_some.1 hr).2
    · simp at h
  · simp at h

theorem Entries.read_size {es : Entries} {s : List Char} {e : Name × List Char} {n : Nat}
    (h : es.read s = some (e, n)) : n = Name.size := by
  unfold Entries.read at h
  split at h
  · rename_i m k hr
    split at h
    · simp only [Option.some.injEq, Prod.mk.injEq] at h
      rw [← h.2]
      exact (Name.read_eq_some.1 hr).1
    · simp at h
  · simp at h

theorem mem_of_mem_scan {es : Entries} {s : List Char} {e : Name × List Char}
    (h : Found.value e ∈ Text.scan es.read s) : e ∈ es := by
  obtain ⟨t, n, -, hr⟩ := Text.mem_scan h
  exact Entries.read_mem hr

theorem mem_values_tagsOf {s text : List Char} (h : text ∈ Found.values (tagsOf s)) :
    ∃ tag t n, t <:+ s ∧ Erb.Tag.read t = some ((tag, text), n) := by
  rw [Found.mem_values, tagsOf, List.mem_map] at h
  obtain ⟨f, hf, he⟩ := h
  cases f with
  | char c => simp at he
  | value p =>
    obtain ⟨tag, whole⟩ := p
    simp only [Found.value.injEq] at he
    obtain ⟨t, n, ht, hr⟩ := Text.mem_scan hf
    exact ⟨tag, t, n, ht, he ▸ hr⟩

/-- The lookalikes of a protected template are words that its source holds. -/
theorem exists_of_mem_lookalikes {names : Names} {source : List Char} {e : Name × List Char}
    (h : e ∈ (protect names source).table.lookalikes) :
    ∃ s n, s <:+ source ∧ lookalike s = some (e.2, n) := by
  have hv : e.2 ∈ Found.values (Text.scan lookalike source) := by
    have hm := List.mem_map_of_mem (f := Prod.snd) h
    rw [protect_eq] at hm
    simpa only [shield, replaceFrom_entries, List.map_nil, List.nil_append] using hm
  exact Text.mem_scan (Found.mem_values.1 hv)

/-- The code tags of a protected template are ERB tags of what its first pass left. -/
theorem exists_of_mem_codeTags {names : Names} {source : List Char} {e : Name × List Char}
    (h : e ∈ (protect names source).table.codeTags) :
    ∃ tag s n, s <:+ (shield names source).1 ∧ Erb.Tag.read s = some ((tag, e.2), n) := by
  have hv : e.2 ∈ Found.values (tagsOf (shield names source).1) := by
    have hm := List.mem_map_of_mem (f := Prod.snd) h
    rw [protect_eq] at hm
    simpa only [replaceFrom_entries, List.map_nil, List.nil_append] using hm
  exact mem_values_tagsOf hv

theorem split?_of_mem_codeTags {names : Names} {source : List Char} {e : Name × List Char}
    (h : e ∈ (protect names source).table.codeTags) : ∃ tag, Erb.Tag.split? e.2 = some tag := by
  obtain ⟨tag, s, n, -, hr⟩ := exists_of_mem_codeTags h
  exact ⟨tag, Erb.Tag.split?_of_read hr⟩

end ErbLayout.Placeholder
