import ErbLayout.Proofs.Placeholder.Entries
import ErbLayout.Proofs.Placeholder.Names
/-!
A text with marked stretches, each with its name, is written with the names or with what they stand
for. When the names differ and the text does not spell them out, scanning for them finds exactly the
marks.
-/

namespace ErbLayout.Placeholder

open Text (Found)

abbrev Marked := List (Found (Name × List Char))

namespace Marked

def written (ms : Marked) : List Char := Found.fill (fun e => e.1.text) ms

def meant (ms : Marked) : List Char := Found.fill Prod.snd ms

def forget : Found (Name × List Char) → Found (List Char)
  | .char c => .char c
  | .value e => .value e.2

structure Faithful (ms : Marked) : Prop where
  distinct : (Found.values ms).Pairwise fun e e' => e.1 ≠ e'.1
  fresh : ∀ e ∈ Found.values ms, ¬ e.1.text <:+: ms.meant

theorem name_ne_nil (n : Name) : n.text ≠ [] := List.ne_nil_of_length_pos (by simp [Name.size])

theorem meant_map_forget (ms : Marked) : Found.fill id (ms.map forget) = ms.meant := by
  induction ms with
  | nil => rfl
  | cons f ms ih =>
    cases f with
    | char c => exact congrArg _ ih
    | value e => exact congrArg _ ih

theorem length_values_map_forget (ms : Marked) :
    (Found.values (ms.map forget)).length = (Found.values ms).length := by
  induction ms with
  | nil => rfl
  | cons f ms ih => cases f <;> simpa [forget] using ih

theorem initial_meant {n : Name} {u v : List Char} {ms : Marked} (hn : n.text = u ++ v)
    (hu : u ≠ []) (hv : v <+: ms.written) : v <+: ms.meant := by
  induction ms generalizing u v with
  | nil => exact hv
  | cons f ms ih =>
    rcases v with _ | ⟨c, v⟩
    · exact List.nil_prefix
    · cases f with
      | char d =>
        obtain ⟨rfl, hrest⟩ := List.cons_prefix_cons.1 hv
        exact List.cons_prefix_cons.2 ⟨rfl, ih (u := u ++ [c]) (by simpa using hn) (by simp) hrest⟩
      | value e =>
        have hlen := congrArg List.length hn
        have hpos := List.length_pos_iff.2 hu
        rw [Name.length_text, List.length_append] at hlen
        have hshort : (c :: v).length ≤ e.1.text.length := by
          rw [Name.length_text]
          omega
        have hover : c :: v <+: e.1.text :=
          List.prefix_of_prefix_length_le hv (List.prefix_append _ _) hshort
        exact absurd hover (Name.not_overlap hn hu (by simp))

theorem initial_written {n : Name} (ms : Marked) (h : n.text <+: ms.written) :
    (∃ text ms', ms = .value (n, text) :: ms') ∨ n.text <+: ms.meant := by
  rcases ms with _ | ⟨f, ms⟩
  · exact .inr h
  · cases f with
    | char c =>
      rcases ht : n.text with _ | ⟨d, v⟩
      · exact absurd ht (name_ne_nil n)
      · rw [ht] at h
        obtain ⟨rfl, hv⟩ := List.cons_prefix_cons.1 h
        exact .inr (List.cons_prefix_cons.2
          ⟨rfl, initial_meant (u := [d]) (by simpa using ht) (by simp) hv⟩)
    | value e =>
      have hp : n.text <+: e.1.text :=
        List.prefix_of_prefix_length_le h (List.prefix_append _ _) (by simp)
      have he : n = e.1 := Name.text_injective (hp.eq_of_length (by simp))
      exact .inl ⟨e.2, ms, by rw [he]⟩

theorem infix_written {n : Name} {ms : Marked} (h : n.text <:+: ms.written) :
    (∃ e ∈ Found.values ms, e.1 = n) ∨ n.text <:+: ms.meant := by
  induction ms with
  | nil => exact .inr h
  | cons f ms ih =>
    have hlater (hw : n.text <:+: written ms) : (∃ e ∈ Found.values (f :: ms), e.1 = n) ∨
        n.text <:+: meant (f :: ms) := by
      rcases ih hw with ⟨e, he, hn⟩ | hm
      · refine .inl ⟨e, ?_, hn⟩
        cases f with
        | char c => exact he
        | value e' => exact List.mem_cons_of_mem e' he
      · refine .inr ?_
        cases f with
        | char c => exact hm.trans (List.suffix_cons c _).isInfix
        | value e' => exact hm.trans (List.suffix_append e'.2 _).isInfix
    cases f with
    | char c =>
      rcases List.infix_cons_iff.1 h with h | h
      · rcases initial_written (.char c :: ms) h with ⟨text, ms', he⟩ | h
        · simp at he
        · exact .inr h.isInfix
      · exact hlater h
    | value e =>
      -- the name begins before the mark's name, inside it or behind it
      obtain ⟨s, t, h⟩ := h
      change s ++ n.text ++ t = e.1.text ++ written ms at h
      rw [List.append_assoc] at h
      rcases List.append_eq_append_iff.1 h with ⟨x, hx, hy⟩ | ⟨x, hx, hy⟩
      · rcases s with _ | ⟨c, s⟩
        · simp only [List.nil_append] at hx
          subst hx
          have hp : n.text <+: e.1.text :=
            List.prefix_of_prefix_length_le ⟨t, hy⟩ (List.prefix_append _ _) (by simp)
          exact .inl ⟨e, List.mem_cons_self,
            (Name.text_injective (hp.eq_of_length (by simp))).symm⟩
        · rcases x with _ | ⟨d, x⟩
          · exact hlater ⟨[], t, by simpa using hy⟩
          · have hlen := congrArg List.length hx
            rw [Name.length_text, List.length_append] at hlen
            simp only [List.length_cons] at hlen
            have hover : d :: x <+: n.text :=
              List.prefix_of_prefix_length_le (List.prefix_append _ _) ⟨t, hy⟩
                (by simp only [Name.length_text, List.length_cons]; omega)
            exact absurd hover (Name.not_overlap hx (by simp) (by simp))
      · exact hlater ⟨x, t, by rw [hy, List.append_assoc]⟩

theorem find?_of_distinct {es : Entries} (h : es.Pairwise fun e e' => e.1 ≠ e'.1)
    {e : Name × List Char} (he : e ∈ es) : es.find? (·.1 == e.1) = some e := by
  induction es with
  | nil => simp at he
  | cons e' es ih =>
    obtain ⟨hhead, htail⟩ := List.pairwise_cons.1 h
    rcases List.mem_cons.1 he with rfl | he
    · simp
    · rw [List.find?_cons_of_neg (by simpa using hhead e he)]
      exact ih htail he

variable {ms : Marked}

theorem Faithful.read (h : Faithful ms) {e : Name × List Char} (he : e ∈ Found.values ms)
    (s : List Char) : Entries.read (Found.values ms) (e.1.text ++ s) = some (e, Name.size) := by
  have hread : Name.read (e.1.text ++ s) = some (e.1, Name.size) :=
    Name.read_eq_some.2 ⟨rfl, List.prefix_append _ _⟩
  have hfind : (Found.values ms).find? (·.1 == e.1) = some e := by
    exact find?_of_distinct h.distinct he
  simp only [Entries.read, hread, hfind]

theorem meant_within {ms' : Marked} (h : ms' <:+: ms) : ms'.meant <:+: ms.meant := by
  obtain ⟨ms₁, ms₂, rfl⟩ := h
  refine ⟨meant ms₁, meant ms₂, ?_⟩
  rw [meant, meant, meant, meant, Found.fill_append, Found.fill_append]

theorem infix_of_mem {e : Name × List Char} (he : e ∈ Found.values ms) :
    e.1.text <:+: ms.written ∧ e.2 <:+: ms.meant := by
  obtain ⟨fs, gs, rfl⟩ := List.append_of_mem (Found.mem_values.1 he)
  constructor
  · exact ⟨written fs, written gs, by simp [written, Found.fill_append]⟩
  · exact ⟨meant fs, meant gs, by simp [meant, Found.fill_append]⟩

/-- Scanning a part of the text for the names of the whole finds exactly the marks in the part. -/
theorem Faithful.scan_part (h : Faithful ms) {ms' : Marked} (hs : ms' <:+: ms) :
    Text.scan (Entries.read (Found.values ms)) ms'.written = ms' := by
  induction ms' with
  | nil => rfl
  | cons f ms' ih =>
    have ih := ih ((List.suffix_cons f ms').isInfix.trans hs)
    cases f with
    | char c =>
      have hnone : Entries.read (Found.values ms) (c :: written ms') = none := by
        cases hr : Entries.read (Found.values ms) (c :: written ms') with
        | none => rfl
        | some p =>
          obtain ⟨e, k⟩ := p
          have he := Entries.read_mem hr
          have hn : e.1.text <+: c :: written ms' := Entries.read_initial hr
          rcases initial_written (.char c :: ms') hn with ⟨text, ms'', heq⟩ | hm
          · simp at heq
          · exact absurd (hm.isInfix.trans (meant_within hs)) (h.fresh e he)
      exact (Text.scan_cons_of_none hnone).trans (congrArg _ ih)
    | value e =>
      have he : e ∈ Found.values ms := Found.mem_values.2 (hs.subset List.mem_cons_self)
      have hr := h.read he (written ms')
      have hne : e.1.text ++ written ms' ≠ [] := by simp [name_ne_nil]
      have hdrop : (e.1.text ++ written ms').drop Name.size = written ms' :=
        List.drop_left' (Name.length_text e.1)
      refine (Text.scan_of_some (by decide) hr hne).trans ?_
      rw [hdrop, ih]

theorem Faithful.restore_part (h : Faithful ms) {ms' : Marked} (hs : ms' <:+: ms) :
    Entries.restore (Found.values ms) ms'.written = ms'.meant := by
  rw [Entries.restore, h.scan_part hs]
  rfl

theorem Faithful.restore (h : Faithful ms) :
    Entries.restore (Found.values ms) ms.written = ms.meant := h.restore_part List.infix_rfl

end Marked

end ErbLayout.Placeholder
