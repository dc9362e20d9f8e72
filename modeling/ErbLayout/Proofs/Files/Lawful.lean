import ErbLayout.Proofs.Files.Way
/-!
Trees as a disk can hold them, and the paths below a directory of such a tree: below a directory
that a path leads to, each path leads to the location that its names spell.
-/

namespace ErbLayout.Files

/-- A name that an entry of a directory can have. -/
def properName (n : Name) : Bool :=
  !n.isEmpty && n != here && n != up && !n.contains '/' && !n.contains '\x00'

theorem ne_up_of_proper {n : Name} (h : properName n = true) : n ≠ up := by
  simp only [properName, Bool.and_eq_true, bne_iff_ne] at h
  exact h.1.1.2

namespace Node

mutual

/-- Whether in each directory the entries have proper names, and no two of them the same. -/
def lawful : Node → Bool
  | .directory es => lawfulIn es
  | _ => true

def lawfulIn : List (Name × Node) → Bool
  | [] => true
  | (n, c) :: es => properName n && !(es.map (·.1)).contains n && c.lawful && lawfulIn es

end

section Entries

variable {es : List (Name × Node)} {n : Name} {c : Node}

theorem lawfulIn_cons (h : lawfulIn ((n, c) :: es) = true) :
    properName n = true ∧ n ∉ es.map (·.1) ∧ c.lawful = true ∧ lawfulIn es = true := by
  simp only [lawfulIn, Bool.and_eq_true, Bool.not_eq_true', List.contains_eq_mem,
    decide_eq_false_iff_not] at h
  exact ⟨h.1.1.1, h.1.1.2, h.1.2, h.2⟩

theorem lawful_of_mem (h : lawfulIn es = true) (hm : (n, c) ∈ es) :
    properName n = true ∧ c.lawful = true := by
  induction es with
  | nil => cases hm
  | cons e es ih =>
    obtain ⟨hn, -, hc, hes⟩ := lawfulIn_cons h
    rcases List.mem_cons.1 hm with rfl | hm
    · exact ⟨hn, hc⟩
    · exact ih hes hm

theorem lookup_of_mem (h : lawfulIn es = true) (hm : (n, c) ∈ es) : es.lookup n = some c := by
  induction es with
  | nil => cases hm
  | cons e es ih =>
    obtain ⟨-, hne, -, hes⟩ := lawfulIn_cons h
    rcases List.mem_cons.1 hm with rfl | hm
    · exact List.lookup_cons_self
    · have hn : n ≠ e.1 := fun hn => hne (hn ▸ List.mem_map.2 ⟨_, hm, rfl⟩)
      rw [List.lookup_cons, beq_eq_false_iff_ne.2 hn]
      exact ih hes hm

theorem nodup_names (h : lawfulIn es = true) : (es.map (·.1)).Nodup := by
  induction es with
  | nil => exact .nil
  | cons e es ih =>
    obtain ⟨-, hne, -, hes⟩ := lawfulIn_cons h
    exact List.nodup_cons.2 ⟨hne, ih hes⟩

end Entries

section Below

variable {n m c : Node} {l : Location} {name : Name} {es : List (Name × Node)}

theorem get?_cons_eq_some (h : n.get? (name :: l) = some m) :
    ∃ es c, n = .directory es ∧ (name, c) ∈ es ∧ es.lookup name = some c ∧ c.get? l = some m := by
  rw [get?] at h
  cases hc : n.entries.lookup name with
  | none => simp [hc] at h
  | some c =>
    rw [hc] at h
    have hm : (name, c) ∈ n.entries := by
      obtain ⟨as, bs, he, -⟩ := List.lookup_eq_some_iff.1 hc
      simp [he]
    cases n with
    | directory es => exact ⟨es, c, rfl, hm, hc, h⟩
    | file _ => simp [entries] at hc
    | link _ => simp [entries] at hc

theorem lawful_of_get? (h : n.lawful = true) (hl : n.get? l = some m) : m.lawful = true := by
  induction l generalizing n with
  | nil =>
    cases hl
    exact h
  | cons name l ih =>
    obtain ⟨es, c, rfl, hm, -, hc⟩ := get?_cons_eq_some hl
    exact ih (lawful_of_mem h hm).2 hc

theorem proper_of_get? (h : n.lawful = true) (hl : n.get? l = some m) :
    ∀ name ∈ l, properName name = true := by
  induction l generalizing n with
  | nil => simp
  | cons name l ih =>
    obtain ⟨es, c, rfl, hm, -, hc⟩ := get?_cons_eq_some hl
    obtain ⟨hname, hc'⟩ := lawful_of_mem h hm
    exact List.forall_mem_cons.2 ⟨hname, ih hc' hc⟩

theorem get?_child (h : n.lawful = true) (hl : n.get? l = some (.directory es))
    (hm : (name, c) ∈ es) : n.get? (l ++ [name]) = some c := by
  have hes : lawfulIn es = true := lawful_of_get? h hl
  simp [get?_append, hl, get?, entries, lookup_of_mem hes hm]

theorem exists_parent (h : n.get? (l ++ [name]) = some c) :
    ∃ es, n.get? l = some (.directory es) ∧ (name, c) ∈ es := by
  rw [get?_append] at h
  obtain ⟨d, hd, hc⟩ := Option.bind_eq_some_iff.1 h
  obtain ⟨es, e, rfl, hm, -, he⟩ := get?_cons_eq_some hc
  cases he
  exact ⟨es, hd, hm⟩

end Below

section Walks

variable {root m : Node} {d k : Location} {ns ms : List Name}

theorem isSome_get?_of_append {l r : Location} (h : root.get? (l ++ r) = some m) :
    ∃ c, root.get? l = some c := by
  rw [get?_append] at h
  obtain ⟨c, hc, -⟩ := Option.bind_eq_some_iff.1 h
  exact ⟨c, hc⟩

theorem exists_directory_above {l r : Location} {es : Entries}
    (h : root.get? (l ++ r) = some (.directory es)) : ∃ ds, root.get? l = some (.directory ds) := by
  rw [get?_append] at h
  obtain ⟨c, hc, hr⟩ := Option.bind_eq_some_iff.1 h
  cases r with
  | nil =>
    cases hr
    exact ⟨es, hc⟩
  | cons name r =>
    obtain ⟨ds, -, rfl, -⟩ := get?_cons_eq_some hr
    exact ⟨ds, hc⟩

theorem walk_append_of_ok {follow : Location → List Char → Except FileError.Cause Location}
    (h : root.walk follow true d ns = .ok k) :
    root.walk follow true d (ns ++ ms) = root.walk follow true k ms := by
  induction ns generalizing d with
  | nil =>
    rw [walk, Except.ok.injEq] at h
    rw [h, List.nil_append]
  | cons n ns ih =>
    rw [List.cons_append]
    rw [walk] at h ⊢
    split at h
    · cases h
    · rename_i hd
      rw [if_neg hd]
      split at h
      · rename_i hn
        rw [if_pos hn]
        exact ih h
      · rename_i hn
        rw [if_neg hn]
        simp only [Bool.not_true, Bool.and_false, Bool.false_eq_true, if_false] at h ⊢
        split at h
        · cases h
        · split at h
          · exact ih h
          · cases h
        · exact ih h

/-- Below a directory of the tree itself no link is met, unless the last name is one. -/
theorem walk_below {follow : Location → List Char → Except FileError.Cause Location}
    {followLast : Bool} (hn : ∀ n ∈ ns, n ≠ up) (hm : root.get? (d ++ ns) = some m)
    (hl : ∀ t, m ≠ .link t) : root.walk follow followLast d ns = .ok (d ++ ns) := by
  induction ns generalizing d with
  | nil => rw [walk, List.append_nil]
  | cons n ns ih =>
    have hd : (root.get? d).any isDirectory = true := directoryAt_of_get? hm (by simp)
    rw [List.append_cons] at hm ⊢
    obtain ⟨c, hc⟩ := isSome_get?_of_append hm
    have hrest := ih (fun a ha => hn a (List.mem_cons_of_mem _ ha)) hm
    rw [walk, hd, if_neg (hn n List.mem_cons_self), hc]
    cases c with
    | file _ => exact hrest
    | directory _ => exact hrest
    | link t =>
      cases ns with
      | nil =>
        rw [List.append_nil, hc, Option.some.injEq] at hm
        exact absurd hm.symm (hl t)
      | cons a ns =>
        have := directoryAt_of_get? hm (by simp)
        simp [directoryAt, hc, isDirectory] at this

end Walks

end Node

end ErbLayout.Files
