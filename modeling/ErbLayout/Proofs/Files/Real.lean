import ErbLayout.Proofs.Files.Lawful
import Mathlib.Data.List.Perm.Subperm
/-!
Two ways to follow links. One gives up when links lead to one another too often, the other when it
meets a link for the second time. Where the first comes to an end the second comes to the same.
-/

namespace ErbLayout.Files

namespace Node

def linkAt (root : Node) (l : Location) : Prop := ∃ t, root.get? l = some (.link t)

def isLink : Node → Bool
  | .link _ => true
  | _ => false

section Count

mutual

theorem countP_leaves : ∀ n : Node, n.leaves.countP (·.2.isLink) = n.linkCount
  | .file _ => rfl
  | .link _ => rfl
  | .directory es => by
    rw [leaves, linkCount]
    exact countP_leavesIn es

theorem countP_leavesIn :
    ∀ es : List (Name × Node), (leavesIn es).countP (·.2.isLink) = linkCountIn es
  | [] => rfl
  | (name, n) :: es => by
    rw [leavesIn, linkCountIn, List.countP_append, List.countP_map, countP_leavesIn es]
    exact congrArg (· + linkCountIn es) (countP_leaves n)

end

theorem mem_leavesIn {es : List (Name × Node)} {name : Name} {n m : Node} {l : Location}
    (hn : (name, n) ∈ es) (hm : (l, m) ∈ n.leaves) : (name :: l, m) ∈ leavesIn es := by
  induction es with
  | nil => cases hn
  | cons e es ih =>
    rw [leavesIn, List.mem_append]
    rcases List.mem_cons.1 hn with rfl | hn
    · exact .inl (List.mem_map.2 ⟨_, hm, rfl⟩)
    · exact .inr (ih hn)

theorem mem_leaves {n m : Node} {l : Location} (h : n.get? l = some m)
    (hm : m.isDirectory = false) : (l, m) ∈ n.leaves := by
  induction l generalizing n with
  | nil =>
    cases h
    cases m with
    | directory es => simp [isDirectory] at hm
    | file c => simp [leaves]
    | link t => simp [leaves]
  | cons name l ih =>
    obtain ⟨es, c, rfl, hc, -, hl⟩ := get?_cons_eq_some h
    exact mem_leavesIn hc (ih hl)

theorem length_le_linkCount {root : Node} {ls : List Location} (hd : ls.Nodup)
    (h : ∀ l ∈ ls, root.linkAt l) : ls.length ≤ root.linkCount := by
  have hsub : ls ⊆ (root.leaves.filter (·.2.isLink)).map (·.1) := by
    intro l hl
    obtain ⟨t, ht⟩ := h l hl
    exact List.mem_map.2 ⟨(l, .link t), List.mem_filter.2 ⟨mem_leaves ht rfl, rfl⟩, rfl⟩
  have hle := (List.subperm_of_subset hd hsub).length_le
  rwa [List.length_map, ← List.countP_eq_length_filter, countP_leaves] at hle

end Count

section Follow

variable {root : Node}

theorem walk_mono {f g : Location → List Char → Except FileError.Cause Location}
    (hfg : ∀ l t k, f l t = .ok k → g l t = .ok k) {last : Bool} {l k : Location}
    {ns : List Name} (h : root.walk f last l ns = .ok k) : root.walk g last l ns = .ok k := by
  induction ns generalizing l with
  | nil => exact h
  | cons n ns ih =>
    rw [walk] at h ⊢
    split at h
    · cases h
    · rename_i hd
      rw [if_neg hd]
      split at h
      · rename_i hn
        rw [if_pos hn]
        exact ih h
      · rename_i hn
        rw [if_neg hn]
        split at h
        · cases h
        · split at h
          · rename_i hlast
            rw [if_pos hlast]
            exact h
          · rename_i hlast
            rw [if_neg hlast]
            split at h
            · rename_i m hm
              rw [hfg _ _ _ hm]
              exact ih h
            · cases h
        · exact ih h

theorem follow_succ {n : Nat} {l k : Location} {t : List Char} (h : root.follow n l t = .ok k) :
    root.follow (n + 1) l t = .ok k := by
  induction n generalizing l k t with
  | zero => cases h
  | succ n ih => exact walk_mono (fun _ _ _ => ih) h

theorem follow_mono {n m : Nat} (hnm : n ≤ m) {l k : Location} {t : List Char}
    (h : root.follow n l t = .ok k) : root.follow m l t = .ok k := by
  induction hnm with
  | refl => exact h
  | step _ ih => exact follow_succ ih

/-- The least number of steps in which a link ends; with one step less it does not. -/
theorem exists_least_follow {n : Nat} {l k : Location} {t : List Char}
    (h : root.follow n l t = .ok k) :
    ∃ j, j < n ∧ root.follow (j + 1) l t = .ok k ∧ ∀ i, root.follow j l t ≠ .ok i := by
  induction n with
  | zero => cases h
  | succ n ih =>
    by_cases hn : ∃ i, root.follow n l t = .ok i
    · obtain ⟨i, hi⟩ := hn
      have hik : i = k := by simpa using (follow_succ hi).symm.trans h
      obtain ⟨j, hj, hjk⟩ := ih (hik ▸ hi)
      exact ⟨j, Nat.lt_succ_of_lt hj, hjk⟩
    · exact ⟨n, Nat.lt_succ_self n, h, fun i hi => hn ⟨i, hi⟩⟩

/-- Where all links that are met lead to the same place, the names do. -/
theorem realNames_of_walk {f : Location → List Char → Except FileError.Cause Location}
    {g : Location → List Char → Except Location Location}
    (hfg : ∀ l t k, root.get? l = some (.link t) → f l.dropLast t = .ok k → g l t = .ok k)
    {l k : Location} {ns : List Name} (h : root.walk f true l ns = .ok k) :
    root.realNames g l ns = .ok k := by
  induction ns generalizing l with
  | nil =>
    rw [walk, Except.ok.injEq] at h
    rw [realNames, h]
  | cons n ns ih =>
    rw [walk] at h
    rw [realNames]
    split at h
    · cases h
    · split at h
      · rename_i hn
        rw [if_pos hn]
        exact ih h
      · rename_i hn
        rw [if_neg hn]
        cases hc : root.get? (l ++ [n]) with
        | none => simp [hc] at h
        | some c =>
          rw [hc] at h
          cases c with
          | file _ => exact ih h
          | directory _ => exact ih h
          | link t =>
            simp only [Bool.not_true, Bool.and_false, Bool.false_eq_true, if_false] at h
            split at h
            · rename_i m hm
              have hg := hfg (l ++ [n]) t m hc (by rwa [List.dropLast_concat])
              simp only [hg]
              exact ih h
            · cases h

/-- A link that ends within `n` steps is not met again on the way that it leads, nor is any of those
that do not end within `n` steps; so the links that are being followed do not come up again. -/
theorem realLink_of_follow {n m : Nat} {visiting : List Location} {l k : Location} {t : List Char}
    (ht : root.get? l = some (.link t)) (hk : root.follow n l.dropLast t = .ok k)
    (hd : visiting.Nodup)
    (hv : ∀ v ∈ visiting, ∃ u, root.get? v = some (.link u) ∧
      ∀ j, root.follow n v.dropLast u ≠ .ok j)
    (hm : root.linkCount < m + visiting.length) :
    root.realLink m visiting l t = .ok k := by
  -- The links on the way of this one end in fewer steps, and `visiting` grows by one each time.
  induction n using Nat.strongRecOn generalizing m visiting l k t with
  | ind n ih =>
    have hl : l ∉ visiting := by
      intro hmem
      obtain ⟨u, hu, hfail⟩ := hv l hmem
      rw [ht] at hu
      cases hu
      exact hfail k hk
    have hcount : (l :: visiting).length ≤ root.linkCount := by
      refine length_le_linkCount (List.nodup_cons.2 ⟨hl, hd⟩) ?_
      rintro v (_ | ⟨_, hmem⟩)
      · exact ⟨t, ht⟩
      · exact (hv v hmem).imp fun _ h => h.1
    rw [List.length_cons] at hcount
    obtain ⟨j, hj, hjk, hleast⟩ := exists_least_follow hk
    obtain ⟨m, rfl⟩ : ∃ i, m = i + 1 := ⟨m - 1, by omega⟩
    rw [realLink, List.contains_eq_mem, decide_eq_false hl]
    rw [follow] at hjk
    refine realNames_of_walk (fun l' t' k' hl' hk' => ?_) hjk
    refine ih j hj hl' hk' (List.nodup_cons.2 ⟨hl, hd⟩) ?_ ?_
    · rintro v (_ | ⟨_, hmem⟩)
      · exact ⟨t, ht, hleast⟩
      · obtain ⟨u, hu, hfail⟩ := hv v hmem
        exact ⟨u, hu, fun i hi => hfail i (follow_mono (Nat.le_of_lt hj) hi)⟩
    · simp only [List.length_cons]
      omega

end Follow

end Node

namespace Workspace

/-- Where something can be reached by a path, it is where the path resolves to. -/
theorem resolve_of_locate {w : Workspace} {p : Pathname} {l : Location}
    (h : w.locate p true = .ok l) : w.resolve p = .ok l := by
  rw [locate] at h
  split at h
  · cases h
  · rw [resolve, Node.realNames_of_walk (fun k t j hk hj => ?_) h]
    exact Node.realLink_of_follow hk hj .nil (by simp) (by simp)

theorem locate_of_isDirectory {w : Workspace} {p : Pathname} (h : w.isDirectory p = true) :
    ∃ l es, w.locate p true = .ok l ∧ w.tree.get? l = some (.directory es) := by
  rw [isDirectory, node?] at h
  cases hl : w.locate p true with
  | error e => simp [hl] at h
  | ok l =>
    rw [hl] at h
    cases hg : w.tree.get? l with
    | none => simp [hg] at h
    | some n =>
      cases n with
      | directory es => exact ⟨l, es, rfl, hg⟩
      | file _ => simp [hg, Node.isDirectory] at h
      | link _ => simp [hg, Node.isDirectory] at h

section Below

variable {w : Workspace} {p : Pathname} {d : Location} {ns : List Name} {m : Node}

theorem not_nul_of_proper {n : Name} (h : properName n = true) : n.contains '\x00' = false := by
  simp only [properName, Bool.and_eq_true, Bool.not_eq_true'] at h
  exact h.2

theorem locate_append (hd : w.locate p true = .ok d)
    (hn : ∀ n ∈ ns, n.contains '\x00' = false) :
    w.locate { p with names := p.names ++ ns } true =
      w.tree.walk (w.tree.follow maxLinks) true d ns := by
  rw [locate] at hd ⊢
  split at hd
  · cases hd
  · rename_i hp
    have hnul : ((p.names ++ ns).any (·.contains '\x00')) = false := by
      rw [List.any_append, Bool.or_eq_false_iff]
      exact ⟨by simpa using hp, List.any_eq_false.2 fun n h => by simpa using hn n h⟩
    rw [hnul]
    exact Node.walk_append_of_ok hd

/-- What stands below a directory in a tree is reached by its names, from wherever the directory
is reached. -/
theorem locate_below (hd : w.locate p true = .ok d) (hn : ∀ n ∈ ns, properName n = true)
    (hm : w.tree.get? (d ++ ns) = some m) (hl : ∀ t, m ≠ .link t) :
    w.locate { p with names := p.names ++ ns } true = .ok (d ++ ns) :=
  (locate_append hd fun n h => not_nul_of_proper (hn n h)).trans
    (Node.walk_below (fun n h => ne_up_of_proper (hn n h)) hm hl)

theorem node?_child_eq {q : Pathname} {n : Name} (hp : w.locate p true = .ok d)
    (hq : w.locate q true = .ok d) (hn : n.contains '\x00' = false) :
    w.node? (p.child n) = w.node? (q.child n) := by
  have hsingle : ∀ m ∈ [n], m.contains '\x00' = false := by simpa using hn
  rw [node?, node?, Pathname.child, Pathname.child, locate_append hp hsingle,
    locate_append hq hsingle]

theorem node?_below (hd : w.locate p true = .ok d) (hn : ∀ n ∈ ns, properName n = true)
    (hm : w.tree.get? (d ++ ns) = some m) (hl : ∀ t, m ≠ .link t) :
    w.node? { p with names := p.names ++ ns } = some m := by
  rw [node?, locate_below hd hn hm hl]
  exact hm

theorem locate_path (ht : w.tree.lawful = true) (hm : w.tree.get? d = some m)
    (hl : ∀ t, m ≠ .link t) : w.locate d.path true = .ok d := by
  have hproper := Node.proper_of_get? ht hm
  have hroot : w.locate (Location.path []) true = .ok [] := by
    rw [locate]
    rfl
  exact locate_below (p := Location.path []) (d := []) hroot hproper hm hl

end Below

end Workspace

end ErbLayout.Files
