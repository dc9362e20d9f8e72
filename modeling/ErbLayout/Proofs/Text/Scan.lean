import ErbLayout.Text.Scan
/-!
What a scan finds: every value was read somewhere in the text.
-/

namespace ErbLayout.Text

variable {α : Type}

/-- The readings among what was found. -/
def Found.values (fs : List (Found α)) : List α :=
  fs.filterMap fun
    | .char _ => none
    | .value a => some a

@[simp] theorem Found.values_nil : Found.values ([] : List (Found α)) = [] := rfl

@[simp] theorem Found.values_char (c : Char) (fs : List (Found α)) :
    Found.values (.char c :: fs) = Found.values fs := rfl

@[simp] theorem Found.values_value (a : α) (fs : List (Found α)) :
    Found.values (.value a :: fs) = a :: Found.values fs := rfl

theorem Found.mem_values {a : α} {fs : List (Found α)} :
    a ∈ Found.values fs ↔ Found.value a ∈ fs := by
  induction fs with
  | nil => simp
  | cons f fs ih => cases f <;> simp [ih]

theorem mem_scanFrom {read : Reader α} {skip : Nat} {s : List Char} {a : α}
    (h : Found.value a ∈ scanFrom read skip s) : ∃ t n, t <:+ s ∧ read t = some (a, n) := by
  fun_induction scanFrom read skip s with
  | case1 => simp at h
  | case2 skip c s ih =>
    obtain ⟨t, n, ht, hr⟩ := ih h
    exact ⟨t, n, ht.trans (List.suffix_cons c s), hr⟩
  | case3 c s b n hread ih =>
    rcases List.mem_cons.1 h with hb | h
    · cases hb
      exact ⟨c :: s, n, List.suffix_rfl, hread⟩
    · obtain ⟨t, m, ht, hr⟩ := ih h
      exact ⟨t, m, ht.trans (List.suffix_cons c s), hr⟩
  | case4 c s hread ih =>
    rcases List.mem_cons.1 h with hb | h
    · cases hb
    · obtain ⟨t, n, ht, hr⟩ := ih h
      exact ⟨t, n, ht.trans (List.suffix_cons c s), hr⟩

theorem mem_scan {read : Reader α} {s : List Char} {a : α}
    (h : Found.value a ∈ scan read s) : ∃ t n, t <:+ s ∧ read t = some (a, n) :=
  mem_scanFrom h

theorem char_of_mem_scanFrom {read : Reader α} {skip : Nat} {s : List Char} {c : Char}
    (h : Found.char c ∈ scanFrom read skip s) : c ∈ s := by
  fun_induction scanFrom read skip s with
  | case1 => simp at h
  | case2 skip d s ih => exact List.mem_cons_of_mem d (ih h)
  | case3 d s a n hread ih =>
    rcases List.mem_cons.1 h with h | h
    · cases h
    · exact List.mem_cons_of_mem d (ih h)
  | case4 d s hread ih =>
    rcases List.mem_cons.1 h with h | h
    · cases h
      exact List.mem_cons_self
    · exact List.mem_cons_of_mem d (ih h)

theorem char_of_mem_scan {read : Reader α} {s : List Char} {c : Char}
    (h : Found.char c ∈ scan read s) : c ∈ s := char_of_mem_scanFrom h

theorem find?_eq_some {read : Reader α} {s : List Char} {at_ n k : Nat} {a : α}
    (h : find? read at_ s = some (n, a, k)) :
    at_ ≤ n ∧ read (s.drop (n - at_)) = some (a, k) := by
  fun_induction find? read at_ s with
  | case1 => simp at h
  | case2 at_ c s b m hread =>
    simp only [Option.some.injEq, Prod.mk.injEq] at h
    obtain ⟨rfl, rfl, rfl⟩ := h
    simpa using hread
  | case3 at_ c s hread ih =>
    obtain ⟨hle, hr⟩ := ih h
    refine ⟨by omega, ?_⟩
    rw [show n - at_ = (n - (at_ + 1)) + 1 by omega, List.drop_succ_cons]
    exact hr

@[simp] theorem scan_nil (read : Reader α) : scan read [] = [] := rfl

theorem scan_cons_of_none {read : Reader α} {c : Char} {s : List Char}
    (h : read (c :: s) = none) : scan read (c :: s) = .char c :: scan read s := by
  rw [scan, scanFrom, h]
  rfl

theorem exists_of_suffix_scanFrom {read : Reader α} {skip : Nat} {s : List Char}
    {fs : List (Found α)} (h : fs <:+ scanFrom read skip s) : ∃ t, t <:+ s ∧ scan read t = fs := by
  fun_induction scanFrom read skip s with
  | case1 => exact ⟨[], List.nil_suffix, (List.suffix_nil.1 h).symm⟩
  | case2 skip c s ih =>
    obtain ⟨t, ht, hscan⟩ := ih h
    exact ⟨t, ht.trans (List.suffix_cons c s), hscan⟩
  | case3 c s a n hread ih =>
    rcases List.suffix_cons_iff.1 h with rfl | h
    · refine ⟨c :: s, List.suffix_rfl, ?_⟩
      rw [scan, scanFrom, hread]
    · obtain ⟨t, ht, hscan⟩ := ih h
      exact ⟨t, ht.trans (List.suffix_cons c s), hscan⟩
  | case4 c s hread ih =>
    rcases List.suffix_cons_iff.1 h with rfl | h
    · exact ⟨c :: s, List.suffix_rfl, scan_cons_of_none hread⟩
    · obtain ⟨t, ht, hscan⟩ := ih h
      exact ⟨t, ht.trans (List.suffix_cons c s), hscan⟩

/-- What a scan finds from some place on is what a scan from there finds. -/
theorem exists_of_suffix_scan {read : Reader α} {s : List Char} {fs : List (Found α)}
    (h : fs <:+ scan read s) : ∃ t, t <:+ s ∧ scan read t = fs := exists_of_suffix_scanFrom h

theorem scan_eq_char_cons {read : Reader α} {s : List Char} {c : Char} {fs : List (Found α)}
    (h : scan read s = .char c :: fs) : ∃ t, s = c :: t ∧ read (c :: t) = none ∧ scan read t = fs := by
  cases s with
  | nil => simp at h
  | cons d t =>
    cases hr : read (d :: t) with
    | none =>
      rw [scan_cons_of_none hr] at h
      obtain ⟨hd, rfl⟩ := List.cons.inj h
      obtain rfl := Found.char.inj hd
      exact ⟨t, rfl, hr, rfl⟩
    | some p =>
      rw [scan, scanFrom, hr] at h
      simp at h

theorem scanFrom_drop (read : Reader α) (skip : Nat) (s : List Char) :
    scanFrom read skip s = scan read (s.drop skip) := by
  induction skip generalizing s with
  | zero => rw [List.drop_zero, scan]
  | succ skip ih =>
    cases s with
    | nil => rfl
    | cons c s => exact ih s

theorem scan_of_some {read : Reader α} {s : List Char} {a : α} {n : Nat} (hn : 0 < n)
    (h : read s = some (a, n)) (hs : s ≠ []) :
    scan read s = .value a :: scan read (s.drop n) := by
  cases s with
  | nil => exact absurd rfl hs
  | cons c s =>
    rw [scan, scanFrom, h]
    dsimp only
    rw [scanFrom_drop, show n = n - 1 + 1 by omega, List.drop_succ_cons, Nat.add_sub_cancel]

theorem scanFrom_append {read : Reader α} {skip : Nat} {a b : List Char}
    (hskip : skip ≤ a.length)
    (h : ∀ c s, c :: s <:+ a → read (c :: s ++ b) = read (c :: s) ∧
      ∀ x n, read (c :: s) = some (x, n) → n ≤ s.length + 1) :
    scanFrom read skip (a ++ b) = scanFrom read skip a ++ scan read b := by
  fun_induction scanFrom read skip a with
  | case1 skip =>
    obtain rfl : skip = 0 := by simpa using hskip
    rfl
  | case2 skip c s ih =>
    exact ih (Nat.le_of_succ_le_succ hskip) fun d t ht => h d t (ht.trans (List.suffix_cons c s))
  | case3 c s x n hread ih =>
    obtain ⟨hsame, hle⟩ := h c s List.suffix_rfl
    have hn : n - 1 ≤ s.length := by
      have := hle x n hread
      omega
    rw [List.cons_append, scanFrom, ← List.cons_append, hsame, hread]
    exact congrArg _ (ih hn fun d t ht => h d t (ht.trans (List.suffix_cons c s)))
  | case4 c s hread ih =>
    obtain ⟨hsame, -⟩ := h c s List.suffix_rfl
    rw [List.cons_append, scanFrom, ← List.cons_append, hsame, hread]
    exact congrArg _ (ih (Nat.zero_le _) fun d t ht => h d t (ht.trans (List.suffix_cons c s)))

@[simp] theorem Found.fill_nil (write : α → List Char) : Found.fill write [] = [] := rfl

@[simp] theorem Found.fill_char (write : α → List Char) (c : Char) (fs : List (Found α)) :
    Found.fill write (.char c :: fs) = c :: Found.fill write fs := rfl

@[simp] theorem Found.fill_value (write : α → List Char) (a : α) (fs : List (Found α)) :
    Found.fill write (.value a :: fs) = write a ++ Found.fill write fs := rfl

theorem Found.fill_append (write : α → List Char) (fs gs : List (Found α)) :
    Found.fill write (fs ++ gs) = Found.fill write fs ++ Found.fill write gs :=
  List.flatMap_append

theorem fill_scanFrom {read : Reader α} {write : α → List Char}
    (h : ∀ s a n, read s = some (a, n) → write a ≠ [] ∧ n = (write a).length ∧ write a <+: s)
    (skip : Nat) (s : List Char) : Found.fill write (scanFrom read skip s) = s.drop skip := by
  fun_induction scanFrom read skip s with
  | case1 => simp
  | case2 skip c s ih => exact ih
  | case3 c s a n hread ih =>
    obtain ⟨hne, rfl, t, ht⟩ := h _ _ _ hread
    have hdrop : (c :: s).drop (write a).length = t := by rw [← ht, List.drop_left]
    rcases hw : write a with _ | ⟨d, w⟩
    · exact absurd hw hne
    · rw [hw] at hdrop ht ih
      rw [Found.fill_value, ih, hw, List.drop_zero, ← ht]
      simp only [List.length_cons, List.drop_succ_cons, Nat.add_sub_cancel] at hdrop ⊢
      rw [hdrop]
  | case4 c s hread ih => rw [Found.fill_char, ih, List.drop_zero, List.drop_zero]

theorem fill_scan {read : Reader α} {write : α → List Char}
    (h : ∀ s a n, read s = some (a, n) → write a ≠ [] ∧ n = (write a).length ∧ write a <+: s)
    (s : List Char) : Found.fill write (scan read s) = s :=
  fill_scanFrom h 0 s

theorem length_values_scanFrom_le {read : Reader α} {p : Char → Bool}
    (h : ∀ c s a n, read (c :: s) = some (a, n) → p c = true) (skip : Nat) (s : List Char) :
    (Found.values (scanFrom read skip s)).length ≤ s.countP p := by
  fun_induction scanFrom read skip s with
  | case1 => simp
  | case2 skip c s ih => exact Nat.le_trans ih (List.Sublist.countP_le (List.sublist_cons_self c s))
  | case3 c s a n hread ih =>
    rw [Found.values_value, List.length_cons, List.countP_cons_of_pos (h c s a n hread)]
    exact Nat.succ_le_succ ih
  | case4 c s hread ih =>
    rw [Found.values_char]
    exact Nat.le_trans ih (List.Sublist.countP_le (List.sublist_cons_self c s))

end ErbLayout.Text
