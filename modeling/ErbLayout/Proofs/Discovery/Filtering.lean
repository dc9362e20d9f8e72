import ErbLayout.Proofs.Discovery.Pruning
/-!
A walk finds the files that the filters let pass, each once, or it fails at an ignore file that it
cannot read.
-/

namespace ErbLayout.Discovery

open Files

namespace Finder

namespace Walk

variable {k : Walk} {es : Entries}

section Once

theorem Sound.eq_of_found (h : k.Sound es) {files : List IgnoreFile} {names : List Name}
    {content : Text.Bytes} (hc : k.workspace.tree.Holds (k.base ++ names) content) {l : Location}
    (hl : Step.found l ∈ k.file files names) : l = k.base ++ names := by
  rw [h.file_eq hc] at hl
  split at hl
  · split at hl
    · cases List.mem_singleton.1 hl
    · exact Step.found.inj (List.mem_singleton.1 hl)
  · cases hl

theorem Sound.nodup_file (h : k.Sound es) {files : List IgnoreFile} {names : List Name}
    {content : Text.Bytes} (hc : k.workspace.tree.Holds (k.base ++ names) content) :
    (Step.locations (k.file files names)).Nodup := by
  rw [h.file_eq hc]
  split
  · split
    · exact .nil
    · exact List.nodup_singleton _
  · exact .nil

theorem Sound.stands_of_comes (h : k.Sound es) {a b : Post} (hab : k.Comes a b)
    (ha : k.workspace.tree.get? (k.base ++ a.names) = some (.directory a.entries)) :
    k.workspace.tree.get? (k.base ++ b.names) = some (.directory b.entries) ∧
      a.names <+: b.names := by
  induction hab with
  | refl => exact ⟨ha, List.prefix_refl _⟩
  | tail _ hbc ih =>
    obtain ⟨-, n, hn, hm, -⟩ := hbc
    rw [hn, ← List.append_assoc]
    exact ⟨Node.get?_child h.lawful ih.1 hm, ih.2.trans (List.prefix_append _ _)⟩

theorem Sound.below_of_found (h : k.Sound es) {n : Node} {files : List IgnoreFile}
    {names : List Name} (hn : k.workspace.tree.get? (k.base ++ names) = some n) {l : Location}
    (hl : l ∈ Step.locations (k.steps files names n)) : ∃ r, r ≠ [] ∧ l = k.base ++ names ++ r := by
  obtain ⟨ds, rfl, a, ha, hs⟩ := (mem_steps n files names _).1 (Step.mem_locations.1 hl)
  obtain ⟨hd, r, hr⟩ := h.stands_of_comes ha hn
  rw [stepsAt] at hs
  split at hs
  · cases List.mem_singleton.1 hs
  · obtain ⟨m, content, hc, hf⟩ := (h.mem_filesIn hd).1 hs
    refine ⟨r ++ [m], by simp, ?_⟩
    rw [h.eq_of_found hc hf, ← hr]
    simp only [List.append_assoc]

theorem nodup_flatMap_entries {ds : Entries} (hds : (ds.map (·.1)).Nodup) {d : Location}
    {g : Name × Node → List Location} (hg : ∀ e ∈ ds, (g e).Nodup)
    (hd : ∀ e ∈ ds, ∀ l ∈ g e, ∃ r, l = d ++ e.1 :: r) : (ds.flatMap g).Nodup := by
  induction ds with
  | nil => exact .nil
  | cons e ds ih =>
    rw [List.map_cons, List.nodup_cons] at hds
    rw [List.flatMap_cons, List.nodup_append']
    refine ⟨hg e List.mem_cons_self, ih hds.2 (fun e he => hg e (List.mem_cons_of_mem _ he))
      (fun e he => hd e (List.mem_cons_of_mem _ he)), fun l hl hl' => hds.1 ?_⟩
    -- A location in two of the lists would give two entries one name.
    obtain ⟨e', he', hl'⟩ := List.mem_flatMap.1 hl'
    obtain ⟨r, hr⟩ := hd e List.mem_cons_self l hl
    obtain ⟨r', hr'⟩ := hd e' (List.mem_cons_of_mem _ he') l hl'
    have : e.1 = e'.1 := (List.cons.inj (List.append_cancel_left (hr.symm.trans hr'))).1
    exact this ▸ List.mem_map_of_mem he'

section Directory

variable {names : List Name} {ds : Entries} {files : List IgnoreFile}

theorem Sound.nodup_filesIn (h : k.Sound es)
    (hd : k.workspace.tree.get? (k.base ++ names) = some (.directory ds)) :
    (Step.locations (k.filesIn files names ds)).Nodup := by
  have hds := Node.nodup_names (Node.lawful_of_get? h.lawful hd)
  rw [filesIn_eq, Step.locations_flatMap]
  refine nodup_flatMap_entries (d := k.base ++ names) hds (fun e he => ?_) fun e he l hl => ?_
  all_goals
    have hc := Node.get?_child h.lawful hd he
    rw [List.append_assoc] at hc
    obtain ⟨n, c⟩ := e
  · split
    · exact .nil
    · rename_i hnd
      cases c with
      | file content => exact h.nodup_file hc
      | directory _ => simp [Workspace.isDirectory, h.node? hc, Node.isDirectory] at hnd
      | link t => exact absurd hc (h.linkFree _ t)
  · split at hl
    · cases hl
    · rename_i hnd
      cases c with
      | file content => exact ⟨[], by simpa using h.eq_of_found hc (Step.mem_locations.1 hl)⟩
      | directory _ => simp [Workspace.isDirectory, h.node? hc, Node.isDirectory] at hnd
      | link t => exact absurd hc (h.linkFree _ t)

theorem Sound.below_entry (h : k.Sound es)
    (hd : k.workspace.tree.get? (k.base ++ names) = some (.directory ds)) {e : Name × Node}
    (he : e ∈ ds) {l : Location} (hl : l ∈ Step.locations
      (if k.skips files (names ++ [e.1]) then [] else k.steps files (names ++ [e.1]) e.2)) :
    ∃ r, r ≠ [] ∧ l = k.base ++ names ++ e.1 :: r := by
  split at hl
  · cases hl
  · have hc := Node.get?_child h.lawful hd he
    rw [List.append_assoc] at hc
    obtain ⟨r, hr, rfl⟩ := h.below_of_found hc hl
    exact ⟨r, hr, by simp⟩

end Directory

mutual

theorem Sound.nodup_steps (h : k.Sound es) : ∀ (n : Node) (files : List IgnoreFile)
    (names : List Name), k.workspace.tree.get? (k.base ++ names) = some n →
      (Step.locations (k.steps files names n)).Nodup
  | .file _, _, _, _ => .nil
  | .link _, _, _, _ => .nil
  | .directory ds, files, names, hn => by
    rw [steps]
    cases k.ignoreFiles files names with
    | error e => exact .nil
    | ok files =>
      have hds := Node.nodup_names (Node.lawful_of_get? h.lawful hn)
      have ih := h.nodup_stepsIn ds files names fun e he => by
        rw [← List.append_assoc]
        exact Node.get?_child h.lawful hn he
      rw [Step.locations_append, List.nodup_append']
      refine ⟨h.nodup_filesIn hn, ?_, fun l hl hl' => ?_⟩
      · rw [stepsIn_eq, Step.locations_flatMap]
        refine nodup_flatMap_entries (d := k.base ++ names) hds (fun e he => ?_)
          fun e he l hl => (h.below_entry hn he hl).imp fun _ h => h.2
        split
        · exact .nil
        · exact ih e he
      · -- A file of the directory has one name behind that of the directory, what lies further
        -- down has more.
        obtain ⟨m, content, hc, hf⟩ := (h.mem_filesIn hn).1 (Step.mem_locations.1 hl)
        rw [stepsIn_eq, Step.locations_flatMap, List.mem_flatMap] at hl'
        obtain ⟨e, he, hl'⟩ := hl'
        obtain ⟨r, hr, hr'⟩ := h.below_entry hn he hl'
        have hlen := congrArg List.length (hr'.symm.trans (h.eq_of_found hc hf))
        have hpos := List.length_pos_iff.2 hr
        simp only [List.length_append, List.length_cons, List.length_nil] at hlen
        omega

theorem Sound.nodup_stepsIn (h : k.Sound es) : ∀ (ds : List (Name × Node))
    (files : List IgnoreFile) (names : List Name),
    (∀ e ∈ ds, k.workspace.tree.get? (k.base ++ (names ++ [e.1])) = some e.2) →
      ∀ e ∈ ds, (Step.locations (k.steps files (names ++ [e.1]) e.2)).Nodup
  | [], _, _, _ => by simp
  | (n, c) :: ds, files, names, hds => by
    have hc := h.nodup_steps c files (names ++ [n]) (hds (n, c) List.mem_cons_self)
    have hrest := h.nodup_stepsIn ds files names fun e he => hds e (List.mem_cons_of_mem _ he)
    exact List.forall_mem_cons.2 ⟨hc, hrest⟩

end

end Once

section Found

variable {a : Post}

theorem Sound.passes_of_found (h : k.Sound es) (ha : k.Comes (k.start es) a) {l : Location}
    (hl : Step.found l ∈ k.stepsAt a) :
    ∃ names, l = k.base ++ names ∧ k.finder.Passes k.workspace k.base names := by
  have known := h.known ha
  rw [stepsAt] at hl
  cases hf : k.ignoreFiles a.files a.names with
  | error e => simp [hf] at hl
  | ok files =>
    simp only [hf] at hl
    obtain ⟨n, content, hc, hs⟩ := (h.mem_filesIn known.stands).1 hl
    have hl := h.eq_of_found hc hs
    rw [h.file_eq hc, known.files files hf] at hs
    split at hs
    · rename_i hkept
      rw [Bool.and_eq_true, List.all_eq_true] at hkept
      split at hs
      · cases List.mem_singleton.1 hs
      · rename_i hsize
        refine ⟨a.names ++ [n], hl, ⟨content, hc, ?_⟩, hkept.1, ?_, ?_⟩
        · exact not_isTooLarge_iff.1 (by simpa using hsize)
        · simpa using hkept.2
        · simpa using known.opens
    · cases hs

theorem Sound.found_of_passes (h : k.Sound es) {names : List Name}
    (hp : k.finder.Passes k.workspace k.base names) :
    ∃ a, k.Comes (k.start es) a ∧
      (Step.found (k.base ++ names) ∈ k.stepsAt a ∨ ∃ e, Step.failed e ∈ k.stepsAt a) := by
  obtain ⟨⟨content, hc, hsize⟩, hi, hs, ho⟩ := hp
  rcases List.eq_nil_or_concat names with rfl | ⟨way, n, rfl⟩
  · rw [List.append_nil, Node.Holds, h.directory] at hc
    cases hc
  rw [List.concat_eq_append] at *
  rw [List.dropLast_concat] at hs ho
  have hparent := hc
  rw [Node.Holds, ← List.append_assoc] at hparent
  obtain ⟨ds, hd, -⟩ := Node.exists_parent hparent
  rcases h.comes_of_opens hd ho with ⟨a, ha, rfl, rfl⟩ | ⟨a, e, ha, he⟩
  · refine ⟨a, ha, ?_⟩
    rw [stepsAt]
    cases hf : k.ignoreFiles a.files a.names with
    | error e => exact .inr ⟨e, List.mem_singleton_self _⟩
    | ok files =>
      refine .inl ((h.mem_filesIn hd).2 ⟨n, content, hc, ?_⟩)
      have hall : (files.all fun g => !g.ignores (k.base ++ (a.names ++ [n])) false) = true := by
        rw [(h.known ha).files files hf]
        simpa using hs
      rw [h.file_eq hc, hi, hall, not_isTooLarge_iff.2 hsize]
      exact List.mem_singleton_self _
  · exact ⟨a, ha, .inr ⟨e, he⟩⟩

theorem Sound.obstacle_of_failed (h : k.Sound es) (ha : k.Comes (k.start es) a) {e : FindError}
    (he : Step.failed e ∈ k.stepsAt a) : k.finder.Obstacle k.workspace k.base e := by
  have known := h.known ha
  rw [stepsAt] at he
  cases hf : k.ignoreFiles a.files a.names with
  | error e' =>
    simp only [hf, List.mem_singleton, Step.failed.injEq] at he
    subst he
    obtain ⟨hg, hr⟩ := ignoreFiles_eq_error hf
    refine .git hg ?_ known.opens hr
    simp [Node.directoryAt, known.stands, Node.isDirectory]
  | ok files =>
    simp only [hf] at he
    obtain ⟨n, content, hc, hs⟩ := (h.mem_filesIn known.stands).1 he
    rw [h.file_eq hc] at hs
    split at hs
    · split at hs <;> cases List.mem_singleton.1 hs
    · cases hs

/-- Where the way to an ignore file that cannot be read is open, a walk fails, there or before. -/
theorem Sound.failed_of_unread (h : k.Sound es) {way : List Name} {e : FindError}
    (hg : k.finder.respectGitignore = true)
    (hd : k.workspace.tree.directoryAt (k.base ++ way) = true)
    (ho : k.finder.Opens k.workspace k.base way)
    (hr : readIgnoreFile k.workspace ((k.base ++ way).path.child gitignoreName) = .error e) :
    ∃ a e, k.Comes (k.start es) a ∧ Step.failed e ∈ k.stepsAt a := by
  obtain ⟨m, hm⟩ := Option.isSome_iff_exists.1 (Node.isSome_of_directoryAt hd)
  cases m with
  | file _ => simp [Node.directoryAt, hm, Node.isDirectory] at hd
  | link _ => simp [Node.directoryAt, hm, Node.isDirectory] at hd
  | directory ds =>
    rcases h.comes_of_opens hm ho with ⟨a, ha, rfl, rfl⟩ | hfail
    · refine ⟨a, e, ha, ?_⟩
      rw [stepsAt, ignoreFiles, hg, hr]
      exact List.mem_singleton_self _
    · exact hfail

end Found

end Walk

section Root

variable {f : Finder} {w : Workspace} {root : Pathname} {base : Location} {es : Entries}

/-- A walk begins with the nearest file of the tool, or fails at it. -/
theorem walk_eq (h : Walk.Grounded ⟨f, w, root, base⟩ es) :
    (∃ e, f.walk w root = [.failed e] ∧ f.Obstacle w base e) ∨
      (∀ l e, findIgnoreFile? w base = some l → readIgnoreFile w l.path ≠ .error e) ∧
        f.walk w root = Walk.steps ⟨f, w, root, base⟩ (toolFiles w base) [] (.directory es) := by
  have hb : w.resolve root = .ok base := h.resolve_root
  have hd : w.tree.get? base = some (.directory es) := h.directory
  rw [walk, hb]
  simp only [hd]
  cases ho : ownFiles w base with
  | error e =>
    obtain ⟨l, hl, hr⟩ := ownFiles_eq_error.1 ho
    exact .inl ⟨e, rfl, .tool hl hr⟩
  | ok own =>
    refine .inr ⟨fun l e hl hr => ?_, by rw [toolFiles_of_ownFiles ho]⟩
    cases ho.symm.trans (ownFiles_eq_error.2 ⟨l, hl, hr⟩)

theorem sound_of_isDirectory (f : Finder) (hl : w.tree.LinkFree) (ht : w.tree.lawful = true)
    (hd : w.isDirectory root = true) (hb : w.resolve root = .ok base) :
    ∃ es, Walk.Sound ⟨f, w, root, base⟩ es := by
  obtain ⟨l, es, h⟩ := Walk.grounded_of_isDirectory f ht hd
  cases h.resolve_root.symm.trans hb
  exact ⟨es, h, hl⟩

theorem mem_steps_start {k : Walk} {s : Step} :
    s ∈ k.steps (toolFiles k.workspace k.base) [] (.directory es) ↔
      ∃ a, k.Comes (k.start es) a ∧ s ∈ k.stepsAt a := by
  rw [Walk.mem_steps]
  exact ⟨fun ⟨_, h, hs⟩ => Node.directory.inj h ▸ hs, fun hs => ⟨es, rfl, hs⟩⟩

theorem nodup_yielded_walk (h : Walk.Sound ⟨f, w, root, base⟩ es) :
    (Step.yielded (f.walk w root)).Nodup := by
  rcases walk_eq h.toGrounded with ⟨e, he, -⟩ | ⟨-, he⟩
  · rw [he]
    exact .nil
  · rw [he]
    refine (Step.yielded_sublist _).nodup (h.nodup_steps _ _ [] ?_)
    simpa using h.directory

/-- What a walk comes upon it comes upon in a directory that it comes to, or before it begins. -/
theorem exists_post_of_mem_walk (h : Walk.Grounded ⟨f, w, root, base⟩ es) {s : Step}
    (hs : s ∈ f.walk w root) : (∃ e, s = .failed e ∧ f.Obstacle w base e) ∨
      ∃ a, Walk.Comes ⟨f, w, root, base⟩ (Walk.start ⟨f, w, root, base⟩ es) a ∧
        s ∈ Walk.stepsAt ⟨f, w, root, base⟩ a := by
  rcases walk_eq h with ⟨e, he, ho⟩ | ⟨-, he⟩
  · exact .inl ⟨e, List.mem_singleton.1 (he ▸ hs), ho⟩
  · rw [he] at hs
    exact .inr (mem_steps_start.1 hs)

theorem passes_of_yielded_walk (h : Walk.Sound ⟨f, w, root, base⟩ es) {l : Location}
    (hl : l ∈ Step.yielded (f.walk w root)) :
    ∃ names, l = base ++ names ∧ f.Passes w base names := by
  rcases exists_post_of_mem_walk h.toGrounded (Step.found_of_mem_yielded hl) with
    ⟨e, he, -⟩ | ⟨a, ha, hs⟩
  · cases he
  · exact h.passes_of_found ha hs

theorem obstacle_of_settle_walk (h : Walk.Sound ⟨f, w, root, base⟩ es) {e : FindError}
    (he : Step.settle (f.walk w root) = .error e) : f.Obstacle w base e := by
  rcases exists_post_of_mem_walk h.toGrounded (Step.failed_of_settle he) with
    ⟨e', he', ho⟩ | ⟨a, ha, hs⟩
  · cases he'
    exact ho
  · exact h.obstacle_of_failed ha hs

theorem not_obstacle_of_settle_walk (h : Walk.Sound ⟨f, w, root, base⟩ es) {ls : List Location}
    (hs : Step.settle (f.walk w root) = .ok ls) (e : FindError) : ¬ f.Obstacle w base e := by
  have hnot := Step.not_failed_of_settle hs
  rcases walk_eq h.toGrounded with ⟨e', hw, -⟩ | ⟨htool, hw⟩
  · exact absurd (hw ▸ List.mem_singleton_self _) (hnot e')
  · intro ho
    cases ho with
    | tool hfound hunread => exact htool _ _ hfound hunread
    | git hg hd ho hr =>
      obtain ⟨a, e, ha, hf⟩ := h.failed_of_unread hg hd ho hr
      exact hnot e (hw ▸ mem_steps_start.2 ⟨a, ha, hf⟩)

theorem mem_of_passes (h : Walk.Sound ⟨f, w, root, base⟩ es) {ls : List Location}
    (hs : Step.settle (f.walk w root) = .ok ls) {names : List Name}
    (hp : f.Passes w base names) : base ++ names ∈ ls := by
  have hnot := Step.not_failed_of_settle hs
  rcases walk_eq h.toGrounded with ⟨e', hw, -⟩ | ⟨-, hw⟩
  · exact absurd (hw ▸ List.mem_singleton_self _) (hnot e')
  · obtain ⟨a, ha, hf | ⟨e, hf⟩⟩ := h.found_of_passes hp
    · exact (Step.mem_of_settle hs).2 (hw ▸ mem_steps_start.2 ⟨a, ha, hf⟩)
    · exact absurd (hw ▸ mem_steps_start.2 ⟨a, ha, hf⟩) (hnot e)

theorem mem_walk_iff (h : Walk.Sound ⟨f, w, root, base⟩ es) {ls : List Location}
    (hs : Step.settle (f.walk w root) = .ok ls) {names : List Name} :
    base ++ names ∈ ls ↔ f.Passes w base names := by
  refine ⟨fun hm => ?_, mem_of_passes h hs⟩
  obtain ⟨names', hn, hp⟩ := passes_of_yielded_walk h (Step.yielded_of_settle hs ▸ hm)
  exact List.append_cancel_left hn ▸ hp

end Root

def patterns (lines : List String) : Ignore.Rules :=
  ((Ignore.Rules.ofLines (lines.map String.toList)).toOption).getD []

def fileOf (text : String) : Node := .file (Text.encode text.toList)

/-- Files of which only `app/a.erb` passes: the others are ignored, too large, or in directories
that are ignored or excluded. -/
def orchard : Workspace where
  tree := .directory [(".erbmarkignore".toList, fileOf "c.erb"),
    ("app".toList, .directory [(".gitignore".toList, fileOf "old/"), ("a.erb".toList, fileOf "a"),
      ("big.erb".toList, fileOf "much"),
      ("old".toList, .directory [("a.erb".toList, fileOf "a")])]),
    ("c.erb".toList, fileOf "c"), ("vendor".toList, .directory [("a.erb".toList, fileOf "a")])]

def picker : Finder := ⟨patterns ["*.erb"], patterns ["vendor/"], true, false, 3⟩

end Finder

end ErbLayout.Discovery
