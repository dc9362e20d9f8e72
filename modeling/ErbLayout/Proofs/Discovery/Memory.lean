import ErbLayout.Discovery.Search
import ErbLayout.Proofs.Discovery.Filtering
/-!
What a finder has read before changes nothing in what it comes upon. The `.gitignore` file that it
remembers for a directory is the one that stands there, by whatever path the directory is reached,
and a search keeps that so, whether it ends well or fails.
-/

namespace ErbLayout.Discovery

open Files Ignore

/-- That what has been read is what stands in the tree. -/
def Memory.Faithful (memory : Memory) (w : Workspace) : Prop :=
  ∀ key rules, memory.lookup key = some rules →
    readIgnoreFile w (key.path.child gitignoreName) = .ok rules

theorem Memory.faithful_nil (w : Workspace) : Memory.Faithful [] w := nofun

theorem Memory.Faithful.cons {memory : Memory} {w : Workspace} (h : memory.Faithful w)
    {key : Location} {rules : Option Rules}
    (hr : readIgnoreFile w (key.path.child gitignoreName) = .ok rules) :
    Memory.Faithful ((key, rules) :: memory) w := by
  intro k r hl
  by_cases hk : k = key
  · subst hk
    rw [List.lookup_cons_self, Option.some.injEq] at hl
    exact hl ▸ hr
  · rw [List.lookup_cons, beq_false_of_ne hk] at hl
    exact h k r hl

namespace Search

/-- That a part of a search ends as if it reported the given steps, whatever has been read. -/
def Emits (w : Workspace) (x : Search Unit) (steps : List Step) : Prop :=
  ∀ p : Progress, p.memory.Faithful w → ∃ memory : Memory, memory.Faithful w ∧
    x.run p = (steps.forM report).run { p with memory := memory }

/-- That a part of a search comes upon nothing and has the given answer, whatever has been read. -/
def Gives {α : Type} (w : Workspace) (x : Search α) (r : Except FindError α) : Prop :=
  ∀ p : Progress, p.memory.Faithful w → ∃ memory : Memory, memory.Faithful w ∧
    x.run p = match r with
      | .ok a => .ok a { p with memory := memory }
      | .error e => .error e { p with memory := memory }

variable {w : Workspace} {α β : Type}

theorem gives_pure (a : α) : Gives w (pure a) (.ok a) := fun p hp => ⟨p.memory, hp, rfl⟩

theorem gives_ofExcept (r : Except FindError α) : Gives w (ofExcept r) r := by
  intro p hp
  cases r <;> exact ⟨p.memory, hp, rfl⟩

theorem Gives.bind {x : Search α} {r : Except FindError α} {f : α → Search β}
    {g : α → Except FindError β} (hx : Gives w x r) (hf : ∀ a, r = .ok a → Gives w (f a) (g a)) :
    Gives w (x >>= f) (r.bind g) := by
  intro p hp
  obtain ⟨memory, hm, hrun⟩ := hx p hp
  rw [EStateM.run_bind, hrun]
  cases r with
  | error e => exact ⟨memory, hm, rfl⟩
  | ok a => exact hf a rfl { p with memory := memory } hm

theorem Gives.emits_ok {x : Search α} {a : α} {f : α → Search Unit} {steps : List Step}
    (hx : Gives w x (.ok a)) (hf : Emits w (f a) steps) : Emits w (x >>= f) steps := by
  intro p hp
  obtain ⟨memory, hm, hrun⟩ := hx p hp
  rw [EStateM.run_bind, hrun]
  exact hf { p with memory := memory } hm

theorem Gives.emits_error {x : Search α} {e : FindError} (hx : Gives w x (.error e))
    (f : α → Search Unit) : Emits w (x >>= f) [.failed e] := by
  intro p hp
  obtain ⟨memory, hm, hrun⟩ := hx p hp
  rw [EStateM.run_bind, hrun]
  exact ⟨memory, hm, rfl⟩

theorem emits_pure : Emits w (pure ()) [] := fun p hp => ⟨p.memory, hp, rfl⟩

theorem emits_reports (steps : List Step) : Emits w (steps.forM report) steps :=
  fun p hp => ⟨p.memory, hp, rfl⟩

theorem emits_throw (e : FindError) : Emits w (throw e) [.failed e] :=
  fun p hp => ⟨p.memory, hp, rfl⟩

theorem Emits.after_reports {y : Search Unit} {more : List Step} (hy : Emits w y more)
    (steps : List Step) : Emits w (steps.forM report >>= fun _ => y) (steps ++ more) := by
  induction steps with
  | nil => exact hy
  | cons s steps ih =>
    intro p hp
    cases s with
    | failed e => exact ⟨p.memory, hp, rfl⟩
    | found l => exact ih { p with steps := p.steps ++ [.found l] } hp
    | tooLarge q size => exact ih { p with steps := p.steps ++ [.tooLarge q size] } hp

theorem Emits.append {x y : Search Unit} {steps more : List Step} (hx : Emits w x steps)
    (hy : Emits w y more) : Emits w (x >>= fun _ => y) (steps ++ more) := by
  intro p hp
  obtain ⟨memory, hm, hrun⟩ := hx p hp
  rw [EStateM.run_bind, hrun, ← EStateM.run_bind]
  exact hy.after_reports steps { p with memory := memory } hm

theorem emits_forM {x : α → Search Unit} {steps : α → List Step} {as : List α}
    (h : ∀ a ∈ as, Emits w (x a) (steps a)) : Emits w (as.forM x) (as.flatMap steps) := by
  induction as with
  | nil => exact emits_pure
  | cons a as ih =>
    rw [List.flatMap_cons]
    exact (h a List.mem_cons_self).append (ih fun b hb => h b (List.mem_cons_of_mem _ hb))

theorem gives_resolve {p : Pathname} {l : Location} (h : w.resolve p = .ok l) :
    Gives w (resolve w p) (.ok l) := by
  rw [resolve, h]
  exact gives_pure l

section Directories

variable {p : Pathname} {d : Location} {es : Entries}

theorem readIgnoreFile_child (ht : w.tree.lawful = true) (hp : w.locate p true = .ok d)
    (hd : w.tree.get? d = some (.directory es)) :
    readIgnoreFile w (p.child gitignoreName) =
      readIgnoreFile w (d.path.child gitignoreName) := by
  have hpath : w.locate d.path true = .ok d := Workspace.locate_path ht hd nofun
  rw [readIgnoreFile, readIgnoreFile, Workspace.node?_child_eq hp hpath (by decide)]

theorem gives_gitignore (ht : w.tree.lawful = true) (hp : w.locate p true = .ok d)
    (hd : w.tree.get? d = some (.directory es)) :
    Gives w (gitignore w p) ((readIgnoreFile w (d.path.child gitignoreName)).map fun _ =>
      Finder.gitignoreAt w d) := by
  have hread := readIgnoreFile_child ht hp hd
  intro q hq
  have hkey : resolve w p = pure d := by rw [resolve, Workspace.resolve_of_locate hp]
  rw [gitignore, hkey, pure_bind, EStateM.run_bind, EStateM.run_get]
  simp only
  cases hl : List.lookup d q.memory with
  | some rules =>
    refine ⟨q.memory, hq, ?_⟩
    rw [Finder.gitignoreAt, Finder.rulesAt, hq d rules hl]
    rfl
  | none =>
    rw [EStateM.run_bind, hread]
    cases hr : readIgnoreFile w (d.path.child gitignoreName) with
    | error e => exact ⟨q.memory, hq, rfl⟩
    | ok rules =>
      refine ⟨(d, rules) :: q.memory, hq.cons hr, ?_⟩
      rw [Finder.gitignoreAt, Finder.rulesAt, hr]
      rfl

theorem gives_gitignoresFrom (ht : w.tree.lawful = true) {names : List Name}
    (hp : w.locate p true = .ok d) (hd : w.tree.get? (d ++ names) = some (.directory es))
    (hr : ∀ v, v <+: names → v ≠ names →
      ∃ rules, readIgnoreFile w ((d ++ v).path.child gitignoreName) = .ok rules) :
    Gives w (gitignoresFrom w p names)
      ((readIgnoreFile w ((d ++ names).path.child gitignoreName)).map fun _ =>
        names.inits.flatMap fun v => Finder.gitignoreAt w (d ++ v)) := by
  induction names generalizing p d with
  | nil =>
    rw [List.append_nil] at hd ⊢
    simpa [gitignoresFrom] using gives_gitignore ht hp hd
  | cons n names ih =>
    obtain ⟨ds, hhere⟩ := Node.exists_directory_above hd
    rw [List.append_cons] at hd ⊢
    obtain ⟨cs, hchild⟩ := Node.exists_directory_above hd
    have hp' : w.locate (p.child n) true = .ok (d ++ [n]) := by
      refine Workspace.locate_below hp (fun m hm => ?_) hchild nofun
      exact Node.proper_of_get? ht hchild m (List.mem_append_right _ hm)
    -- There are names left, so the file that stands here is not the one that may fail.
    obtain ⟨rules, hrules⟩ := hr [] List.nil_prefix (by simp)
    have houter : Gives w (gitignore w p) (.ok (Finder.gitignoreAt w d)) := by
      rw [List.append_nil] at hrules
      simpa [hrules, Except.map] using gives_gitignore ht hp hhere
    have hinner := ih hp' hd fun v hv hne => by
      simpa using hr (n :: v) (List.cons_prefix_cons.2 ⟨rfl, hv⟩) (by simpa using hne)
    have hboth := houter.bind fun outer _ => hinner.bind fun inner _ => gives_pure (outer ++ inner)
    rw [gitignoresFrom]
    convert hboth using 1
    cases readIgnoreFile w ((d ++ [n] ++ names).path.child gitignoreName) with
    | error e => rfl
    | ok rules => simp [Except.bind, Except.map, List.flatMap_map]

end Directories

end Search

namespace Finder

open Search

namespace Walk

variable {k : Walk} {es : Entries}

theorem any_congr {files files' : List IgnoreFile} (h : ∀ g, g ∈ files ↔ g ∈ files')
    (p : IgnoreFile → Bool) : files.any p = files'.any p := by
  rw [Bool.eq_iff_iff, List.any_eq_true, List.any_eq_true]
  exact exists_congr fun g => and_congr_left fun _ => h g

theorem skips_congr {files files' : List IgnoreFile} (h : ∀ g, g ∈ files ↔ g ∈ files')
    (names : List Name) : k.skips files names = k.skips files' names := by
  rw [skips, skips, any_congr h]

theorem filesIn_congr {files files' : List IgnoreFile} (h : ∀ g, g ∈ files ↔ g ∈ files')
    (names : List Name) (ds : Entries) : k.filesIn files names ds = k.filesIn files' names ds := by
  have hfile (names : List Name) : k.file files names = k.file files' names := by
    simp only [file, any_congr h]
  simp only [filesIn_eq, hfile]

theorem Grounded.gives_gitignores (h : k.Grounded es) {a : Post} (ha : k.Known a) :
    Gives k.workspace (k.gitignores a.names) ((k.ignoreFiles a.files a.names).map fun _ =>
      k.finder.gitignores k.workspace k.base a.names) := by
  rw [gitignores, Finder.gitignores]
  cases hg : k.finder.respectGitignore with
  | false =>
    rw [ignoreFiles, hg]
    exact gives_pure []
  | true =>
    rw [if_pos rfl, if_pos rfl]
    have hchain := gives_gitignoresFrom h.lawful h.reached ha.stands (ha.read hg)
    convert hchain using 1
    rw [ignoreFiles, hg]
    simp only [Bool.not_true, Bool.false_eq_true, if_false]
    rcases readIgnoreFile k.workspace ((k.base ++ a.names).path.child gitignoreName) with
      e | (_ | rules) <;> rfl

mutual

/-- A walk that remembers comes upon what one comes upon that reads all ignore files anew. -/
theorem Grounded.emits_search (h : k.Grounded es) : ∀ (n : Node) (files : List IgnoreFile)
    (names : List Name), (∀ ds, n = .directory ds → k.Known ⟨names, ds, files⟩) →
      Emits k.workspace (k.search (toolFiles k.workspace k.base) names n) (k.steps files names n)
  | .file _, _, _, _ => emits_pure
  | .link _, _, _, _ => emits_pure
  | .directory ds, files, names, ha => by
    have ha := ha ds rfl
    have hchain := h.gives_gitignores ha
    rw [search, steps]
    cases hf : k.ignoreFiles files names with
    | error e =>
      rw [hf] at hchain
      exact hchain.emits_error _
    | ok files' =>
      rw [hf] at hchain
      -- Both walks have the same files, one of them with that of the tool at the end.
      have hmem (g : IgnoreFile) : g ∈ k.finder.gitignores k.workspace k.base names ++
          toolFiles k.workspace k.base ↔ g ∈ files' := by
        rw [ha.files files' hf, filesOver, List.mem_append, List.mem_append, or_comm]
      refine hchain.emits_ok ?_
      have hbelow := h.emits_searchIn ds files' names hmem fun n cs hm hk =>
        h.known_enters ha ⟨hf, n, rfl, hm, hk⟩
      simp only [← filesIn_congr hmem]
      exact (emits_reports _).append hbelow

theorem Grounded.emits_searchIn (h : k.Grounded es) : ∀ (ds : List (Name × Node))
    {outer : List IgnoreFile} (files : List IgnoreFile) (names : List Name),
    (∀ g, g ∈ outer ↔ g ∈ files) →
    (∀ n cs, (n, .directory cs) ∈ ds → k.skips files (names ++ [n]) = false →
      k.Known ⟨names ++ [n], cs, files⟩) →
    Emits k.workspace (k.searchIn (toolFiles k.workspace k.base) outer names ds)
      (k.stepsIn files names ds)
  | [], _, _, _, _, _ => emits_pure
  | (n, c) :: ds, outer, files, names, hmem, ha => by
    rw [searchIn, stepsIn, skips_congr hmem]
    have hrest := h.emits_searchIn ds files names hmem fun m cs hm =>
      ha m cs (List.mem_cons_of_mem _ hm)
    cases hk : k.skips files (names ++ [n]) with
    | true => exact hrest
    | false =>
      exact (h.emits_search c files (names ++ [n]) fun cs hc =>
        ha n cs (hc ▸ List.mem_cons_self) hk).append hrest

end

end Walk

variable {w : Workspace}

theorem emits_searchDirectory (f : Finder) (ht : w.tree.lawful = true) {p : Pathname}
    (hp : w.isDirectory p = true) : Emits w (f.searchDirectory w p) (f.walk w p) := by
  obtain ⟨base, es, h⟩ := Walk.grounded_of_isDirectory f ht hp
  have hres : w.resolve p = .ok base := h.resolve_root
  have hdir : w.tree.get? base = some (.directory es) := h.directory
  rw [searchDirectory, walk, hres]
  refine (gives_resolve hres).emits_ok ?_
  have hown := gives_ofExcept (w := w) (ownFiles w base)
  cases ho : ownFiles w base with
  | error e =>
    simp only [ho] at hown ⊢
    exact hown.emits_error _
  | ok own =>
    simp only [ho, hdir] at hown ⊢
    refine hown.emits_ok ?_
    rw [toolFiles_of_ownFiles ho]
    refine h.emits_search (.directory es) (toolFiles w base) [] fun ds hds => ?_
    cases hds
    exact h.known_start

theorem emits_search (f : Finder) (ht : w.tree.lawful = true) (raw : List Char) :
    Emits w (f.search w raw) (f.stepsOf w raw) := by
  rw [search, stepsOf]
  split
  · exact emits_reports _
  · split
    · rename_i hd
      exact f.emits_searchDirectory ht hd
    · split
      · exact emits_reports _
      · exact emits_throw _

theorem findings_of_failed (f : Finder) (paths : Nat) (steps rest : List Step) (e : FindError) :
    f.findings paths (steps ++ .failed e :: rest) = f.findings paths (steps ++ [.failed e]) := by
  have hsettle : Step.settle (steps ++ .failed e :: rest) =
      Step.settle (steps ++ [.failed e]) := by
    induction steps with
    | nil => rfl
    | cons s steps ih => cases s <;> simp [Step.settle, ih]
  have hlog : Step.log f.maxSize (steps ++ .failed e :: rest) =
      Step.log f.maxSize (steps ++ [.failed e]) := by
    clear hsettle
    induction steps with
    | nil => rfl
    | cons s steps ih => cases s <;> simp [Step.log, ih]
  rw [findings, findings, hsettle, hlog]

theorem ended_reports (f : Finder) (paths : Nat) (steps : List Step) (p : Progress) :
    f.ended paths ((steps.forM report).run p) =
      (f.findings paths (p.steps ++ steps), p.memory) := by
  induction steps generalizing p with
  | nil =>
    rw [List.append_nil]
    rfl
  | cons s steps ih =>
    cases s with
    | failed e =>
      rw [findings_of_failed]
      rfl
    | found l =>
      rw [List.append_cons]
      exact ih { p with steps := p.steps ++ [.found l] }
    | tooLarge q size =>
      rw [List.append_cons]
      exact ih { p with steps := p.steps ++ [.tooLarge q size] }

/-- A search finds what it finds when all ignore files are read anew, and what it has read after it
is again what stands in the tree. -/
theorem call_eq (f : Finder) (ht : w.tree.lawful = true) {memory : Memory}
    (hm : memory.Faithful w) (raws : List (List Char)) :
    ∃ memory' : Memory, memory'.Faithful w ∧ f.call w memory raws = (f.find w raws, memory') := by
  obtain ⟨memory', hm', hrun⟩ :=
    emits_forM (fun raw (_ : raw ∈ raws) => f.emits_search ht raw) ⟨memory, []⟩ hm
  refine ⟨memory', hm', ?_⟩
  rw [call, hrun, ended_reports, List.nil_append, find]

theorem calls_eq (f : Finder) (ht : w.tree.lawful = true) {memory : Memory}
    (hm : memory.Faithful w) (finds : List (List (List Char))) :
    f.calls w memory finds = finds.map (f.find w) := by
  induction finds generalizing memory with
  | nil => rfl
  | cons raws finds ih =>
    obtain ⟨memory', hm', hcall⟩ := f.call_eq ht hm raws
    rw [calls, hcall, List.map_cons]
    exact congrArg _ (ih hm')

end Finder

end ErbLayout.Discovery
