import ErbLayout.Proofs.Discovery.Walk
import ErbLayout.Proofs.Files.Real
import Mathlib.Data.List.Infix
/-!
A walk does not enter what it need not enter, and yet finds what a look at every single file would
find: the files that the filters let pass, each once. It comes to no end only where an ignore file
that it needs cannot be read.
-/

namespace ErbLayout.Discovery

open Files Ignore

namespace Finder

/-- The rules of the ignore file at a path; one that cannot be read has none. -/
def rulesAt (w : Workspace) (p : Pathname) : Option Rules :=
  match readIgnoreFile w p with
  | .ok rules => rules
  | .error _ => none

/-- The nearest file of the tool at or above the root of a walk. -/
def toolFiles (w : Workspace) (base : Location) : List IgnoreFile :=
  match findIgnoreFile? w base with
  | none => []
  | some l => (rulesAt w l.path).toList.map fun r => ⟨r, l.dropLast⟩

theorem toolFiles_of_ownFiles {w : Workspace} {base : Location} {own : List IgnoreFile}
    (h : ownFiles w base = .ok own) : own = toolFiles w base := by
  rw [ownFiles] at h
  rw [toolFiles]
  cases hl : findIgnoreFile? w base with
  | none => simpa [hl, eq_comm] using h
  | some l =>
    cases hr : readIgnoreFile w l.path with
    | error e => simp [hl, hr, Except.map] at h
    | ok rules => simpa [hl, hr, Except.map, rulesAt, eq_comm] using h

theorem ownFiles_eq_error {w : Workspace} {base : Location} {e : FindError} :
    ownFiles w base = .error e ↔
      ∃ l, findIgnoreFile? w base = some l ∧ readIgnoreFile w l.path = .error e := by
  rw [ownFiles]
  cases hl : findIgnoreFile? w base with
  | none => simp
  | some l => cases hr : readIgnoreFile w l.path <;> simp [hr, Except.map]

def gitignoreAt (w : Workspace) (d : Location) : List IgnoreFile :=
  (rulesAt w (d.path.child gitignoreName)).toList.map fun r => ⟨r, d⟩

/-- The `.gitignore` files of the directories from the root of a walk down to that at `way`, the
outermost first; none if they are not to be respected. -/
def gitignores (f : Finder) (w : Workspace) (base : Location) (way : List Name) :
    List IgnoreFile :=
  if f.respectGitignore then way.inits.flatMap fun v => gitignoreAt w (base ++ v) else []

/-- All ignore files that speak of what stands in the directory at `way`. -/
def filesOver (f : Finder) (w : Workspace) (base : Location) (way : List Name) :
    List IgnoreFile :=
  toolFiles w base ++ f.gitignores w base way

/-- That a directory below the root of a walk is excluded, by its own name or by its path. -/
def Excludes (f : Finder) (way : List Name) : Prop :=
  f.exclude.ignores (way.getLastD [] ++ ['/']) = true ∨
    f.exclude.ignores ((Pathname.mk [] way).text ++ ['/']) = true

/-- That no directory from the root of a walk down to that at `way` is excluded, or ignored by one
of the ignore files above it. -/
def Opens (f : Finder) (w : Workspace) (base : Location) (way : List Name) : Prop :=
  ∀ v, v <+: way → v ≠ [] → ¬ f.Excludes v ∧
    ∀ g ∈ f.filesOver w base v.dropLast, g.ignores (base ++ v) true = false

/-- What a look at a single file below the root of a walk says of it. -/
structure Passes (f : Finder) (w : Workspace) (base : Location) (names : List Name) : Prop where
  stands : ∃ content, w.tree.Holds (base ++ names) content ∧
    (f.maxSize = 0 ∨ (content.length : Int) ≤ f.maxSize)
  included : f.include_.ignores (names.getLastD []) = true
  spared : ∀ g ∈ f.filesOver w base names.dropLast, g.ignores (base ++ names) false = false
  opens : f.Opens w base names.dropLast

/-- An ignore file that a walk needs and that cannot be read, with the reason. -/
inductive Obstacle (f : Finder) (w : Workspace) (base : Location) : FindError → Prop
  | tool {l : Location} {e : FindError} (found : findIgnoreFile? w base = some l)
      (unread : readIgnoreFile w l.path = .error e) : Obstacle f w base e
  | git {way : List Name} {e : FindError} (respected : f.respectGitignore = true)
      (directory : w.tree.directoryAt (base ++ way) = true) (opens : f.Opens w base way)
      (unread : readIgnoreFile w ((base ++ way).path.child gitignoreName) = .error e) :
      Obstacle f w base e

theorem not_isTooLarge_iff {f : Finder} {size : Nat} :
    f.isTooLarge size = false ↔ f.maxSize = 0 ∨ (size : Int) ≤ f.maxSize := by
  simp only [isTooLarge, Bool.and_eq_false_iff, bne_eq_false_iff_eq, decide_eq_false_iff_not]
  omega

theorem gitignores_nil (f : Finder) (w : Workspace) (base : Location) :
    f.gitignores w base [] = if f.respectGitignore then gitignoreAt w base else [] := by
  simp [gitignores]

theorem gitignores_concat (f : Finder) (w : Workspace) (base : Location) (way : List Name)
    (n : Name) : f.gitignores w base (way ++ [n]) = f.gitignores w base way ++
      if f.respectGitignore then gitignoreAt w (base ++ (way ++ [n])) else [] := by
  cases h : f.respectGitignore <;> simp [gitignores, h, List.inits_append]

theorem Opens.of_prefix {f : Finder} {w : Workspace} {base : Location} {v way : List Name}
    (h : f.Opens w base way) (hv : v <+: way) : f.Opens w base v :=
  fun u hu => h u (hu.trans hv)

namespace Walk

variable {k : Walk}

theorem ignoreFiles_eq_ok {files files' : List IgnoreFile} {names : List Name}
    (h : k.ignoreFiles files names = .ok files') :
    files' = files ++
      if k.finder.respectGitignore then gitignoreAt k.workspace (k.base ++ names) else [] := by
  rw [ignoreFiles] at h
  cases hg : k.finder.respectGitignore with
  | false =>
    simp only [hg, Bool.not_false, if_true, Except.ok.injEq] at h
    simp [h]
  | true =>
    simp only [hg, Bool.not_true, Bool.false_eq_true, if_false] at h
    rw [if_pos rfl, gitignoreAt, rulesAt]
    split at h
    · cases h
    · rename_i hr
      cases h
      simp [hr]
    · rename_i rules hr
      cases h
      simp [hr]

theorem ignoreFiles_eq_error {files : List IgnoreFile} {names : List Name} {e : FindError}
    (h : k.ignoreFiles files names = .error e) : k.finder.respectGitignore = true ∧
      readIgnoreFile k.workspace ((k.base ++ names).path.child gitignoreName) = .error e := by
  rw [ignoreFiles] at h
  split at h
  · cases h
  · rename_i hg
    refine ⟨by simpa using hg, ?_⟩
    split at h
    · rename_i hr
      cases h
      exact hr
    · cases h
    · cases h

theorem read_of_ignoreFiles {files files' : List IgnoreFile} {names : List Name}
    (h : k.ignoreFiles files names = .ok files') (hg : k.finder.respectGitignore = true) :
    ∃ rules, readIgnoreFile k.workspace ((k.base ++ names).path.child gitignoreName) =
      .ok rules := by
  rw [ignoreFiles, hg] at h
  simp only [Bool.not_true, Bool.false_eq_true, if_false] at h
  split at h
  · cases h
  · rename_i hr
    exact ⟨none, hr⟩
  · rename_i rules hr
    exact ⟨some rules, hr⟩

theorem skips_eq_false_iff {files : List IgnoreFile} {names : List Name} :
    k.skips files names = false ↔ ¬ k.finder.Excludes names ∧
      ∀ g ∈ files, g.ignores (k.base ++ names) true = false := by
  simp [skips, Excludes, and_assoc]

/-- A walk from a directory to which its path leads. -/
structure Grounded (k : Walk) (es : Entries) : Prop where
  lawful : k.workspace.tree.lawful = true
  reached : k.workspace.locate k.root true = .ok k.base
  directory : k.workspace.tree.get? k.base = some (.directory es)

theorem Grounded.resolve_root {es : Entries} (h : k.Grounded es) :
    k.workspace.resolve k.root = .ok k.base :=
  Workspace.resolve_of_locate h.reached

theorem grounded_of_isDirectory (f : Finder) {w : Workspace} (ht : w.tree.lawful = true)
    {root : Pathname} (hd : w.isDirectory root = true) :
    ∃ base es, Walk.Grounded ⟨f, w, root, base⟩ es := by
  obtain ⟨base, es, hloc, hdir⟩ := Workspace.locate_of_isDirectory hd
  exact ⟨base, es, ht, hloc, hdir⟩

/-- A walk in a tree without links. -/
structure Sound (k : Walk) (es : Entries) : Prop extends k.Grounded es where
  linkFree : k.workspace.tree.LinkFree

def start (k : Walk) (es : Entries) : Post := ⟨[], es, toolFiles k.workspace k.base⟩

section Sound

variable {es : Entries} {a : Post}

theorem Sound.node? (h : k.Sound es) {names : List Name} {m : Node}
    (hm : k.workspace.tree.get? (k.base ++ names) = some m) :
    k.workspace.node? (k.path names) = some m := by
  refine Workspace.node?_below h.reached (fun n hn => ?_) hm fun t ht => h.linkFree _ t (ht ▸ hm)
  exact Node.proper_of_get? h.lawful hm n (List.mem_append_right _ hn)

theorem Sound.resolve (h : k.Sound es) {names : List Name} {m : Node}
    (hm : k.workspace.tree.get? (k.base ++ names) = some m) :
    k.workspace.resolve (k.path names) = .ok (k.base ++ names) := by
  refine Workspace.resolve_of_locate (Workspace.locate_below h.reached (fun n hn => ?_) hm
    fun t ht => h.linkFree _ t (ht ▸ hm))
  exact Node.proper_of_get? h.lawful hm n (List.mem_append_right _ hn)

/-- What a walk knows of a directory that it has come to. -/
structure Known (k : Walk) (a : Post) : Prop where
  stands : k.workspace.tree.get? (k.base ++ a.names) = some (.directory a.entries)
  opens : k.finder.Opens k.workspace k.base a.names
  read : k.finder.respectGitignore = true → ∀ v, v <+: a.names → v ≠ a.names →
    ∃ rules, readIgnoreFile k.workspace ((k.base ++ v).path.child gitignoreName) = .ok rules
  files : ∀ files, k.ignoreFiles a.files a.names = .ok files →
    files = k.finder.filesOver k.workspace k.base a.names

theorem Grounded.known_start (h : k.Grounded es) : k.Known (k.start es) where
  stands := by simpa [start] using h.directory
  opens v hv hne := absurd (List.prefix_nil.1 hv) hne
  read _ v hv hne := absurd (List.prefix_nil.1 hv) hne
  files files hf := by
    rw [ignoreFiles_eq_ok hf, filesOver, start, gitignores_nil, List.append_nil]

theorem Grounded.known_enters (h : k.Grounded es) {b : Post} (ha : k.Known a)
    (hab : k.Enters a b) : k.Known b := by
  obtain ⟨names, entries, files⟩ := b
  obtain ⟨hf, n, hn, hm, hk⟩ := hab
  subst hn
  have hfiles := ha.files _ hf
  refine ⟨?_, ?_, fun hg v hv hne => ?_, fun files' hf' => ?_⟩
  · rw [← List.append_assoc]
    exact Node.get?_child h.lawful ha.stands hm
  · intro v hv hne
    rcases List.prefix_concat_iff.1 hv with rfl | hv
    · rw [List.dropLast_concat, ← hfiles]
      exact skips_eq_false_iff.1 hk
    · exact ha.opens v hv hne
  · rcases List.prefix_concat_iff.1 hv with rfl | hv
    · exact absurd rfl hne
    · by_cases hv' : v = a.names
      · subst hv'
        exact read_of_ignoreFiles hf hg
      · exact ha.read hg v hv hv'
  · rw [ignoreFiles_eq_ok hf']
    simp only at hfiles ⊢
    rw [hfiles, filesOver, filesOver, gitignores_concat, List.append_assoc]

theorem Grounded.known (h : k.Grounded es) (ha : k.Comes (k.start es) a) : k.Known a := by
  induction ha with
  | refl => exact h.known_start
  | tail _ hab ih => exact h.known_enters ih hab

/-- A walk comes to each directory to which the way is open, or it fails. -/
theorem Grounded.comes_of_opens (h : k.Grounded es) {way : List Name} {ds : Entries}
    (hd : k.workspace.tree.get? (k.base ++ way) = some (.directory ds))
    (ho : k.finder.Opens k.workspace k.base way) :
    (∃ a, k.Comes (k.start es) a ∧ a.names = way ∧ a.entries = ds) ∨
      ∃ a e, k.Comes (k.start es) a ∧ Step.failed e ∈ k.stepsAt a := by
  -- From the root on: the way to a directory is open where that to its parent is.
  induction way using List.reverseRecOn generalizing ds with
  | nil =>
    rw [List.append_nil, h.directory, Option.some.injEq, Node.directory.injEq] at hd
    exact .inl ⟨_, .refl, rfl, hd⟩
  | append_singleton way n ih =>
    rw [← List.append_assoc] at hd
    obtain ⟨ps, hp, hm⟩ := Node.exists_parent hd
    rcases ih hp (ho.of_prefix (List.prefix_append way [n])) with ⟨a, ha, rfl, rfl⟩ | hfail
    · cases hf : k.ignoreFiles a.files a.names with
      | error e => exact .inr ⟨a, e, ha, by simp [stepsAt, hf]⟩
      | ok files =>
        have hk : k.skips files (a.names ++ [n]) = false := by
          rw [skips_eq_false_iff, (h.known ha).files files hf]
          simpa using ho (a.names ++ [n]) (List.prefix_refl _) (by simp)
        exact .inl ⟨⟨a.names ++ [n], ds, files⟩, ha.tail ⟨hf, n, rfl, hm, hk⟩, rfl, rfl⟩
    · exact .inr hfail

theorem Sound.file_eq (h : k.Sound es) {files : List IgnoreFile} {names : List Name}
    {content : Text.Bytes} (hc : k.workspace.tree.Holds (k.base ++ names) content) :
    k.file files names =
      if k.finder.include_.ignores (names.getLastD []) &&
          files.all fun g => !g.ignores (k.base ++ names) false then
        if k.finder.isTooLarge content.length then [.tooLarge (k.path names) content.length]
        else [.found (k.base ++ names)]
      else [] := by
  rw [Node.Holds] at hc
  rw [file, sized, h.node? hc, h.resolve hc, List.all_eq_not_any_not]
  simp only [Bool.not_not]
  cases k.finder.include_.ignores (names.getLastD []) with
  | false => rfl
  | true =>
    cases files.any fun g => g.ignores (k.base ++ names) false with
    | true => rfl
    | false => cases k.finder.isTooLarge content.length <;> rfl

theorem Sound.mem_filesIn (h : k.Sound es) {names : List Name} {ds : Entries}
    (hd : k.workspace.tree.get? (k.base ++ names) = some (.directory ds))
    {files : List IgnoreFile} {s : Step} : s ∈ k.filesIn files names ds ↔
      ∃ n content, k.workspace.tree.Holds (k.base ++ (names ++ [n])) content ∧
        s ∈ k.file files (names ++ [n]) := by
  rw [filesIn_eq, List.mem_flatMap]
  constructor
  · rintro ⟨⟨n, c⟩, hm, hs⟩
    have hc := Node.get?_child h.lawful hd hm
    rw [List.append_assoc] at hc
    cases c with
    | file content =>
      refine ⟨n, content, hc, ?_⟩
      simpa [Workspace.isDirectory, h.node? hc, Node.isDirectory] using hs
    | directory ds => simp [Workspace.isDirectory, h.node? hc, Node.isDirectory] at hs
    | link t => exact absurd hc (h.linkFree _ t)
  · rintro ⟨n, content, hc, hs⟩
    have hparent := hc
    rw [Node.Holds, ← List.append_assoc] at hparent
    obtain ⟨ds', hd', hm⟩ := Node.exists_parent hparent
    rw [hd, Option.some.injEq, Node.directory.injEq] at hd'
    refine ⟨(n, .file content), hd' ▸ hm, ?_⟩
    simpa [Workspace.isDirectory, h.node? hc, Node.isDirectory] using hs

end Sound

end Walk

end Finder

end ErbLayout.Discovery
