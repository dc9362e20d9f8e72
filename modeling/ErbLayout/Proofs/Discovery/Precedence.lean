import ErbLayout.Proofs.Discovery.Filtering
/-!
Ignore files at several levels of a tree. Read as one list of patterns, the last that describes a
path decides, so that an inner file can take back what an outer one ignores. A walk asks each file
by itself: it passes over all that the files ignore as one, and also over what was taken back.
-/

namespace ErbLayout.Discovery

open Files Ignore

/-- Whether a pattern that is relative to the directory `d` describes a location. -/
def describes (d : Location) (p : Pattern) (l : Location) (isDirectory : Bool) : Bool :=
  match d.below? l with
  | none => false
  | some names =>
    let text := (Pathname.mk [] names).text
    p.shape.matches_ (plainPath (if isDirectory then text ++ ['/'] else text))

def allPatterns (files : List IgnoreFile) : List (Location × Pattern) :=
  files.flatMap fun g => g.rules.map fun p => (g.directory, p)

/-- Whether ignore files together ignore a location: the last of all their patterns that describes
it is no negation. -/
def ignoreTogether (files : List IgnoreFile) (l : Location) (isDirectory : Bool) : Bool :=
  ((allPatterns files).reverse.find? fun e => describes e.1 e.2 l isDirectory).any
    fun e => !e.2.negated

def IgnoreFile.verdict? (g : IgnoreFile) (l : Location) (isDirectory : Bool) : Option Bool :=
  (g.rules.reverse.find? fun p => describes g.directory p l isDirectory).map fun p => !p.negated

/-- That an ignore file ignores a location, and the last file that speaks of it takes that back. -/
def TakenBack (files : List IgnoreFile) (l : Location) (isDirectory : Bool) : Prop :=
  ∃ before inner after, files = before ++ inner :: after ∧
    inner.verdict? l isDirectory = some false ∧
    (∀ g ∈ after, g.verdict? l isDirectory = none) ∧
    ∃ outer ∈ before, outer.verdict? l isDirectory = some true

section Together

variable {files : List IgnoreFile} {g : IgnoreFile} {l : Location} {isDirectory : Bool}

theorem ignores_eq_true_iff :
    g.ignores l isDirectory = true ↔ g.verdict? l isDirectory = some true := by
  rw [IgnoreFile.ignores, IgnoreFile.verdict?]
  cases hb : g.directory.below? l with
  | none =>
    have hnone : (g.rules.reverse.find? fun p => describes g.directory p l isDirectory) = none :=
      List.find?_eq_none.2 fun p _ => by simp [describes, hb]
    simp [hnone]
  | some names => simp [describes, hb, Rules.ignores, Rules.verdict?]

theorem ignoreTogether_iff : ignoreTogether files l isDirectory = true ↔
    files.reverse.findSome? (·.verdict? l isDirectory) = some true := by
  suffices h : (((allPatterns files).reverse.find? fun e => describes e.1 e.2 l isDirectory).map
      fun e => !e.2.negated) = files.reverse.findSome? (·.verdict? l isDirectory) by
    rw [ignoreTogether, ← h]
    cases (allPatterns files).reverse.find? fun e => describes e.1 e.2 l isDirectory <;> simp
  induction files using List.reverseRecOn with
  | nil => rfl
  | append_singleton files g ih =>
    have hall : allPatterns (files ++ [g]) =
        allPatterns files ++ g.rules.map fun p => (g.directory, p) := by simp [allPatterns]
    rw [hall, List.reverse_append, List.find?_append, Option.map_or, ih, List.reverse_append,
      List.reverse_singleton, List.singleton_append, List.findSome?_cons, ← List.map_reverse,
      List.find?_map, Option.map_map, IgnoreFile.verdict?]
    simp only [Function.comp_def]
    cases g.rules.reverse.find? fun p => describes g.directory p l isDirectory <;> rfl

theorem last_speaks_iff {b : Bool} : files.reverse.findSome? (·.verdict? l isDirectory) = some b ↔
    ∃ before g after, files = before ++ g :: after ∧ g.verdict? l isDirectory = some b ∧
      ∀ h ∈ after, h.verdict? l isDirectory = none := by
  rw [List.findSome?_eq_some_iff]
  constructor
  · rintro ⟨after, g, before, hf, hg, ha⟩
    refine ⟨before.reverse, g, after.reverse, ?_, hg, fun h hm => ha h (List.mem_reverse.1 hm)⟩
    simpa using congrArg List.reverse hf
  · rintro ⟨before, g, after, rfl, hg, ha⟩
    exact ⟨after.reverse, g, before.reverse, by simp, hg, fun h hm => ha h (List.mem_reverse.1 hm)⟩

/-- Asked one by one, the files ignore what they ignore together and what is taken back. -/
theorem exists_ignores_iff : (∃ g ∈ files, g.ignores l isDirectory = true) ↔
    ignoreTogether files l isDirectory = true ∨ TakenBack files l isDirectory := by
  simp only [ignores_eq_true_iff, ignoreTogether_iff]
  constructor
  · rintro ⟨g, hm, hg⟩
    cases hlast : files.reverse.findSome? (·.verdict? l isDirectory) with
    | none =>
      have := List.findSome?_eq_none_iff.1 hlast g (List.mem_reverse.2 hm)
      rw [hg] at this
      cases this
    | some b =>
      cases b with
      | true => exact .inl rfl
      | false =>
        obtain ⟨before, inner, after, rfl, hi, ha⟩ := last_speaks_iff.1 hlast
        refine .inr ⟨before, inner, after, rfl, hi, ha, ?_⟩
        rcases List.mem_append.1 hm with hm | hm
        · exact ⟨g, hm, hg⟩
        · rcases List.mem_cons.1 hm with rfl | hm
          · cases hg.symm.trans hi
          · cases hg.symm.trans (ha g hm)
  · rintro (hlast | ⟨before, inner, after, rfl, -, -, outer, hm, ho⟩)
    · obtain ⟨before, g, after, rfl, hg, -⟩ := last_speaks_iff.1 hlast
      exact ⟨g, by simp, hg⟩
    · exact ⟨outer, by simp [hm], ho⟩

/-- Only a negation in an inner file takes anything back. -/
theorem not_takenBack (h : ∀ g ∈ files.tail, ∀ p ∈ g.rules, p.negated = false) :
    ¬ TakenBack files l isDirectory := by
  rintro ⟨before, inner, after, rfl, hi, -, outer, hm, -⟩
  have htail : inner ∈ (before ++ inner :: after).tail := by
    cases before with
    | nil => cases hm
    | cons b before => simp
  obtain ⟨p, hp, hneg⟩ := Option.map_eq_some_iff.1 hi
  have := h inner htail p (List.mem_reverse.1 (List.mem_of_find?_eq_some hp))
  simp [this] at hneg

end Together

namespace Finder

variable {f : Finder} {w : Workspace} {root : Pathname} {base : Location} {es : Entries}

/-- Whether the `.gitignore` files from the root of a walk down to the parent of what stands at
`way` together ignore it, where `way` is on the way to the file at `names`. -/
def gitIgnored (f : Finder) (w : Workspace) (base : Location) (names way : List Name) : Bool :=
  ignoreTogether (f.gitignores w base way.dropLast) (base ++ way) (way != names)

/-- That an inner one of these files takes back what an outer one ignores. -/
def GitTakenBack (f : Finder) (w : Workspace) (base : Location) (names way : List Name) : Prop :=
  TakenBack (f.gitignores w base way.dropLast) (base ++ way) (way != names)

/-- The files that are to be found where only `.gitignore` files hold patterns, all read as one. -/
structure GitKeeps (f : Finder) (w : Workspace) (base : Location) (names : List Name) : Prop where
  stands : ∃ content, w.tree.Holds (base ++ names) content ∧
    (f.maxSize = 0 ∨ (content.length : Int) ≤ f.maxSize)
  included : f.include_.ignores (names.getLastD []) = true
  kept : ∀ way, way <+: names → way ≠ [] → f.gitIgnored w base names way = false

theorem spared_iff {names way : List Name} :
    (∀ g ∈ f.gitignores w base way.dropLast, g.ignores (base ++ way) (way != names) = false) ↔
      f.gitIgnored w base names way = false ∧ ¬ f.GitTakenBack w base names way := by
  rw [gitIgnored, GitTakenBack, ← Bool.not_eq_true, ← not_or, ← exists_ignores_iff]
  simp

theorem ne_concat_of_initial {way p : List Name} {n : Name} (h : way <+: p) :
    (way != p ++ [n]) = true := by
  refine bne_iff_ne.2 fun he => ?_
  have := h.length_le
  rw [he, List.length_append, List.length_singleton] at this
  omega

theorem passes_iff_of_gitignores (hx : f.exclude = []) (hi : findIgnoreFile? w base = none)
    (hd : w.tree.get? base = some (.directory es)) {names : List Name} :
    f.Passes w base names ↔ f.GitKeeps w base names ∧
      ∀ way, way <+: names → way ≠ [] → ¬ f.GitTakenBack w base names way := by
  have hover (way : List Name) : f.filesOver w base way = f.gitignores w base way := by
    simp [filesOver, toolFiles, hi]
  have hexcl (way : List Name) : ¬ f.Excludes way := by
    simp [Excludes, hx, Rules.ignores, Rules.verdict?_nil]
  rcases List.eq_nil_or_concat names with rfl | ⟨p, n, rfl⟩
  · -- The root itself is no file.
    have hfile : ¬ ∃ content, w.tree.Holds (base ++ []) content ∧
        (f.maxSize = 0 ∨ (content.length : Int) ≤ f.maxSize) := by
      simp [Node.Holds, hd]
    exact ⟨fun h => absurd h.stands hfile, fun h => absurd h.1.stands hfile⟩
  rw [List.concat_eq_append]
  constructor
  · intro h
    have hways (way : List Name) (hway : way <+: p ++ [n]) (hne : way ≠ []) :
        f.gitIgnored w base (p ++ [n]) way = false ∧
          ¬ f.GitTakenBack w base (p ++ [n]) way := by
      rw [← spared_iff, ← hover]
      rcases List.prefix_concat_iff.1 hway with rfl | hway
      · rw [bne_self_eq_false]
        exact h.spared
      · rw [ne_concat_of_initial hway]
        exact (h.opens way (by rwa [List.dropLast_concat]) hne).2
    exact ⟨⟨h.stands, h.included, fun way hway hne => (hways way hway hne).1⟩,
      fun way hway hne => (hways way hway hne).2⟩
  · rintro ⟨⟨hs, hi, hkept⟩, hback⟩
    have hways (way : List Name) (hway : way <+: p ++ [n]) (hne : way ≠ []) :
        ∀ g ∈ f.filesOver w base way.dropLast,
          g.ignores (base ++ way) (way != p ++ [n]) = false := by
      rw [hover, spared_iff]
      exact ⟨hkept way hway hne, hback way hway hne⟩
    refine ⟨hs, hi, ?_, fun way hway hne => ⟨hexcl way, ?_⟩⟩
    · simpa using hways (p ++ [n]) (List.prefix_refl _) (by simp)
    · rw [List.dropLast_concat] at hway
      have := hways way (hway.trans (List.prefix_append _ _)) hne
      rwa [ne_concat_of_initial hway] at this

def layered : Workspace where
  tree := .directory [(".gitignore".toList, fileOf "*.erb\n!keep.erb"),
    ("a.erb".toList, fileOf "a"), ("keep.erb".toList, fileOf "k"),
    ("sub".toList, .directory [(".gitignore".toList, fileOf "keep.erb"),
      ("keep.erb".toList, fileOf "k")])]

def revived : Workspace where
  tree := .directory [(".gitignore".toList, fileOf "*.erb"),
    ("sub".toList, .directory [(".gitignore".toList, fileOf "!a.erb"),
      ("a.erb".toList, fileOf "a")])]

def plainPicker : Finder := ⟨patterns ["*.erb"], [], true, false, 0⟩

end Finder

end ErbLayout.Discovery
