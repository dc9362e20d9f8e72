import ErbLayout.Proofs.Discovery.Filtering
import ErbLayout.Proofs.Ignore.OneName
/-!
What comes of patterns to exclude when they are to hold for every argument. A walk enters no
directory that is excluded by its name or by its path. A file that is named is held back for the
names on its path alone, which is the same where each pattern is one name. What a glob expands to is
not held back at all.
-/

namespace ErbLayout.Discovery

open Files Ignore

/-- How a search comes to a file: it is named, or found on a walk, or a glob expands to it. -/
inductive Route where
  | named
  | walked
  | globbed
  deriving DecidableEq, Repr

/-- That a search may come to a location from an argument, by way of names from where the argument
is based: the root of a walk, or the directory of the run. -/
inductive Reaches (w : Workspace) (raw : List Char) : Route → List Name → Location → Prop
  | named {l : Location} (file : w.isFile (Pathname.ofText raw) = true)
      (leads : w.resolve (Pathname.ofText raw) = .ok l) :
      Reaches w raw .named (Pathname.ofText raw).names l
  | walked {base l : Location} {names : List Name}
      (directory : w.isDirectory (Pathname.ofText raw) = true)
      (root : w.resolve (Pathname.ofText raw) = .ok base)
      (stands : (w.tree.get? (base ++ names)).isSome = true)
      (leads : w.resolve { Pathname.ofText raw with
        names := (Pathname.ofText raw).names ++ names } = .ok l) :
      Reaches w raw .walked names l
  | globbed {ps : List Pathname} {q : Pathname} {l : Location}
      (unnamed : w.isFile (Pathname.ofText raw) = false ∧
        w.isDirectory (Pathname.ofText raw) = false)
      (wild : hasGlobChars raw = true) (expands : glob w (Pathname.ofText raw) = .ok ps)
      (member : q ∈ ps) (file : w.isFile q = true) (leads : w.resolve q = .ok l) :
      Reaches w raw .globbed q.names l

namespace Finder

variable {f : Finder} {w : Workspace}

/-- That a directory on a way to a file is excluded as a walk excludes directories. -/
def Bars (f : Finder) (names : List Name) : Prop :=
  ∃ v, v <+: names.dropLast ∧ v ≠ [] ∧ f.Excludes v

/-- That neither the name of a file nor that of a directory on the way to it is excluded. -/
def SparesNames (f : Finder) (names : List Name) : Prop :=
  f.exclude.ignores (names.getLastD []) = false ∧
    ∀ n ∈ names.dropLast, f.exclude.ignores (n ++ ['/']) = false

/-- Where each pattern is one name, a path is barred only by the names on it. -/
theorem not_bars_of_sparesNames (hp : ∀ p ∈ f.exclude, p.OneName) {names : List Name}
    (hn : ∀ n ∈ names, IsName n) (h : f.SparesNames names) : ¬ f.Bars names := by
  rintro ⟨v, hv, hne, hx⟩
  have spared (n : Name) (hm : n ∈ v) : f.exclude.ignores (n ++ ['/']) = false :=
    h.2 n (hv.subset hm)
  obtain ⟨u, n, rfl⟩ := (List.eq_nil_or_concat v).resolve_left hne
  rw [List.concat_eq_append] at *
  rcases hx with hx | hx
  · rw [spared _ (by simp)] at hx
    cases hx
  · have hnames : ∀ m ∈ u ++ [n], IsName m := fun m hm =>
      hn m (List.dropLast_subset names (hv.subset hm))
    obtain ⟨m, hm, hx⟩ := Rules.exists_name_of_ignores hp hnames hne hx
    rw [spared m hm] at hx
    cases hx

theorem excludesNamed_eq_false_iff {p : Pathname} (hp : p.isAbsolute = false) :
    f.excludesNamed p = false ↔ f.SparesNames p.names := by
  simp [excludesNamed, SparesNames, Pathname.parts, hp, Pathname.name]

theorem sized_eq_found_iff {p : Pathname} (hp : w.isFile p = true) {l : Location} :
    f.sized w p = .found l ↔ w.resolve p = .ok l ∧
      ∀ content, w.tree.Holds l content → f.isTooLarge content.length = false := by
  obtain ⟨k, content, hk, hc⟩ : ∃ k content, w.locate p true = .ok k ∧
      w.tree.get? k = some (.file content) := by
    rw [Workspace.isFile, Workspace.node?] at hp
    cases hl : w.locate p true with
    | error e => simp [hl] at hp
    | ok k =>
      rw [hl] at hp
      obtain ⟨n, hn, hfile⟩ := (Option.any_eq_true _ _).1 hp
      cases n with
      | file content => exact ⟨k, content, rfl, hn⟩
      | link _ => cases hfile
      | directory _ => cases hfile
  have hres := Workspace.resolve_of_locate hk
  rw [sized, Workspace.node?, hk, hres]
  simp only [hc, Option.isSome_some, Bool.and_true]
  cases hsize : f.isTooLarge content.length with
  | true =>
    simp only [if_true, reduceCtorEq, false_iff, not_and, Except.ok.injEq]
    rintro rfl h
    exact absurd (h content hc) (by simp [hsize])
  | false =>
    simp only [Bool.false_eq_true, if_false, Step.found.injEq, Except.ok.injEq]
    refine ⟨fun h => ⟨h, fun c hc' => ?_⟩, fun h => h.1⟩
    subst h
    rw [Node.Holds, hc] at hc'
    cases hc'
    exact hsize

theorem resolve_of_sized {p : Pathname} {l : Location} (h : f.sized w p = .found l) :
    w.resolve p = .ok l := by
  rw [sized] at h
  split_ifs at h
  split at h
  · rename_i hres
    rw [hres, Step.found.inj h]
  · cases h

theorem resolve_of_found_file {k : Walk} {files : List IgnoreFile} {names : List Name}
    {l : Location} (h : Step.found l ∈ k.file files names) :
    k.workspace.resolve (k.path names) = .ok l := by
  rw [Walk.file] at h
  split at h
  · cases h
  · split at h
    · cases List.mem_singleton.1 h
    · split at h
      · cases h
      · exact resolve_of_sized (List.mem_singleton.1 h).symm

theorem exists_way_of_found_walk (ht : w.tree.lawful = true) {root : Pathname}
    (hd : w.isDirectory root = true) {l : Location} (hl : Step.found l ∈ f.walk w root) :
    ∃ base names, w.resolve root = .ok base ∧ (w.tree.get? (base ++ names)).isSome = true ∧
      w.resolve { root with names := root.names ++ names } = .ok l ∧ ¬ f.Bars names := by
  obtain ⟨base, es, h⟩ := Walk.grounded_of_isDirectory f ht hd
  obtain ⟨a, ha, hs⟩ := (exists_post_of_mem_walk h hl).resolve_left fun ⟨_, he, _⟩ => by cases he
  have known := h.known ha
  rw [Walk.stepsAt] at hs
  split at hs
  · cases List.mem_singleton.1 hs
  rw [Walk.filesIn_eq, List.mem_flatMap] at hs
  obtain ⟨⟨n, c⟩, hm, hs⟩ := hs
  have hc := Node.get?_child ht known.stands hm
  refine ⟨base, a.names ++ [n], h.resolve_root, ?_, ?_, ?_⟩
  · rw [← List.append_assoc, hc]
    rfl
  · split at hs
    · cases hs
    · exact resolve_of_found_file hs
  · rintro ⟨v, hv, hne, hx⟩
    rw [List.dropLast_concat] at hv
    exact (known.opens v hv hne).1 hx

theorem exists_reach_of_found (hf : f.forceExclude = true) (ht : w.tree.lawful = true)
    {raw : List Char} (hr : (Pathname.ofText raw).isAbsolute = false) {l : Location}
    (hl : Step.found l ∈ f.stepsOf w raw) :
    ∃ route names, Reaches w raw route names l ∧ (route = .walked → ¬ f.Bars names) ∧
      (route = .named → f.SparesNames names) ∧
      (route = .named → (∀ p ∈ f.exclude, p.OneName) → ¬ f.Bars names) := by
  rw [stepsOf] at hl
  split at hl
  · rename_i hfile
    rw [named] at hl
    split at hl
    · cases hl
    · rename_i hx
      have hspare : f.SparesNames (Pathname.ofText raw).names := by
        rw [← excludesNamed_eq_false_iff hr]
        simpa [hf] using hx
      have hres := resolve_of_sized (List.mem_singleton.1 hl).symm
      exact ⟨.named, _, .named hfile hres, by simp, fun _ => hspare, fun _ hp =>
        not_bars_of_sparesNames hp (fun n hn => isName_of_mem_splitNames hn) hspare⟩
  · split at hl
    · rename_i hdir
      obtain ⟨base, names, hb, hstands, hres, hbar⟩ := exists_way_of_found_walk ht hdir hl
      exact ⟨.walked, names, .walked hdir hb hstands hres, fun _ => hbar, by simp, by simp⟩
    · split at hl
      · rename_i hfile hdir hwild
        rw [expand] at hl
        split at hl
        · cases List.mem_singleton.1 hl
        · rename_i ps hps
          obtain ⟨q, hq, hl⟩ := List.mem_map.1 hl
          simp only [List.mem_filter, Bool.and_eq_true] at hq
          exact ⟨.globbed, _, .globbed ⟨by simpa using hfile, by simpa using hdir⟩ hwild hps
            hq.1 hq.2.1 (resolve_of_sized hl), by simp, by simp, by simp⟩
      · cases List.mem_singleton.1 hl

theorem found_of_named {raw : List Char} (hr : (Pathname.ofText raw).isAbsolute = false)
    {names : List Name} {l : Location} (h : Reaches w raw .named names l)
    (hx : f.SparesNames names)
    (hsize : ∀ content, w.tree.Holds l content → f.isTooLarge content.length = false) :
    Step.found l ∈ f.stepsOf w raw := by
  cases h with
  | named hfile hres =>
    rw [stepsOf, if_pos hfile, named, (excludesNamed_eq_false_iff hr).2 hx]
    simpa using ((sized_eq_found_iff hfile).2 ⟨hres, hsize⟩).symm

theorem found_of_globbed {raw : List Char} {names : List Name} {l : Location}
    (h : Reaches w raw .globbed names l) (hi : f.include_.ignores (names.getLastD []) = true)
    (hsize : ∀ content, w.tree.Holds l content → f.isTooLarge content.length = false) :
    Step.found l ∈ f.stepsOf w raw := by
  cases h with
  | globbed hun hwild hps hq hfile hres =>
    rw [stepsOf, hun.1, hun.2, hwild, expand, hps]
    refine List.mem_map.2 ⟨_, List.mem_filter.2 ⟨hq, ?_⟩, (sized_eq_found_iff hfile).2
      ⟨hres, hsize⟩⟩
    rw [hfile]
    exact hi

def grounds : Workspace where
  tree := .directory [("app".toList, .directory [("a.erb".toList, fileOf "a")]),
    ("public".toList, .directory [("assets".toList, .directory [("a.erb".toList, fileOf "a")])]),
    ("vendor".toList, .directory [("a.erb".toList, fileOf "a")])]

def guard (excluded : String) : Finder := ⟨patterns ["*.erb"], patterns [excluded], true, true, 0⟩

end Finder

end ErbLayout.Discovery
