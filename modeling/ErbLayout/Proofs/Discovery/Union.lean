import ErbLayout.Proofs.Discovery.Memory
import ErbLayout.Proofs.Discovery.Precedence
import Mathlib.Data.List.Lex
import Mathlib.Data.List.Sort
import Mathlib.Data.Char
/-!
The searches of one finder are searches for single paths put together. What was searched for before
does not matter, nor does the order of the paths, nor how often one is given; and a search ends with
a complaint of a path that is not there where all paths before it come to an end by themselves.
-/

namespace ErbLayout

namespace Files.Location

theorem pairwise_insert {l : Location} {ls : List Location} (h : ls.Pairwise (· < ·)) :
    (insert l ls).Pairwise (· < ·) := by
  induction ls with
  | nil => exact List.pairwise_singleton _ l
  | cons m ls ih =>
    obtain ⟨hm, hls⟩ := List.pairwise_cons.1 h
    rw [insert]
    split
    · exact h
    · rename_i hne
      split
      · rename_i hlt
        refine List.pairwise_cons.2 ⟨fun k hk => ?_, h⟩
        rcases List.mem_cons.1 hk with rfl | hk
        · exact hlt
        · exact lt_trans hlt (hm k hk)
      · rename_i hlt
        refine List.pairwise_cons.2 ⟨fun k hk => ?_, ih hls⟩
        rcases mem_insert.1 hk with rfl | hk
        · exact (lt_or_gt_of_ne hne).resolve_left hlt
        · exact hm k hk

theorem pairwise_sorted (ls : List Location) : (sorted ls).Pairwise (· < ·) := by
  induction ls with
  | nil => exact .nil
  | cons l ls ih => exact pairwise_insert ih

end Files.Location

namespace Files.Pathname

theorem name_child (p : Pathname) (n : Name) : (p.child n).name = n := by
  simp [child, name]

end Files.Pathname

namespace Discovery

open Files Ignore

namespace Step

theorem settle_eq_ok_iff {steps : List Step} :
    (∃ ls, settle steps = .ok ls) ↔ ∀ e, Step.failed e ∉ steps :=
  ⟨fun ⟨_, h⟩ => not_failed_of_settle h, fun h => ⟨_, settle_of_not_failed h⟩⟩

theorem settle_append (steps more : List Step) :
    settle (steps ++ more) = (settle steps).bind fun ls => (settle more).map (ls ++ ·) := by
  induction steps with
  | nil => cases hm : settle more <;> simp [settle, Except.bind, Except.map, hm]
  | cons s steps ih =>
    cases s with
    | failed e => rfl
    | tooLarge p size => exact ih
    | found l =>
      rw [List.cons_append, settle, settle, ih]
      cases settle steps with
      | error e => rfl
      | ok ls => cases settle more <;> rfl

theorem settle_flatMap_eq_error {α : Type} {xs : List α} {f : α → List Step} {e : FindError} :
    settle (xs.flatMap f) = .error e ↔ ∃ before x after, xs = before ++ x :: after ∧
      (∀ y ∈ before, ∃ ls, settle (f y) = .ok ls) ∧ settle (f x) = .error e := by
  induction xs with
  | nil => simp [settle]
  | cons x xs ih =>
    rw [List.flatMap_cons, settle_append]
    constructor
    · intro h
      cases hx : settle (f x) with
      | error e' =>
        rw [hx] at h
        exact ⟨[], x, xs, rfl, by simp, hx.trans h⟩
      | ok ls =>
        rw [hx] at h
        obtain ⟨before, y, after, rfl, hb, hy⟩ := ih.1 (by
          cases hs : settle (xs.flatMap f) with
          | error e' => simpa [hs, Except.bind, Except.map] using h
          | ok ks => simp [hs, Except.bind, Except.map] at h)
        exact ⟨x :: before, y, after, rfl, List.forall_mem_cons.2 ⟨⟨ls, hx⟩, hb⟩, hy⟩
    · -- The step that fails is the first one, or all of the first part is well.
      rintro ⟨_ | ⟨b, before⟩, y, after, h, hb, hy⟩
      · cases h
        rw [hy]
        rfl
      · cases h
        obtain ⟨⟨ls, hx⟩, hb⟩ := List.forall_mem_cons.1 hb
        rw [hx, ih.2 ⟨before, y, after, rfl, hb, hy⟩]
        rfl

end Step

/-- That a path is neither that of a file nor that of a directory, and has no wildcards. -/
def missing (w : Workspace) (raw : List Char) : Bool :=
  !w.isFile (Pathname.ofText raw) && !w.isDirectory (Pathname.ofText raw) && !hasGlobChars raw

/-- What keeps the search for a path that is there from its end: an ignore file that cannot be read,
wildcards that make no sense, or links that lead to themselves. -/
inductive Trouble (w : Workspace) (raw : List Char) : FindError → Prop
  | ignoreFile {p : Pathname} {e : FindError} (named : p.name = ignoreName ∨ p.name = gitignoreName)
      (unread : readIgnoreFile w p = .error e) : Trouble w raw e
  | wildcards {e : GlobError} (wild : hasGlobChars raw = true)
      (refused : glob w (Pathname.ofText raw) = .error e) : Trouble w raw (.glob e)
  | links {p : Pathname} {e : LinkLoop} (loop : w.resolve p = .error e) : Trouble w raw (.linkLoop e)

namespace Trouble

variable {w : Workspace} {raw : List Char}

theorem not_pathNotFound {q : List Char} : ¬ Trouble w raw (.pathNotFound q) := by
  intro h
  cases h with
  | ignoreFile _ unread =>
    rw [readIgnoreFile] at unread
    split at unread
    · split at unread
      · cases unread
      · split at unread <;> cases unread
    · cases unread

end Trouble

namespace Finder

variable {f : Finder} {w : Workspace} {raw : List Char} {raws : List (List Char)}

theorem trouble_of_sized {p : Pathname} {e : FindError} (h : f.sized w p = .failed e) :
    Trouble w raw e := by
  rw [sized] at h
  split_ifs at h
  split at h
  · cases h
  · rename_i hr
    cases h
    exact .links hr

theorem trouble_of_file {k : Walk} {files : List IgnoreFile} {names : List Name} {e : FindError}
    (h : Step.failed e ∈ k.file files names) : Trouble k.workspace raw e := by
  rw [Walk.file] at h
  split at h
  · cases h
  · split at h
    · rename_i hr
      cases List.mem_singleton.1 h
      exact .links hr
    · split at h
      · cases h
      · exact trouble_of_sized (List.mem_singleton.1 h).symm

theorem trouble_of_walk (ht : w.tree.lawful = true) {p : Pathname} (hp : w.isDirectory p = true)
    {e : FindError} (h : Step.failed e ∈ f.walk w p) : Trouble w raw e := by
  obtain ⟨base, es, hg⟩ := Walk.grounded_of_isDirectory f ht hp
  have hgit {d : Location} {e : FindError}
      (h : readIgnoreFile w (d.path.child gitignoreName) = .error e) : Trouble w raw e :=
    .ignoreFile (.inr (Pathname.name_child _ _)) h
  rcases exists_post_of_mem_walk hg h with ⟨e', he, ho⟩ | ⟨a, -, hs⟩
  · cases he
    cases ho with
    | tool found unread =>
      rw [findIgnoreFile?, Option.map_eq_some_iff] at found
      obtain ⟨d, -, rfl⟩ := found
      exact .ignoreFile (.inl (Pathname.name_child d.path _)) unread
    | git _ _ _ unread => exact hgit unread
  · rw [Walk.stepsAt] at hs
    split at hs
    · rename_i hf
      cases List.mem_singleton.1 hs
      exact hgit (Walk.ignoreFiles_eq_error hf).2
    · rw [Walk.filesIn_eq, List.mem_flatMap] at hs
      obtain ⟨c, -, hs⟩ := hs
      split at hs
      · cases hs
      · exact trouble_of_file hs

/-- A search for a single path fails where the path is not there, or in one of the ways in which the
search for one that is there can fail. -/
theorem failed_mem_stepsOf (ht : w.tree.lawful = true) {e : FindError}
    (h : Step.failed e ∈ f.stepsOf w raw) :
    missing w raw = true ∧ e = .pathNotFound raw ∨ missing w raw = false ∧ Trouble w raw e := by
  rw [stepsOf] at h
  split at h
  · rename_i hfile
    rw [named] at h
    split at h
    · cases h
    · exact .inr ⟨by simp [missing, hfile], trouble_of_sized (List.mem_singleton.1 h).symm⟩
  · rename_i hfile
    split at h
    · rename_i hdir
      exact .inr ⟨by simp [missing, hdir], trouble_of_walk ht hdir h⟩
    · rename_i hdir
      split at h
      · rename_i hwild
        refine .inr ⟨by simp [missing, hwild], ?_⟩
        rw [expand] at h
        split at h
        · rename_i hglob
          cases List.mem_singleton.1 h
          exact .wildcards hwild hglob
        · obtain ⟨q, -, hq⟩ := List.mem_map.1 h
          exact trouble_of_sized hq
      · rename_i hwild
        cases List.mem_singleton.1 h
        exact .inl ⟨by simp [missing, hfile, hdir, hwild], rfl⟩

theorem stepsOf_of_missing (h : missing w raw = true) :
    f.stepsOf w raw = [.failed (.pathNotFound raw)] := by
  simp only [missing, Bool.and_eq_true, Bool.not_eq_true'] at h
  simp [stepsOf, h.1.1, h.1.2, h.2]

theorem exists_find_iff : (∃ ls, (f.find w raws).result = .ok ls) ↔
    ∃ ks, Step.settle (raws.flatMap (f.stepsOf w)) = .ok ks := by
  rw [find, result_findings]
  cases Step.settle (raws.flatMap (f.stepsOf w)) <;> simp [Except.map]

theorem find_eq_error_iff {e : FindError} : (f.find w raws).result = .error e ↔
    Step.settle (raws.flatMap (f.stepsOf w)) = .error e := by
  rw [find, result_findings]
  cases Step.settle (raws.flatMap (f.stepsOf w)) <;> simp [Except.map]

theorem exists_find_singleton_iff : (∃ ks, (f.find w [raw]).result = .ok ks) ↔
    ∃ ks, Step.settle (f.stepsOf w raw) = .ok ks := by
  rw [exists_find_iff, List.flatMap_singleton]

theorem find_singleton_eq_error_iff {e : FindError} : (f.find w [raw]).result = .error e ↔
    Step.settle (f.stepsOf w raw) = .error e := by
  rw [find_eq_error_iff, List.flatMap_singleton]

theorem exists_find_iff_singletons : (∃ ls, (f.find w raws).result = .ok ls) ↔
    ∀ raw ∈ raws, ∃ ks, (f.find w [raw]).result = .ok ks := by
  rw [exists_find_iff]
  simp only [exists_find_singleton_iff, Step.settle_eq_ok_iff, List.mem_flatMap, not_exists,
    not_and]
  exact ⟨fun h raw hraw e => h e raw hraw, fun h e raw hraw => h raw hraw e⟩

theorem find_eq_error_iff_singletons {e : FindError} : (f.find w raws).result = .error e ↔
    ∃ before raw after, raws = before ++ raw :: after ∧
      (∀ r ∈ before, ∃ ks, (f.find w [r]).result = .ok ks) ∧
      (f.find w [raw]).result = .error e := by
  simp only [find_eq_error_iff, Step.settle_flatMap_eq_error, exists_find_singleton_iff,
    List.flatMap_singleton]

theorem mem_find_iff_singletons {ls : List Location} (h : (f.find w raws).result = .ok ls)
    {l : Location} :
    l ∈ ls ↔ ∃ raw ∈ raws, ∃ ks, (f.find w [raw]).result = .ok ks ∧ l ∈ ks := by
  rw [mem_find h]
  refine exists_congr fun raw => and_congr_right fun hraw => ?_
  obtain ⟨ks, hks⟩ := exists_find_iff_singletons.1 ⟨ls, h⟩ raw hraw
  have hsingle : l ∈ ks ↔ Step.found l ∈ f.stepsOf w raw := by
    rw [mem_find hks]
    simp
  rw [← hsingle]
  refine ⟨fun hl => ⟨ks, hks, hl⟩, fun ⟨ks', hks', hl⟩ => ?_⟩
  cases hks.symm.trans hks'
  exact hl

theorem pairwise_find {ls : List Location} (h : (f.find w raws).result = .ok ls) :
    ls.Pairwise (· < ·) := by
  obtain ⟨ks, -, rfl⟩ := settle_of_find h
  exact Location.pairwise_sorted ks

theorem find_congr {ls : List Location} (h : (f.find w raws).result = .ok ls)
    {raws' : List (List Char)} (hr : ∀ raw, raw ∈ raws' ↔ raw ∈ raws) :
    (f.find w raws').result = .ok ls := by
  have heach := exists_find_iff_singletons.1 ⟨ls, h⟩
  obtain ⟨ls', h'⟩ := exists_find_iff_singletons.2 fun raw hraw => heach raw ((hr raw).1 hraw)
  rw [h', Except.ok.injEq]
  refine (pairwise_find h').eq_of_mem_iff (pairwise_find h) fun l => ?_
  simp only [mem_find h', mem_find h, hr]

theorem find_singleton_eq_pathNotFound_iff (ht : w.tree.lawful = true) {q : List Char} :
    (f.find w [raw]).result = .error (.pathNotFound q) ↔ missing w raw = true ∧ q = raw := by
  rw [find_singleton_eq_error_iff]
  constructor
  · intro h
    rcases failed_mem_stepsOf ht (Step.failed_of_settle h) with ⟨hm, hq⟩ | ⟨-, htrouble⟩
    · cases hq
      exact ⟨hm, rfl⟩
    · exact absurd htrouble Trouble.not_pathNotFound
  · rintro ⟨hm, rfl⟩
    rw [stepsOf_of_missing hm]
    rfl

/-- What a new finder answers. -/
def answer (f : Finder) (w : Workspace) (raws : List (List Char)) :
    Except FindError (List Location) := (f.call w [] raws).1.result

theorem answer_eq (f : Finder) (ht : w.tree.lawful = true) (raws : List (List Char)) :
    f.answer w raws = (f.find w raws).result := by
  obtain ⟨memory, -, h⟩ := f.call_eq ht (Memory.faithful_nil w) raws
  rw [answer, h]

def linked : Workspace where
  tree := .directory [("d".toList, .directory [(".gitignore".toList, fileOf "b.erb"),
      ("a.erb".toList, fileOf "a"), ("b.erb".toList, fileOf "b")]),
    ("l".toList, .link "d".toList)]

def looped : Workspace where
  tree := .directory [("d".toList, .directory [("a.erb".toList, .link "a.erb".toList)])]

end Finder

end Discovery

end ErbLayout
