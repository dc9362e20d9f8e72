import ErbLayout.Discovery.Find
import Mathlib.Tactic.ByContra
/-!
What a search makes of files that are named. Each is found where its path leads, unless the filters
pass it over.
-/

namespace ErbLayout.Discovery

open Files

namespace Step

theorem mem_of_settle {steps : List Step} {ls : List Location} (h : settle steps = .ok ls)
    {l : Location} : l ∈ ls ↔ Step.found l ∈ steps := by
  induction steps generalizing ls with
  | nil =>
    cases h
    simp
  | cons s steps ih =>
    cases s with
    | failed e => simp [settle] at h
    | tooLarge p size =>
      rw [settle] at h
      simp [ih h]
    | found k =>
      rw [settle] at h
      cases hs : settle steps with
      | error e => simp [hs, Except.map] at h
      | ok ks =>
        simp only [hs, Except.map, Except.ok.injEq] at h
        simp [← h, ih hs]

theorem not_failed_of_settle {steps : List Step} {ls : List Location} (h : settle steps = .ok ls)
    (e : FindError) : Step.failed e ∉ steps := by
  induction steps generalizing ls with
  | nil => simp
  | cons s steps ih =>
    cases s with
    | failed e => simp [settle] at h
    | tooLarge p size =>
      rw [settle] at h
      simp [ih h]
    | found k =>
      rw [settle] at h
      cases hs : settle steps with
      | error e => simp [hs, Except.map] at h
      | ok ks => simp [ih hs]

end Step

namespace Finder

/-- That the filters pass over a file that is named: it is excluded though it is named, or it is
above the limit. -/
def PassesOver (f : Finder) (w : Workspace) (p : Pathname) : Prop :=
  (f.forceExclude = true ∧ f.excludesNamed p = true) ∨
    ∃ content, w.node? p = some (.file content) ∧ f.isTooLarge content.length = true

theorem found_mem_named {f : Finder} {w : Workspace} {p : Pathname} (hp : w.isFile p = true)
    {l : Location} :
    Step.found l ∈ f.named w p ↔ w.resolve p = .ok l ∧ ¬ f.PassesOver w p := by
  obtain ⟨n, hn, hf⟩ : ∃ n, w.node? p = some n ∧ n.isFile = true := by
    simpa [Workspace.isFile, Option.any_eq_true] using hp
  obtain ⟨content, rfl⟩ : ∃ content, n = .file content := by
    cases n with
    | file content => exact ⟨content, rfl⟩
    | _ => simp [Node.isFile] at hf
  have hover : f.PassesOver w p ↔
      (f.forceExclude = true ∧ f.excludesNamed p = true) ∨
        f.isTooLarge content.length = true := by
    simp [PassesOver, hn]
  rw [named, hover]
  cases hx : f.forceExclude && f.excludesNamed p with
  | true => simp [Bool.and_eq_true_iff.1 hx]
  | false =>
    have hx : ¬ (f.forceExclude = true ∧ f.excludesNamed p = true) := by
      simpa [Bool.and_eq_false_iff] using hx
    simp only [Bool.false_eq_true, if_false, List.mem_singleton, hx, false_or, sized, hn,
      Option.isSome_some, Bool.and_true]
    cases f.isTooLarge content.length with
    | true => simp
    | false => cases w.resolve p <;> simp [eq_comm]

theorem result_findings (f : Finder) (paths : Nat) (steps : List Step) :
    (f.findings paths steps).result = (Step.settle steps).map Location.sorted := by
  rw [findings]
  cases Step.settle steps <;> rfl

theorem settle_of_find {f : Finder} {w : Workspace} {raws : List (List Char)} {ls : List Location}
    (h : (f.find w raws).result = .ok ls) :
    ∃ ks, Step.settle (raws.flatMap (f.stepsOf w)) = .ok ks ∧ Location.sorted ks = ls := by
  rw [find, result_findings] at h
  cases hs : Step.settle (raws.flatMap (f.stepsOf w)) with
  | error e => simp [hs, Except.map] at h
  | ok ks => exact ⟨ks, rfl, by simpa [hs, Except.map] using h⟩

theorem mem_find {f : Finder} {w : Workspace} {raws : List (List Char)} {ls : List Location}
    (h : (f.find w raws).result = .ok ls) {l : Location} :
    l ∈ ls ↔ ∃ raw ∈ raws, Step.found l ∈ f.stepsOf w raw := by
  obtain ⟨ks, hs, rfl⟩ := settle_of_find h
  rw [Location.mem_sorted, Step.mem_of_settle hs, List.mem_flatMap]

/-- What a search finds when all of its paths are those of files. -/
theorem mem_find_of_files {f : Finder} {w : Workspace} {raws : List (List Char)}
    {ls : List Location} (h : (f.find w raws).result = .ok ls)
    (hd : ∀ raw ∈ raws, w.isDirectory (Pathname.ofText raw) = false ∧ hasGlobChars raw = false)
    {l : Location} :
    l ∈ ls ↔ ∃ raw ∈ raws, w.resolve (Pathname.ofText raw) = .ok l ∧
      ¬ f.PassesOver w (Pathname.ofText raw) := by
  obtain ⟨ks, hs, -⟩ := settle_of_find h
  rw [mem_find h]
  refine exists_congr fun raw => and_congr_right fun hraw => ?_
  obtain ⟨hdir, hglob⟩ := hd raw hraw
  have hfile : w.isFile (Pathname.ofText raw) = true := by
    by_contra hfile
    refine Step.not_failed_of_settle hs (.pathNotFound raw) (List.mem_flatMap.2 ⟨raw, hraw, ?_⟩)
    simp [stepsOf, hfile, hdir, hglob]
  rw [← found_mem_named hfile, stepsOf]
  simp [hfile]

end Finder

end ErbLayout.Discovery
