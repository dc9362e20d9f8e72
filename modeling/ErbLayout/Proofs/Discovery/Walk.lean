import ErbLayout.Proofs.Discovery.Named
import Mathlib.Logic.Relation
import Mathlib.Data.List.Nodup
/-!
The way of a walk through a tree. The directories that it comes to are those that single steps from
a directory to an entry of it lead to, and what it comes upon is what it comes upon in them.
-/

namespace ErbLayout.Discovery

open Files

namespace Step

def location? : Step → Option Location
  | .found l => some l
  | _ => none

def locations (steps : List Step) : List Location := steps.filterMap location?

/-- The locations of what was found before the first failure. -/
def yielded : List Step → List Location
  | [] => []
  | .found l :: steps => l :: yielded steps
  | .tooLarge .. :: steps => yielded steps
  | .failed _ :: _ => []

theorem mem_locations {steps : List Step} {l : Location} :
    l ∈ locations steps ↔ Step.found l ∈ steps := by
  rw [locations, List.mem_filterMap]
  constructor
  · rintro ⟨s, hs, hl⟩
    cases s <;> cases hl
    exact hs
  · exact fun h => ⟨_, h, rfl⟩

theorem locations_append (s t : List Step) : locations (s ++ t) = locations s ++ locations t :=
  List.filterMap_append

theorem locations_flatMap {α : Type} (xs : List α) (f : α → List Step) :
    locations (xs.flatMap f) = xs.flatMap fun x => locations (f x) :=
  List.filterMap_flatMap

theorem yielded_sublist (steps : List Step) : (yielded steps).Sublist (locations steps) := by
  induction steps with
  | nil => exact .slnil
  | cons s steps ih =>
    cases s with
    | found l => exact ih.cons_cons l
    | tooLarge p size => exact ih
    | failed e => exact List.nil_sublist _

theorem found_of_mem_yielded {steps : List Step} {l : Location} (h : l ∈ yielded steps) :
    Step.found l ∈ steps :=
  mem_locations.1 ((yielded_sublist steps).subset h)

theorem settle_of_not_failed {steps : List Step} (h : ∀ e, Step.failed e ∉ steps) :
    settle steps = .ok (yielded steps) := by
  induction steps with
  | nil => rfl
  | cons s steps ih =>
    have ih := ih fun e he => h e (List.mem_cons_of_mem _ he)
    cases s with
    | found l => rw [settle, ih, yielded]; rfl
    | tooLarge p size => exact ih
    | failed e => exact absurd List.mem_cons_self (h e)

theorem failed_of_settle {steps : List Step} {e : FindError} (h : settle steps = .error e) :
    Step.failed e ∈ steps := by
  induction steps with
  | nil => cases h
  | cons s steps ih =>
    cases s with
    | found l =>
      rw [settle] at h
      cases hs : settle steps with
      | ok ls => simp [hs, Except.map] at h
      | error f =>
        simp only [hs, Except.map, Except.error.injEq] at h
        exact List.mem_cons_of_mem _ (ih (h ▸ hs))
    | tooLarge p size => exact List.mem_cons_of_mem _ (ih h)
    | failed f =>
      cases h
      exact List.mem_cons_self

theorem yielded_of_settle {steps : List Step} {ls : List Location} (h : settle steps = .ok ls) :
    yielded steps = ls := by
  have := settle_of_not_failed (not_failed_of_settle h)
  rw [h, Except.ok.injEq] at this
  exact this.symm

end Step

namespace Finder.Walk

variable {k : Walk}

/-- A directory that a walk has come to, with the ignore files that it knows from above. -/
structure Post where
  names : List Name
  entries : Entries
  files : List IgnoreFile

/-- One step down, into a directory that is not skipped. -/
def Enters (k : Walk) (a b : Post) : Prop :=
  k.ignoreFiles a.files a.names = .ok b.files ∧
    ∃ n, b.names = a.names ++ [n] ∧ (n, .directory b.entries) ∈ a.entries ∧
      k.skips b.files b.names = false

abbrev Comes (k : Walk) : Post → Post → Prop := Relation.ReflTransGen k.Enters

/-- What a walk comes upon in a directory itself. -/
def stepsAt (k : Walk) (a : Post) : List Step :=
  match k.ignoreFiles a.files a.names with
  | .error e => [.failed e]
  | .ok files => k.filesIn files a.names a.entries

theorem filesIn_eq (files : List IgnoreFile) (names : List Name) (es : Entries) :
    k.filesIn files names es = es.flatMap fun e =>
      if k.workspace.isDirectory (k.path (names ++ [e.1])) then []
      else k.file files (names ++ [e.1]) := rfl

theorem stepsIn_eq (files : List IgnoreFile) (names : List Name) (es : List (Name × Node)) :
    k.stepsIn files names es = es.flatMap fun e =>
      if k.skips files (names ++ [e.1]) then [] else k.steps files (names ++ [e.1]) e.2 := by
  induction es with
  | nil => rfl
  | cons e es ih => rw [stepsIn, ih, List.flatMap_cons]

section Steps

mutual

theorem mem_steps : ∀ (n : Node) (files : List IgnoreFile) (names : List Name) (s : Step),
    s ∈ k.steps files names n ↔
      ∃ es, n = .directory es ∧ ∃ a, k.Comes ⟨names, es, files⟩ a ∧ s ∈ k.stepsAt a
  | .file _, _, _, _ => by simp [steps]
  | .link _, _, _, _ => by simp [steps]
  | .directory es, files, names, s => by
    rw [steps]
    cases hf : k.ignoreFiles files names with
    | error e =>
      constructor
      · intro h
        exact ⟨es, rfl, _, .refl, by rwa [stepsAt, hf]⟩
      · rintro ⟨es, h, a, ha, hs⟩
        cases h
        rcases ha.cases_head with rfl | ⟨b, hb, -⟩
        · rwa [stepsAt, hf] at hs
        · rw [Enters, hf] at hb
          cases hb.1
    | ok files' =>
      have ih := mem_stepsIn es files' names s
      have hfirst : s ∈ k.filesIn files' names es ↔ s ∈ k.stepsAt ⟨names, es, files⟩ := by
        rw [stepsAt, hf]
      rw [List.mem_append, ih, hfirst]
      -- A way down has no step, or its first step is into an entry.
      constructor
      · rintro (h | ⟨n, es', hm, hk, a, ha, hs⟩)
        · exact ⟨es, rfl, _, .refl, h⟩
        · have hn : k.Enters ⟨names, es, files⟩ ⟨names ++ [n], es', files'⟩ :=
            ⟨hf, n, rfl, hm, hk⟩
          exact ⟨es, rfl, a, ha.head hn, hs⟩
      · rintro ⟨es', h, a, ha, hs⟩
        cases h
        rcases ha.cases_head with rfl | ⟨⟨names', es', files''⟩, ⟨hb, n, hn, hm, hk⟩, ha⟩
        · exact .inl hs
        · rw [hf, Except.ok.injEq] at hb
          subst hb hn
          exact .inr ⟨n, es', hm, hk, a, ha, hs⟩

theorem mem_stepsIn : ∀ (es : List (Name × Node)) (files : List IgnoreFile) (names : List Name)
    (s : Step), s ∈ k.stepsIn files names es ↔
      ∃ n es', (n, .directory es') ∈ es ∧ k.skips files (names ++ [n]) = false ∧
        ∃ a, k.Comes ⟨names ++ [n], es', files⟩ a ∧ s ∈ k.stepsAt a
  | [], _, _, _ => by simp [stepsIn]
  | (n, c) :: es, files, names, s => by
    have hhead := mem_steps c files (names ++ [n]) s
    have htail := mem_stepsIn es files names s
    rw [stepsIn, List.mem_append, htail]
    constructor
    · rintro (h | ⟨m, es', hm, hk, h⟩)
      · split at h
        · cases h
        · rename_i hk
          obtain ⟨es', hc, ha⟩ := hhead.1 h
          exact ⟨n, es', hc ▸ List.mem_cons_self, by simpa using hk, ha⟩
      · exact ⟨m, es', List.mem_cons_of_mem _ hm, hk, h⟩
    · rintro ⟨m, es', hm, hk, h⟩
      rcases List.mem_cons.1 hm with he | hm
      · cases he
        rw [hk, if_neg Bool.false_ne_true]
        exact .inl (hhead.2 ⟨es', rfl, h⟩)
      · exact .inr ⟨m, es', hm, hk, h⟩

end

end Steps

end Finder.Walk

end ErbLayout.Discovery
