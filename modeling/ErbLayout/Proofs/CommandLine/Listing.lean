import ErbLayout.Proofs.CommandLine.Arguments
import ErbLayout.Proofs.CommandLine.Stages
import ErbLayout.Proofs.Discovery.Named
/-!
The list of the templates against the templates that are laid out. As soon as an operand is searched
the two are the same. Operands that only name files are laid out as they are named, past the filters
that the list goes through.
-/

namespace ErbLayout.CommandLine

open Files

/-- That a search by these options goes through these filters. -/
def FindsWith (o : Options) (finder : Discovery.Finder) : Prop :=
  ∃ filters, o.filters = .ok filters ∧ Discovery.Finder.ofFilters filters = .ok finder

/-- A list takes the search, whatever the operands name. -/
theorem resolveFiles_listing {w : Workspace} {o : Options} {files : List (List Char)}
    (h : (resolveFiles w (listing o)).result = .ok files) (hm : Batch.marker ∉ o.files) :
    ∃ finder ls, FindsWith o finder ∧ (finder.find w o.files).result = .ok ls ∧
      files = ls.map Location.text := by
  have hfilter : o.files.filter (· != Batch.marker) = o.files := by
    refine List.filter_eq_self.2 fun f hf => ?_
    simpa using ne_of_mem_of_not_mem hf hm
  have hfilters : (listing o).filters = o.filters := rfl
  rw [resolveFiles, hfilters] at h
  simp only [listing, Bool.not_true, Bool.false_and, Bool.false_eq_true, if_false, hfilter,
    Nat.lt_irrefl] at h
  cases hf : o.filters with
  | error e => simp [hf] at h
  | ok filters =>
    simp only [hf] at h
    cases hfi : Discovery.Finder.ofFilters filters with
    | error e => simp [hfi] at h
    | ok finder =>
      simp only [hfi] at h
      cases hls : (finder.find w o.files).result with
      | error e => simp [hls] at h
      | ok ls =>
        simp only [hls, Except.ok.injEq] at h
        exact ⟨finder, ls, ⟨filters, hf, hfi⟩, hls, h.symm⟩

/-- A run whose operands are searched finds what a list finds. -/
theorem resolveFiles_of_search {w : Workspace} {o : Options}
    (h : o.files.any (isSearch w) = true) : resolveFiles w o = resolveFiles w (listing o) := by
  simp only [resolveFiles, listing, h, Bool.not_true, Bool.and_false]
  rfl

/-- A run whose operands only name files takes them as they are named. -/
theorem resolveFiles_of_named {w : Workspace} {o : Options} (hl : o.listFiles = false)
    (h : o.files.any (isSearch w) = false) : (resolveFiles w o).result = .ok o.files := by
  simp [resolveFiles, hl, h]

namespace World

variable {world : World}

theorem configure_listing (w : Workspace) (o : Options) :
    (configure w (listing o)).result = (configure w o).result.map listing := by
  rw [configure, configure]
  cases (Config.search w w.location).result with
  | error e => rfl
  | ok found =>
    cases found with
    | none => rfl
    | some p =>
      dsimp only
      cases (Config.load w p).result <;> rfl

/-- What a run selects, told by the options that it has after its config file. -/
theorem select_eq_some {args : List Argument} {s : Selection} (h : world.select? args = some s) :
    ∃ o, parse args = .ok o ∧ (o.version || o.files.isEmpty) = false ∧
      (configure world.workspace o).result = .ok s.options ∧
      (resolveFiles world.workspace s.options).result = .ok s.files := by
  rw [select?] at h
  cases hp : parse args with
  | error r => simp [hp] at h
  | ok o =>
    simp only [hp, selectFor?] at h
    cases hvf : o.version || o.files.isEmpty with
    | true => simp [hvf] at h
    | false =>
      simp only [hvf, Bool.false_eq_true, if_false] at h
      cases hc : (configure world.workspace o).result with
      | error e => simp [hc] at h
      | ok o' =>
        simp only [hc] at h
        cases hr : (resolveFiles world.workspace o').result with
        | error e => simp [hr] at h
        | ok files =>
          simp only [hr, Option.some.injEq] at h
          subst h
          exact ⟨o, rfl, hvf, hc, hr⟩

/-- With the flag a run selects by the same options. -/
theorem select_listFlag {args : List Argument} {s t : Selection}
    (hs : world.select? args = some s) (ht : world.select? (listFlag :: args) = some t) :
    t.options = listing s.options := by
  obtain ⟨o, hp, -, hc, -⟩ := select_eq_some hs
  obtain ⟨o', hp', -, hc', -⟩ := select_eq_some ht
  rw [parse_listFlag, hp] at hp'
  cases hp'
  rw [configure_listing, hc] at hc'
  exact (Except.ok.inj hc').symm

/-- A file in a directory that is excluded. -/
def vendored : World where
  workspace := ⟨.directory [("vendor".toList, .directory [("a.erb".toList, .file [])])], []⟩
  names := ⟨fun n => BitVec.ofNat 128 n, 0, 1⟩
  host := fun _ _ => .error .notFound

def excluding : List Argument := ["--force-exclude".toList, "vendor/a.erb".toList]

/-- The file is laid out though the list passes over it. -/
theorem vendored_select :
    ∃ s t, vendored.select? excluding = some s ∧ s.options.listFiles = false ∧
      Batch.marker ∉ s.options.files ∧ vendored.select? (listFlag :: excluding) = some t ∧
      s.files = ["vendor/a.erb".toList] ∧ t.files = [] := by
  have hs : (vendored.select? excluding).map
      (fun s => (s.files, s.options.listFiles, s.options.files)) =
      some (["vendor/a.erb".toList], false, ["vendor/a.erb".toList]) := by decide +kernel
  have ht : (vendored.select? (listFlag :: excluding)).map (·.files) = some [] := by
    decide +kernel
  obtain ⟨s, hs, h⟩ := Option.map_eq_some_iff.1 hs
  obtain ⟨t, ht, hft⟩ := Option.map_eq_some_iff.1 ht
  simp only [Prod.mk.injEq] at h
  obtain ⟨hf, hl, ho⟩ := h
  refine ⟨s, t, hs, hl, ?_, ht, hf, hft⟩
  rw [ho]
  decide

end World

end ErbLayout.CommandLine
