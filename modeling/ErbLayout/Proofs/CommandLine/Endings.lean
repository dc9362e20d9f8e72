import ErbLayout.Proofs.CommandLine.Stages
/-!
How runs end. A run answers with a status unless one of four steps fails before the first template
is laid out; the status for an error comes with a message about it.
-/

namespace ErbLayout

namespace Batch.Mode

/-- The problem, other than a fault of a template, at which a run over these files stops. -/
def problem? (m : Mode) : Session → List (List Char) → Option Problem
  | _, [] => none
  | s, path :: paths =>
    match m.runFile s path with
    | (.ok _, s) => m.problem? { s with log := [] } paths
    | (.error (.template (.fault _)), s) => m.problem? { s with log := [] } paths
    | (.error e, _) => some e

variable {m : Mode} {s s' : Session} {path : List Char} {paths : List (List Char)}

theorem problem?_of_ok {changed : Bool} (h : m.runFile s path = (.ok changed, s')) :
    m.problem? s (path :: paths) = m.problem? { s' with log := [] } paths := by
  rw [problem?, h]

theorem problem?_of_fault {f : Template.Fault}
    (h : m.runFile s path = (.error (.template (.fault f)), s')) :
    m.problem? s (path :: paths) = m.problem? { s' with log := [] } paths := by
  rw [problem?, h]

theorem problem?_of_stop {e : Problem} (h : m.runFile s path = (.error e, s'))
    (he : ∀ f, e ≠ .template (.fault f)) : m.problem? s (path :: paths) = some e := by
  rw [problem?, h]
  cases e with
  | template f =>
    cases f with
    | fault f => exact absurd rfl (he f)
    | _ => rfl
  | _ => rfl

end Batch.Mode

namespace CommandLine

open Files

namespace Progress

/-- A run over its templates stops at the first problem, of which it says what it is. -/
theorem layOut_problem (m : Batch.Mode) (verbose : Bool) (p : Progress)
    (files : List (List Char)) :
    match m.problem? p.session files with
    | none => (layOut m verbose p files).2 = true
    | some e => (layOut m verbose p files).2 = false ∧
        ∃ shown, (layOut m verbose p files).1.errors = shown ++ errorLine e.message := by
  induction files generalizing p with
  | nil => rfl
  | cons path paths ih =>
    cases hr : m.runFile p.session path with
    | mk result session =>
      cases result with
      | ok changed =>
        rw [Batch.Mode.problem?_of_ok hr, layOut_of_ok hr, ← p.laidOut_session verbose]
        exact ih _
      | error e =>
        by_cases he : ∃ f, e = .template (.fault f)
        · obtain ⟨f, rfl⟩ := he
          rw [Batch.Mode.problem?_of_fault hr, layOut_of_fault hr, ← p.faulty_session verbose]
          exact ih _
        · have he : ∀ f, e ≠ .template (.fault f) := fun f h => he ⟨f, h⟩
          rw [Batch.Mode.problem?_of_stop hr he, layOut_of_stop hr he]
          exact ⟨rfl, _, rfl⟩

end Progress

namespace World

variable {world : World} {o : Options}

/-- Where a run begins with its templates. -/
def session (world : World) : Batch.Session :=
  { workspace := world.workspace, input := world.input, names := world.names }

/-- The failures that end a run without a status: of its config file, of its search, apart from a
path at which there is nothing, and of its reformatter. -/
inductive Escapes (world : World) (o : Options) : RunError → Prop
  | config {e} : o.version = false → o.files ≠ [] →
      (configure world.workspace o).result = .error e → Escapes world o (.config e)
  | search {o' e} : o.version = false → o.files ≠ [] →
      (configure world.workspace o).result = .ok o' →
      (resolveFiles world.workspace o').result = .error e →
      (∀ path, e ≠ .find (.pathNotFound path)) → Escapes world o e
  | reformatter {s e} : world.selectFor? o = some s → s.options.listFiles = false →
      ¬ s.Collides → s.options.reformatter world.host = .error e →
      Escapes world o (.reformatter e)

/-- What a run says before it ends with the status for an error. -/
inductive Complains (world : World) (o : Options) : List Char → Prop
  | noOperands : o.version = false → o.files = [] → Complains world o (lineOf noInput)
  | notFound {o' path} : o.version = false → o.files ≠ [] →
      (configure world.workspace o).result = .ok o' →
      (resolveFiles world.workspace o').result = .error (.find (.pathNotFound path)) →
      Complains world o (errorLine (Discovery.FindError.pathNotFound path).message)
  | severalToOne {s} : world.selectFor? o = some s → s.options.listFiles = false → s.Collides →
      Complains world o (errorLine Batch.Problem.severalToOne.message)
  | problem {s reformatter width e} : world.selectFor? o = some s →
      s.options.listFiles = false → ¬ s.Collides →
      s.options.reformatter world.host = .ok reformatter → s.options.width = .ok width →
      (s.mode width reformatter).problem? world.session s.files = some e →
      Complains world o (errorLine e.message)

theorem runOptions_of_escapes {e : RunError} (h : world.Escapes o e) :
    (world.runOptions o).ending = .failed e := by
  cases h with
  | config hv hf hc =>
    simp [runOptions, hv, hf, hc, stop]
  | search hv hf hc hr he =>
    simp only [runOptions, hv, hf, hc, process, hr, List.isEmpty_iff, Bool.false_eq_true, if_false]
    rfl
  | reformatter hs hl hn hr =>
    obtain ⟨shown, h⟩ := world.runOptions_of_select hs
    rw [h, hl]
    simp [hn, layOut, hr, stop]

/-- A run over its templates, once there is a width and a reformatter. -/
theorem layOut_eq {s : Selection} {reformatter : Ruby.Reformatter} {width : Int}
    (hr : s.options.reformatter world.host = .ok reformatter) (hw : s.options.width = .ok width)
    (shown : List Char) :
    world.layOut s.options s.files shown =
      let r := Progress.layOut (s.mode width reformatter) s.options.verbose
        { session := world.session, errors := shown } s.files
      r.1.outcome s.options.check r.2 := by
  rw [layOut, hr]
  dsimp only
  rw [hw]
  rfl

theorem runOptions_of_complains {m : List Char} (h : world.Complains o m) :
    (world.runOptions o).ending = .status statusError ∧
      ∃ shown, (world.runOptions o).errors = shown ++ m := by
  cases h with
  | noOperands hv hf =>
    rw [runOptions]
    simp only [hv, hf, Bool.false_eq_true, if_false, List.isEmpty_nil, if_true]
    exact ⟨rfl, [], (List.nil_append _).symm⟩
  | notFound hv hf hc hr =>
    simp only [runOptions, hv, hf, hc, process, hr, List.isEmpty_iff, Bool.false_eq_true, if_false]
    exact ⟨rfl, _, rfl⟩
  | severalToOne hs hl hn =>
    obtain ⟨shown, h⟩ := world.runOptions_of_select hs
    rw [h, hl]
    simp only [Bool.false_eq_true, if_false, if_pos hn]
    exact ⟨rfl, _, rfl⟩
  | @problem s reformatter width e hs hl hn hr hw he =>
    obtain ⟨shown, h⟩ := world.runOptions_of_select hs
    have hp := Progress.layOut_problem (s.mode width reformatter) s.options.verbose
      { session := world.session, errors := shown } s.files
    rw [he] at hp
    obtain ⟨hstop, before, herr⟩ := hp
    simp only [h, hl, Bool.false_eq_true, if_false, if_neg hn, layOut_eq hr hw, hstop]
    exact ⟨Progress.outcome_ending _ _ _, before,
      (Progress.outcome_errors_of_stop _ _).trans herr⟩

/-- How a run ends: without a status, at one of the steps that escape or for want of a width; with
the status for an error, and a complaint; or with one of the other two. -/
inductive Ends (world : World) (o : Options) : Prop
  | escapes {e} : world.Escapes o e → Ends world o
  | noWidth {s e} : world.selectFor? o = some s → s.options.width = .error e →
      (world.runOptions o).ending = .failed (.mismatch e) → Ends world o
  | complains {m} : world.Complains o m → Ends world o
  | answers : (world.runOptions o).ending = .status statusOk ∨
      (world.runOptions o).ending = .status statusFailed → Ends world o

theorem ends_of_select {s : Selection} (hs : world.selectFor? o = some s) : world.Ends o := by
  obtain ⟨shown, h⟩ := world.runOptions_of_select hs
  cases hl : s.options.listFiles with
  | true => exact .answers (.inl (by rw [h, hl]; rfl))
  | false =>
    by_cases hn : s.Collides
    · exact .complains (.severalToOne hs hl hn)
    · simp only [hl, Bool.false_eq_true, if_false, if_neg hn] at h
      cases hr : s.options.reformatter world.host with
      | error e => exact .escapes (.reformatter hs hl hn hr)
      | ok reformatter =>
        cases hw : s.options.width with
        | error e =>
          cases hf : s.files.isEmpty with
          | true => exact .answers (.inl (by rw [h, layOut, hr, hw]; simp [hf, stop]))
          | false => exact .noWidth hs hw (by rw [h, layOut, hr, hw]; simp [hf, stop])
        | ok width =>
          rw [layOut_eq hr hw] at h
          have hp := Progress.layOut_problem (s.mode width reformatter) s.options.verbose
            { session := world.session, errors := shown } s.files
          cases he : (s.mode width reformatter).problem? world.session s.files with
          | some e => exact .complains (.problem hs hl hn hr hw he)
          | none =>
            rw [he] at hp
            dsimp only at h hp
            rw [hp] at h
            refine .answers ?_
            rw [h, Progress.outcome_ending]
            simp only [Bool.not_true, Bool.false_eq_true, if_false]
            split
            · exact .inr rfl
            · exact .inl rfl

theorem ends (world : World) (o : Options) : world.Ends o := by
  cases hv : o.version with
  | true => exact .answers (.inl (by simp [runOptions, hv, stop]))
  | false =>
    by_cases hf : o.files = []
    · exact .complains (.noOperands hv hf)
    · cases hc : (configure world.workspace o).result with
      | error e => exact .escapes (.config hv hf hc)
      | ok o' =>
        cases hr : (resolveFiles world.workspace o').result with
        | error e =>
          by_cases he : ∃ path, e = .find (.pathNotFound path)
          · obtain ⟨path, rfl⟩ := he
            exact .complains (.notFound hv hf hc hr)
          · exact .escapes (.search hv hf hc hr fun path h => he ⟨path, h⟩)
        | ok files =>
          exact ends_of_select (s := ⟨o', files⟩) (by simp [selectFor?, hv, hf, hc, hr])

/-- A directory with one template. -/
def single : World where
  workspace := ⟨.directory [("a.erb".toList, .file [])], []⟩
  names := ⟨fun n => BitVec.ofNat 128 n, 0, 1⟩
  host := fun _ _ => .error .notFound

/-- A reformatter without a word. -/
def wordless : List Argument := ["--reformatter".toList, " ".toList, "a.erb".toList]

theorem single_wordless :
    (single.run wordless).ending = .failed (.reformatter (.command .empty)) := by decide +kernel

end World

end CommandLine

end ErbLayout
