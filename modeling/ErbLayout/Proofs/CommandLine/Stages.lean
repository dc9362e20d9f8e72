import Mathlib.Logic.Basic
import ErbLayout.CommandLine.Run
/-!
The stages of a run. A run reads its arguments, then its config file, then finds its templates; what
it does from there on depends on the options and templates that it has selected. Its steps over the
templates are a layout, a fault, after which the run goes on, and any other problem, which stops it.
-/

namespace ErbLayout.CommandLine

open Files

/-- The options of a run with the settings of its config file, and the templates that its operands
lead to. -/
structure Selection where
  options : Options
  files : List (List Char)

namespace Selection

/-- Whether the layouts of several templates would go to one file. -/
def Collides (s : Selection) : Prop :=
  s.files.length > 1 ∧ s.options.inplace = false ∧ s.options.check = false ∧
    s.options.output ≠ Batch.marker

instance (s : Selection) : Decidable s.Collides := inferInstanceAs (Decidable (_ ∧ _))

/-- How the templates are laid out, with a width and a reformatter. -/
def mode (s : Selection) (width : Int) (reformatter : Ruby.Reformatter) : Batch.Mode :=
  { width, output := s.options.output, inplace := s.options.inplace,
    nobackup := s.options.nobackup, check := s.options.check, reformatter }

end Selection

namespace World

variable (world : World)

/-- What a run with these options selects, if it gets past its config file and its search. -/
def selectFor? (o : Options) : Option Selection :=
  if o.version || o.files.isEmpty then none
  else
    match (configure world.workspace o).result with
    | .error _ => none
    | .ok o =>
      match (resolveFiles world.workspace o).result with
      | .error _ => none
      | .ok files => some ⟨o, files⟩

/-- What a run with these arguments selects. -/
def select? (args : List Argument) : Option Selection :=
  match parse args with
  | .error _ => none
  | .ok o => world.selectFor? o

/-- How a run with these options goes on from what it selects. -/
theorem runOptions_of_select {o : Options} {s : Selection} (h : world.selectFor? o = some s) :
    ∃ shown, world.runOptions o =
      if s.options.listFiles then world.stop (.status statusOk) (s.files.flatMap lineOf) shown
      else if s.Collides then
        world.stop (.status statusError) [] (shown ++ errorLine Batch.Problem.severalToOne.message)
      else world.layOut s.options s.files shown := by
  rw [selectFor?] at h
  cases hvf : o.version || o.files.isEmpty with
  | true => simp [hvf] at h
  | false =>
    obtain ⟨hv, hf⟩ := Bool.or_eq_false_iff.1 hvf
    simp only [hvf, Bool.false_eq_true, if_false] at h
    cases hc : (configure world.workspace o).result with
    | error e => simp [hc] at h
    | ok o' =>
      simp only [hc] at h
      cases hr : (resolveFiles world.workspace o').result with
      | error e => simp [hr] at h
      | ok files =>
        simp only [hr, Option.some.injEq] at h
        subst h
        refine ⟨logLines o.verbose (configure world.workspace o).log ++
          logLines o'.verbose (resolveFiles world.workspace o').log, ?_⟩
        simp only [runOptions, process, hv, hf, hc, hr, Bool.false_eq_true, if_false,
          Selection.Collides]
        refine if_congr .rfl rfl (if_congr ?_ rfl rfl)
        simp [and_assoc]

/-- How a run goes on from what it selects. -/
theorem run_of_select {args : List Argument} {s : Selection} (h : world.select? args = some s) :
    ∃ shown, world.run args =
      if s.options.listFiles then world.stop (.status statusOk) (s.files.flatMap lineOf) shown
      else if s.Collides then
        world.stop (.status statusError) [] (shown ++ errorLine Batch.Problem.severalToOne.message)
      else world.layOut s.options s.files shown := by
  rw [select?] at h
  cases hp : parse args with
  | error r => simp [hp] at h
  | ok o =>
    rw [hp] at h
    rw [run, hp]
    exact world.runOptions_of_select h

end World

end ErbLayout.CommandLine

namespace ErbLayout.CommandLine.Progress

open Batch (Mode Problem Session)

variable {m : Mode} {verbose : Bool} {p : Progress} {path : List Char} {paths : List (List Char)}
  {s : Session}

/-- Where a run stands after a layout. -/
def laidOut (p : Progress) (verbose : Bool) (s : Session) (path : List Char) (changed : Bool) :
    Progress :=
  let p := flush { p with session := s } verbose
  if changed then { p with changed := p.changed ++ [path] } else p

/-- Where a run stands after a fault. -/
def faulty (p : Progress) (verbose : Bool) (s : Session) (f : Template.Fault) : Progress :=
  { (flush { p with session := s } verbose).say
      (lineOf (if verbose then f.diagnostics else f.text)) with failed := true }

/-- Where a run stands when it stops. -/
def stopped (p : Progress) (verbose : Bool) (s : Session) (e : Problem) : Progress :=
  (flush { p with session := s } verbose).say (errorLine e.message)

theorem layOut_of_ok {changed : Bool} (h : m.runFile p.session path = (.ok changed, s)) :
    layOut m verbose p (path :: paths) =
      layOut m verbose (p.laidOut verbose s path changed) paths := by
  rw [layOut, h]
  cases changed <;> rfl

theorem layOut_of_fault {f : Template.Fault}
    (h : m.runFile p.session path = (.error (.template (.fault f)), s)) :
    layOut m verbose p (path :: paths) = layOut m verbose (p.faulty verbose s f) paths := by
  rw [layOut, h]
  rfl

theorem layOut_of_stop {e : Problem} (h : m.runFile p.session path = (.error e, s))
    (he : ∀ f, e ≠ .template (.fault f)) :
    layOut m verbose p (path :: paths) = (p.stopped verbose s e, false) := by
  rw [layOut, h]
  cases e with
  | template f =>
    cases f with
    | fault f => exact absurd rfl (he f)
    | _ => rfl
  | _ => rfl

@[simp] theorem laidOut_session (p : Progress) (verbose : Bool) (s : Session) (path : List Char)
    (changed : Bool) : (p.laidOut verbose s path changed).session = { s with log := [] } := by
  cases changed <;> rfl

@[simp] theorem laidOut_failed (p : Progress) (verbose : Bool) (s : Session) (path : List Char)
    (changed : Bool) : (p.laidOut verbose s path changed).failed = p.failed := by
  cases changed <;> rfl

@[simp] theorem laidOut_changed (p : Progress) (verbose : Bool) (s : Session) (path : List Char)
    (changed : Bool) : (p.laidOut verbose s path changed).changed =
      p.changed ++ if changed then [path] else [] := by
  cases changed
  · exact (List.append_nil _).symm
  · rfl

@[simp] theorem faulty_session (p : Progress) (verbose : Bool) (s : Session)
    (f : Template.Fault) : (p.faulty verbose s f).session = { s with log := [] } := rfl

@[simp] theorem faulty_failed (p : Progress) (verbose : Bool) (s : Session)
    (f : Template.Fault) : (p.faulty verbose s f).failed = true := rfl

@[simp] theorem faulty_changed (p : Progress) (verbose : Bool) (s : Session)
    (f : Template.Fault) : (p.faulty verbose s f).changed = p.changed := rfl

@[simp] theorem stopped_session (p : Progress) (verbose : Bool) (s : Session) (e : Problem) :
    (p.stopped verbose s e).session = { s with log := [] } := rfl

@[simp] theorem stopped_failed (p : Progress) (verbose : Bool) (s : Session) (e : Problem) :
    (p.stopped verbose s e).failed = p.failed := rfl

@[simp] theorem stopped_changed (p : Progress) (verbose : Bool) (s : Session) (e : Problem) :
    (p.stopped verbose s e).changed = p.changed := rfl

/-- The status of a run: that it stopped, that a template failed or would change, or that all went
well. -/
theorem outcome_ending (p : Progress) (check completed : Bool) :
    (p.outcome check completed).ending = .status
      (if !completed then statusError
        else if p.failed || (check && !p.changed.isEmpty) then statusFailed
        else statusOk) := by
  cases check <;> cases completed <;> rfl

@[simp] theorem outcome_workspace (p : Progress) (check completed : Bool) :
    (p.outcome check completed).workspace = p.session.workspace := by
  cases check <;> cases completed <;> rfl

@[simp] theorem outcome_output (p : Progress) (check completed : Bool) :
    (p.outcome check completed).output = p.session.output := by
  cases check <;> cases completed <;> rfl

theorem outcome_errors_of_stop (p : Progress) (check : Bool) :
    (p.outcome check false).errors = p.errors := by
  cases check <;> rfl

end ErbLayout.CommandLine.Progress
