import ErbLayout.Proofs.Batch.Rewriting
import ErbLayout.Proofs.CommandLine.Endings
/-!
A run over its templates file by file. What becomes of each is told by what the files hold before
the run: the ones that change are rewritten, a fault keeps nothing else from its layout, and the
status tells what happened.
-/

namespace ErbLayout.CommandLine

open Batch (Ledger Mode Session Verdict)
open Files Text

/-- That the verdicts on the files to come stay what they were before the first of them was laid
out, whatever is recorded. -/
structure Steady (m : Mode) (w₀ : Workspace) (state : List (List Char) → Workspace → Prop) :
    Prop where
  verdict : ∀ {path paths w} names, state (path :: paths) w →
    m.verdict w names path = m.verdict w₀ names path
  record : ∀ {path paths w} names, state (path :: paths) w →
    state paths (m.record w (path, (m.verdict w₀ names path).1))

section Steady

variable {m : Mode} {w₀ : Workspace}

/-- Nothing is written by a check, nor by a run that writes to the output. -/
theorem steady_of_silent (h : m.check = true ∨ m.inplace = false ∧ m.output = Batch.marker) :
    Steady m w₀ fun _ w => w = w₀ := by
  have hrecord (w : Workspace) (e : List Char × Verdict) : m.record w e = w := by
    obtain ⟨path, v⟩ := e
    cases v with
    | laidOut content text layout =>
      rcases h with hc | ⟨hi, ho⟩
      · exact Mode.record_of_check hc w _
      · by_cases hc : m.check = true
        · exact Mode.record_of_check hc w _
        · simp [Mode.record, Mode.written, Mode.target?, hi, ho]
    | _ => rfl
  exact ⟨fun _ hw => by rw [hw], fun _ hw => by rw [hrecord, hw]⟩

/-- A run over one template has nothing to disturb. -/
theorem steady_of_single : Steady m w₀ fun paths w =>
    paths = [] ∨ w = w₀ ∧ paths.length = 1 where
  verdict _ hw := by
    rcases hw with h | ⟨rfl, -⟩
    · cases h
    · rfl
  record _ hw := by
    rcases hw with h | ⟨-, h⟩
    · cases h
    · exact .inl (List.length_eq_zero_iff.1 (by simpa using h))

theorem steady_of_inplace (hi : m.inplace = true) (hc : m.check = false) :
    Steady m w₀ (m.Under w₀) where
  verdict names hw := hw.verdict_eq hi hc names
  record _ hw := (hw.record_spec hi hc rfl).1

/-- Whatever the mode, there is such a state at the start of a run over files that are in order. -/
theorem exists_steady {paths : List (List Char)} (ho : Batch.Orderly w₀ m paths)
    (hs : ¬ (paths.length > 1 ∧ m.inplace = false ∧ m.check = false ∧ m.output ≠ Batch.marker)) :
    ∃ state, Steady m w₀ state ∧ state paths w₀ := by
  by_cases hsilent : m.check = true ∨ m.inplace = false ∧ m.output = Batch.marker
  · exact ⟨_, steady_of_silent hsilent, rfl⟩
  · obtain ⟨hc, hi⟩ := not_or.1 hsilent
    have hc : m.check = false := by simpa using hc
    cases hin : m.inplace with
    | true =>
      exact ⟨_, steady_of_inplace hin hc, .start ho⟩
    | false =>
      have hout : m.output ≠ Batch.marker := fun h => hi ⟨hin, h⟩
      have hlen : ¬ paths.length > 1 := fun h => hs ⟨h, hin, hc, hout⟩
      refine ⟨_, steady_of_single, ?_⟩
      cases paths with
      | nil => exact .inl rfl
      | cons path paths => exact .inr ⟨rfl, by simp at hlen; simp [hlen]⟩

end Steady

namespace Progress

/-- What a run over its templates leaves behind, by the ledger of its files. -/
structure Follows (m : Mode) (p : Progress) (entries : Ledger) (r : Progress × Bool) : Prop where
  completed : r.2 = !entries.any (·.2.isStop)
  workspace : r.1.session.workspace = entries.foldl m.record p.session.workspace
  output : r.1.session.output = p.session.output ++ entries.flatMap m.adds
  failed : r.1.failed = (p.failed || entries.any (·.2.isFaulty))
  changed : r.1.changed = p.changed ++ (entries.filter (·.2.changes)).map Prod.fst

theorem layOut_follows {m : Mode} {w₀ : Workspace} {state : List (List Char) → Workspace → Prop}
    (hs : Steady m w₀ state) (verbose : Bool) {p : Progress} {paths : List (List Char)}
    (hp : state paths p.session.workspace) (hm : Batch.marker ∉ paths) :
    Follows m p (m.ledger w₀ p.session.names paths) (layOut m verbose p paths) := by
  induction paths generalizing p with
  | nil => constructor <;> simp [Mode.ledger, layOut]
  | cons path paths ih =>
    have hpath : path ≠ Batch.marker := fun h => hm (h ▸ List.mem_cons_self)
    have hrest : Batch.marker ∉ paths := fun h => hm (List.mem_cons_of_mem _ h)
    have hcomes := m.runFile_comesTo p.session hpath
    have hrecord := hs.record p.session.names hp
    rw [hs.verdict _ hp] at hcomes
    rw [Mode.ledger_cons]
    generalize m.verdict w₀ p.session.names path = verdict at hcomes hrecord
    obtain ⟨v, names⟩ := verdict
    cases v with
    | stopped =>
      obtain ⟨⟨e, he, hne⟩, hw, hout⟩ := hcomes
      rw [layOut_of_stop (Prod.ext he rfl) hne]
      constructor <;> simp [Verdict.isStop, Verdict.isFaulty, Verdict.changes, Mode.record,
        Mode.adds, hw, hout]
    | faulty f =>
      obtain ⟨log, hr⟩ := hcomes
      have h := ih (p := p.faulty verbose { p.session with names, log } f) hrecord hrest
      rw [layOut_of_fault hr]
      constructor
      · simp [h.completed, Verdict.isStop]
      · simp [h.workspace, Verdict.isStop, Mode.record]
      · simp [h.output, Verdict.isStop, Mode.adds]
      · simp [h.failed, Verdict.isStop, Verdict.isFaulty]
      · simp [h.changed, Verdict.isStop, Verdict.changes]
    | laidOut content text layout =>
      obtain ⟨w, log, hw, hr⟩ := hcomes
      have hrec : m.record p.session.workspace (path, .laidOut content text layout) = w := by
        rw [Mode.record, hw]
      have h := ih (p := p.laidOut verbose
        { p.session with
          workspace := w, names, log, output := p.session.output ++ m.printed layout }
        path (layout != text)) (by simpa [hrec] using hrecord) hrest
      rw [layOut_of_ok hr]
      constructor
      · simp [h.completed, Verdict.isStop]
      · simp [h.workspace, Verdict.isStop, hrec]
      · simp [h.output, Verdict.isStop, Mode.adds]
      · simp [h.failed, Verdict.isStop, Verdict.isFaulty]
      · rw [h.changed]
        cases hch : layout != text <;> simp [Verdict.isStop, Verdict.changes, hch]

end Progress

namespace World

/-- That a run with these arguments lays out the templates of a selection in a mode. -/
structure LaysOut (world : World) (args : List Argument) (s : Selection) (m : Mode) : Prop where
  selected : world.select? args = some s
  unlisted : s.options.listFiles = false
  separate : ¬ s.Collides
  equipped : ∃ reformatter width, s.options.reformatter world.host = .ok reformatter ∧
    s.options.width = .ok width ∧ m = s.mode width reformatter

theorem run_of_laysOut {world : World} {args : List Argument} {s : Selection} {m : Mode}
    (h : world.LaysOut args s m) :
    ∃ shown, world.run args =
      let r := Progress.layOut m s.options.verbose
        { session := world.session, errors := shown } s.files
      r.1.outcome s.options.check r.2 := by
  obtain ⟨reformatter, width, hr, hw, rfl⟩ := h.equipped
  obtain ⟨shown, hrun⟩ := world.run_of_select h.selected
  refine ⟨shown, ?_⟩
  simp only [hrun, h.unlisted, Bool.false_eq_true, if_false, if_neg h.separate]
  exact layOut_eq hr hw shown

/-- What a run leaves behind, by the ledger of its templates. A check changes no file and prints
nothing. In place, a template that changes is rewritten, what it held is its backup, and no other
file changes. A fault leaves the verdicts on the other templates as they are without it; a problem
of another kind is the last verdict and gives the status for an error. Without one, the status tells
whether a template failed or, in a check, would change. -/
structure Accounts (world : World) (m : Mode) (files : List (List Char)) (entries : Ledger)
    (out : Outcome) : Prop where
  check : m.check = true → out.workspace = world.workspace ∧ out.output = []
  rewritten : m.inplace = true → m.check = false → ∀ path content text layout,
    (path, .laidOut content text layout) ∈ entries → layout ≠ text →
      out.workspace.tree.Holds (Batch.placeOf world.workspace path) (encode layout) ∧
        (m.nobackup = false →
          out.workspace.tree.Holds (Batch.backupOf world.workspace path) content)
  untouched : m.inplace = true → m.check = false → ∀ l,
    (∀ e ∈ entries, e.2.changes = true → ¬ m.Touches world.workspace e.1 l) →
      ∀ content, out.workspace.tree.Holds l content ↔ world.workspace.tree.Holds l content
  faults : ∀ before path behind f, files = before ++ path :: behind →
    (path, .faulty f) ∈ entries → ∃ names,
      entries = m.ledger world.workspace world.names before ++
        (path, .faulty f) :: m.ledger world.workspace names behind
  stops : entries.any (·.2.isStop) = true → out.ending = .status statusError ∧
    ∃ before path behind, files = before ++ path :: behind ∧
      entries.map Prod.fst = before ++ [path]
  status : entries.any (·.2.isStop) = false → entries.map Prod.fst = files ∧
    out.ending = .status
      (if entries.any (·.2.isFaulty) || (m.check && entries.any (·.2.changes)) then statusFailed
        else statusOk)

theorem LaysOut.check_eq {world : World} {args : List Argument} {s : Selection} {m : Mode}
    (h : world.LaysOut args s m) : s.options.check = m.check := by
  obtain ⟨reformatter, width, -, -, rfl⟩ := h.equipped
  rfl

theorem LaysOut.alone {world : World} {args : List Argument} {s : Selection} {m : Mode}
    (h : world.LaysOut args s m) :
    ¬ (s.files.length > 1 ∧ m.inplace = false ∧ m.check = false ∧ m.output ≠ Batch.marker) := by
  obtain ⟨reformatter, width, -, -, rfl⟩ := h.equipped
  exact h.separate

/-- Two templates, the first of which has a close tag too many. -/
def mixed : World where
  workspace := ⟨.directory [("bad.erb".toList, .file (encode "</p>".toList)),
    ("good.erb".toList, .file (encode "<p>x</p>".toList))], []⟩
  names := ⟨fun n => BitVec.ofNat 128 n, 0, 1⟩
  host := fun _ _ => .error .notFound

def rewriting : List Argument := ["--inplace".toList, "bad.erb".toList, "good.erb".toList]

def mixedSelection : Selection :=
  ⟨{ files := ["bad.erb".toList, "good.erb".toList], inplace := true },
    ["bad.erb".toList, "good.erb".toList]⟩

def mixedMode : Mode := mixedSelection.mode 80 Ruby.passThrough

theorem mixed_laysOut : mixed.LaysOut rewriting mixedSelection mixedMode :=
  ⟨by rfl, rfl, by decide, Ruby.passThrough, 80, rfl, rfl, rfl⟩

theorem mixed_orderly : Batch.Orderly mixed.workspace mixedMode mixedSelection.files where
  plain := ⟨Node.linkFree_of_linkCount (by decide +kernel), by decide +kernel⟩
  named := by decide +kernel
  apart := by decide +kernel
  noBackup := by decide +kernel
  free _ := by decide +kernel

end World

end ErbLayout.CommandLine
