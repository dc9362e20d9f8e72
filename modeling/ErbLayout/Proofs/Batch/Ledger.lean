import ErbLayout.Batch
import ErbLayout.Proofs.Files.Way
/-!
What a batch makes of each of its files, told by the bytes that the files hold before the first of
them is laid out: one verdict after another, up to the first problem that stops the batch.
-/

namespace ErbLayout.Batch

open Files Text
open Placeholder (Names)

/-- What becomes of one file: it stops the batch, its template has a fault, or it is laid out. -/
inductive Verdict where
  | stopped
  | faulty (fault : Template.Fault)
  | laidOut (content : Bytes) (text layout : List Char)
  deriving DecidableEq, Repr

namespace Verdict

def isStop : Verdict → Bool
  | stopped => true
  | _ => false

def isFaulty : Verdict → Bool
  | faulty _ => true
  | _ => false

/-- Whether the layout is another text than the file holds. -/
def changes : Verdict → Bool
  | laidOut _ text layout => layout != text
  | _ => false

theorem eq_stopped {v : Verdict} (h : v.isStop = true) : v = stopped := by
  cases v with
  | stopped => rfl
  | _ => cases h

end Verdict

/-- The verdicts on files, from the first on. -/
abbrev Ledger := List (List Char × Verdict)

namespace Mode

/-- The file that a layout goes to, and the suffix of its backup. -/
def target? (m : Mode) (path : List Char) (changed : Bool) :
    Option (List Char × Option (List Char)) :=
  if m.check then none
  else if m.inplace then
    if changed then some (path, if m.nobackup then none else some backupSuffix) else none
  else if m.output == marker then none
  else some (m.output, none)

/-- The files after a layout has gone where it goes. -/
def written (m : Mode) (w : Workspace) (path layout : List Char) (changed : Bool) :
    Except FileError Workspace :=
  match m.target? path changed with
  | none => .ok w
  | some (target, backup) =>
    w.replace (Pathname.ofText target) (encode layout) backup m.makeParents

/-- What a layout adds to the output. -/
def printed (m : Mode) (layout : List Char) : List Char :=
  if m.check || m.inplace || m.output != marker then [] else layout

/-- The verdict on the file at a path, and the names that are left after it. -/
def verdict (m : Mode) (w : Workspace) (names : Names) (path : List Char) : Verdict × Names :=
  match w.read (Pathname.ofText path) with
  | .error _ => (.stopped, names)
  | .ok content =>
    match Session.textOf content with
    | .error _ => (.stopped, names)
    | .ok text =>
      let r := Template.report (m.style path) names text
      match r.result with
      | .error (.fault f) => (.faulty f, r.names)
      | .error _ => (.stopped, r.names)
      | .ok layout =>
        match m.written w path layout (layout != text) with
        | .error _ => (.stopped, r.names)
        | .ok _ => (.laidOut content text layout, r.names)

/-- The verdicts on files, of which one that stops the batch is the last. -/
def ledger (m : Mode) (w : Workspace) : Names → List (List Char) → Ledger
  | _, [] => []
  | names, path :: paths =>
    let (v, names') := m.verdict w names path
    (path, v) :: if v.isStop then [] else m.ledger w names' paths

theorem ledger_cons (m : Mode) (w : Workspace) (names : Names) (path : List Char)
    (paths : List (List Char)) :
    m.ledger w names (path :: paths) = (path, (m.verdict w names path).1) ::
      if (m.verdict w names path).1.isStop then []
      else m.ledger w (m.verdict w names path).2 paths := rfl

/-- Each verdict of a ledger is the one on a file by itself. -/
theorem mem_ledger {m : Mode} {w : Workspace} {names : Names} {paths : List (List Char)}
    {e : List Char × Verdict} (h : e ∈ m.ledger w names paths) :
    e.1 ∈ paths ∧ ∃ names', (m.verdict w names' e.1).1 = e.2 := by
  induction paths generalizing names with
  | nil => cases h
  | cons path paths ih =>
    rw [ledger_cons] at h
    rcases List.mem_cons.1 h with rfl | h
    · exact ⟨List.mem_cons_self, names, rfl⟩
    · split at h
      · cases h
      · exact ⟨List.mem_cons_of_mem _ (ih h).1, (ih h).2⟩

/-- The last file of a ledger is the one that stops the batch, if any does. -/
theorem ledger_files (m : Mode) (w : Workspace) (names : Names) (paths : List (List Char)) :
    if (m.ledger w names paths).any (·.2.isStop) then
      ∃ before path behind, paths = before ++ path :: behind ∧
        (m.ledger w names paths).map Prod.fst = before ++ [path]
    else (m.ledger w names paths).map Prod.fst = paths := by
  induction paths generalizing names with
  | nil => rfl
  | cons path paths ih =>
    rw [ledger_cons]
    cases hstop : (m.verdict w names path).1.isStop with
    | true =>
      simp only [if_true, List.any_cons, hstop, List.any_nil, Bool.or_false]
      exact ⟨[], path, paths, rfl, rfl⟩
    | false =>
      have h := ih (m.verdict w names path).2
      simp only [Bool.false_eq_true, if_false, List.any_cons, hstop, Bool.false_or]
      split at h
      · rename_i hany
        obtain ⟨before, p, behind, hp, hmap⟩ := h
        rw [if_pos hany]
        exact ⟨path :: before, p, behind, by rw [hp]; rfl, by rw [List.map_cons, hmap]; rfl⟩
      · rename_i hany
        rw [if_neg hany, List.map_cons, h]

/-- A file whose template has a fault splits a ledger into those of the files on its sides. -/
theorem ledger_of_faulty {m : Mode} {w : Workspace} {names : Names} {path : List Char}
    {before behind : List (List Char)} {f : Template.Fault} (hp : path ∉ before)
    (hb : path ∉ behind) (h : (path, .faulty f) ∈ m.ledger w names (before ++ path :: behind)) :
    ∃ names', m.ledger w names (before ++ path :: behind) =
      m.ledger w names before ++ (path, .faulty f) :: m.ledger w names' behind := by
  induction before generalizing names with
  | nil =>
    rw [List.nil_append, ledger_cons] at h ⊢
    rcases List.mem_cons.1 h with heq | h
    · have hv : (m.verdict w names path).1 = .faulty f := (congrArg Prod.snd heq).symm
      exact ⟨(m.verdict w names path).2, by simp [hv, Verdict.isStop, ledger]⟩
    · split at h
      · cases h
      · exact absurd (mem_ledger h).1 hb
  | cons p before ih =>
    obtain ⟨hpp, hpb⟩ := not_or.1 (mt List.mem_cons.2 hp)
    rw [List.cons_append, ledger_cons] at h ⊢
    rw [ledger_cons]
    rcases List.mem_cons.1 h with heq | h
    · exact absurd (congrArg Prod.fst heq) hpp
    · split at h
      · cases h
      · rename_i hstop
        obtain ⟨names', hrest⟩ := ih hpb h
        exact ⟨names', by rw [if_neg hstop, if_neg hstop, hrest]; rfl⟩

/-- The files after a verdict. -/
def record (m : Mode) (w : Workspace) : List Char × Verdict → Workspace
  | (path, .laidOut _ text layout) =>
    match m.written w path layout (layout != text) with
    | .ok w => w
    | .error _ => w
  | _ => w

/-- What a verdict adds to the output. -/
def adds (m : Mode) : List Char × Verdict → List Char
  | (_, .laidOut _ _ layout) => m.printed layout
  | _ => []

section Check

variable {m : Mode} (h : m.check = true)

include h

theorem written_of_check (w : Workspace) (path layout : List Char) (changed : Bool) :
    m.written w path layout changed = .ok w := by simp [written, target?, h]

/-- A check writes nothing. -/
theorem record_of_check (w : Workspace) (e : List Char × Verdict) : m.record w e = w := by
  obtain ⟨path, v⟩ := e
  cases v with
  | laidOut content text layout => simp [record, written_of_check h]
  | _ => rfl

theorem foldl_record_of_check (w : Workspace) (entries : Ledger) :
    entries.foldl m.record w = w := by
  induction entries with
  | nil => rfl
  | cons e entries ih => rw [List.foldl_cons, record_of_check h, ih]

theorem adds_of_check (e : List Char × Verdict) : m.adds e = [] := by
  obtain ⟨path, v⟩ := e
  cases v with
  | laidOut content text layout => simp [adds, printed, h]
  | _ => rfl

end Check

/-- The delivery of a layout writes one file at most, and adds to the output. -/
theorem deliver_eq (m : Mode) (s : Session) (path : List Char) (source : Source)
    (layout : List Char) :
    match m.written s.workspace path layout (layout != source.text) with
    | .error e => m.deliver s path source layout = .error (.file e)
    | .ok w => ∃ log, m.deliver s path source layout =
        .ok { s with workspace := w, output := s.output ++ m.printed layout, log } := by
  by_cases hc : m.check = true
  · rw [written_of_check hc]
    exact ⟨_, by simp [deliver, hc, printed, Session.note]; rfl⟩
  · by_cases hi : m.inplace = true
    · by_cases hch : layout = source.text
      · rw [written, target?]
        simp only [hc, hi, hch, bne_self_eq_false, if_true, if_false, Bool.false_eq_true]
        exact ⟨_, by simp [deliver, hc, hi, printed, Session.note]; rfl⟩
      · have hch' : (layout != source.text) = true := by simpa using hch
        rw [written, target?]
        simp only [hc, hi, hch', if_true, if_false, Bool.false_eq_true]
        cases hw : s.workspace.replace (Pathname.ofText path) (encode layout)
            (if m.nobackup = true then none else some backupSuffix) m.makeParents with
        | error e => simp [deliver, hc, hi, hch', Session.write, hw, Except.map]
        | ok w =>
          refine ⟨s.log ++ [⟨.info, "Reformatted".toList ++ ' ' :: source.filename⟩], ?_⟩
          simp [deliver, hc, hi, hch', Session.write, hw, Except.map, Session.note, printed]
    · by_cases ho : m.output = marker
      · rw [written, target?]
        simp only [hc, hi, ho, beq_self_eq_true, if_true, if_false, Bool.false_eq_true]
        exact ⟨_, by simp [deliver, hc, hi, ho, printed]; rfl⟩
      · rw [written, target?]
        simp only [hc, hi, ho, if_false, Bool.false_eq_true, beq_iff_eq]
        cases hw : s.workspace.replace (Pathname.ofText m.output) (encode layout) none
            m.makeParents with
        | error e => simp [deliver, hc, hi, ho, Session.write, hw]
        | ok w =>
          exact ⟨s.log, by simp [deliver, hc, hi, ho, Session.write, hw, printed]⟩

/-- That laying out one file comes to a verdict: a problem stops the batch before anything is
written, a fault leaves the files and the output as they are, and a layout is delivered. -/
def ComesTo (m : Mode) (s : Session) (path : List Char) (r : Except Problem Bool × Session) :
    Verdict × Names → Prop
  | (.stopped, _) =>
    (∃ e, r.1 = .error e ∧ ∀ f, e ≠ .template (.fault f)) ∧
      r.2.workspace = s.workspace ∧ r.2.output = s.output
  | (.faulty f, names) => ∃ log, r = (.error (.template (.fault f)), { s with names, log })
  | (.laidOut _ text layout, names) =>
    ∃ w log, m.written s.workspace path layout (layout != text) = .ok w ∧
      r = (.ok (layout != text),
        { s with workspace := w, names, log, output := s.output ++ m.printed layout })

theorem textOf_ne_fault {content : Bytes} {e : Problem} (h : Session.textOf content = .error e)
    (f : Template.Fault) : e ≠ .template (.fault f) := by
  rw [Session.textOf] at h
  cases hd : decode content with
  | ok text => simp [hd] at h
  | error d =>
    simp only [hd, Except.error.injEq] at h
    simp [← h]

/-- Laying out a file comes to the verdict on it. -/
theorem runFile_comesTo (m : Mode) (s : Session) {path : List Char} (hp : path ≠ marker) :
    m.ComesTo s path (m.runFile s path) (m.verdict s.workspace s.names path) := by
  have hm : (path == marker) = false := by simpa using hp
  rw [verdict, runFile, Session.read]
  simp only [hm, Bool.false_and, Bool.false_eq_true, if_false]
  cases s.workspace.read (Pathname.ofText path) with
  | error e => exact ⟨⟨.file e, rfl, by simp⟩, rfl, rfl⟩
  | ok content =>
    dsimp only
    cases ht : Session.textOf content with
    | error e => exact ⟨⟨e, rfl, fun f => textOf_ne_fault ht f⟩, rfl, rfl⟩
    | ok text =>
      dsimp only [Except.map]
      rw [layOut]
      dsimp only
      cases (Template.report (m.style path) s.names text).result with
      | error f =>
        cases f with
        | fault f => exact ⟨_, rfl⟩
        | reformatter e => exact ⟨⟨_, rfl, by simp⟩, rfl, rfl⟩
        | noErbTag t => exact ⟨⟨_, rfl, by simp⟩, rfl, rfl⟩
      | ok layout =>
        dsimp only
        -- The names are drawn before the layout is delivered, so it is delivered in a later session.
        have delivered := m.deliver_eq
          { s.note (Template.report (m.style path) s.names text).log with
            names := (Template.report (m.style path) s.names text).names } path ⟨path, text⟩ layout
        dsimp only [Session.note] at delivered ⊢
        cases hw : m.written s.workspace path layout (layout != text) with
        | error e =>
          rw [hw] at delivered
          dsimp only at delivered ⊢
          rw [delivered]
          exact ⟨⟨.file e, rfl, by simp⟩, rfl, rfl⟩
        | ok w =>
          rw [hw] at delivered
          obtain ⟨log, delivered⟩ := delivered
          dsimp only at delivered ⊢
          rw [delivered]
          exact ⟨w, log, hw, rfl⟩

end Mode

end ErbLayout.Batch
