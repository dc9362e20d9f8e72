import ErbLayout.Proofs.Template.Balance
/-!
Runs with a reformatter that may fail. Such a run goes the way of one whose reformatter leaves code
as it is where the first one fails, up to the first failure, which ends it. Whether a template is
refused, and for what, does not depend on the reformatter.
-/

namespace ErbLayout.Template

open Markup Placeholder
open Text (Found)

/-- A reformatter that leaves code as it is where another one fails. -/
def mended (reformatter : Ruby.Reformatter) : Ruby.Reformatter := fun code width =>
  match (reformatter code width).result with
  | .ok _ => reformatter code width
  | .error _ => Ruby.passThrough code width

theorem mended_of_ok {reformatter : Ruby.Reformatter} {code result : List Char} {width : Int}
    (h : (reformatter code width).result = .ok result) :
    mended reformatter code width = reformatter code width := by
  rw [mended, h]

theorem total_mended (reformatter : Ruby.Reformatter) : Total (mended reformatter) := by
  intro code width
  rw [mended]
  cases h : (reformatter code width).result with
  | ok result => exact ⟨result, h⟩
  | error e => exact ⟨code, rfl⟩

def Job.mended (j : Job) : Job :=
  { j with style := { j.style with reformatter := Template.mended j.style.reformatter } }

/-- A step ends with a failure of the reformatter, which was called last. -/
def Blames {α : Type} (j : Job) (out : Except Halt α) : Prop :=
  ∃ r e code width, out = .error ⟨r, .reformatter e⟩ ∧ r.calls.getLast? = some (code, width) ∧
    (j.style.reformatter code width).result = .error e

/-- A step does what another one does, or ends with a failure of the reformatter. -/
def Keeps {α : Type} (j : Job) (out out' : Except Halt α) : Prop := out = out' ∨ Blames j out

theorem Keeps.bind {α β : Type} {j : Job} {out out' : Except Halt α} {next next' : α → Except Halt β}
    (h : Keeps j out out') (hnext : ∀ x, Keeps j (next x) (next' x)) :
    Keeps j (out >>= next) (out' >>= next') := by
  rcases h with rfl | ⟨r, e, code, width, rfl, hcall, hfail⟩
  · cases out with
    | ok x => exact hnext x
    | error halt => exact .inl rfl
  · exact .inr ⟨r, e, code, width, rfl, hcall, hfail⟩

namespace Job

variable (j : Job)

theorem reformat_keeps (r : Run) (code suffix : List Char) :
    Keeps j (j.reformat r code suffix) (j.mended.reformat r code suffix) := by
  cases h : (j.style.reformatter (code ++ suffix) (j.codeWidth r)).result with
  | ok result =>
    refine .inl ?_
    have hreply : Ruby.reformat j.mended.style.reformatter code suffix (j.mended.codeWidth r) =
        Ruby.reformat j.style.reformatter code suffix (j.codeWidth r) := by
      unfold Ruby.reformat
      rw [show j.mended.style.reformatter (code ++ suffix) (j.mended.codeWidth r) =
        j.style.reformatter (code ++ suffix) (j.codeWidth r) from mended_of_ok h]
    simp only [reformat, hreply]
    rfl
  | error e =>
    have hreply : (Ruby.reformat j.style.reformatter code suffix (j.codeWidth r)).result =
        .error e := by
      simp only [Ruby.reformat, h]
    obtain ⟨r', hout, hcall⟩ : ∃ r', j.reformat r code suffix = .error ⟨r', .reformatter e⟩ ∧
        r'.calls.getLast? = some (code ++ suffix, j.codeWidth r) := by
      simp only [reformat, hreply]
      exact ⟨_, rfl, by simp [Run.note]⟩
    exact .inr ⟨r', e, code ++ suffix, j.codeWidth r, hout, hcall, h⟩

theorem codeTag_keeps (r : Run) (text : List Char) (offset : Nat) :
    Keeps j (j.codeTag r text offset) (j.mended.codeTag r text offset) := by
  unfold codeTag
  cases Erb.Tag.split? text with
  | none => exact .inl rfl
  | some tag =>
    have hsame : Ruby.classify j.mended.style.checker tag.code =
        Ruby.classify j.style.checker tag.code := rfl
    simp only [hsame]
    split
    · exact .inl rfl
    cases Ruby.classify j.style.checker tag.code with
    | close | elseLike => exact .inl rfl
    | blockOpen => exact (j.reformat_keeps _ _ _).bind fun _ => .inl rfl
    | standalone => exact (j.reformat_keeps _ _ _).bind fun _ => .inl rfl

theorem gapFrom_keeps (cur : List Char) (offset : Nat) (fs : List (Found (Name × List Char)))
    (r : Run) : Keeps j (j.gapFrom cur offset fs r) (j.mended.gapFrom cur offset fs r) := by
  induction fs generalizing cur offset r with
  | nil => exact .inl rfl
  | cons f fs ih =>
    cases f with
    | char c => exact ih _ _ _
    | value e => exact (j.codeTag_keeps _ e.2 offset).bind fun r' => ih _ _ r'

theorem gap_keeps (r : Run) (text : List Char) (offset : Nat) :
    Keeps j (j.gap r text offset) (j.mended.gap r text offset) := by
  unfold gap
  split
  · exact .inl rfl
  · split
    · exact .inl rfl
    · exact j.gapFrom_keeps _ _ _ r

theorem pieces_keeps (offset : Nat) (ps : List Piece) (r : Run) :
    Keeps j (j.pieces offset ps r) (j.mended.pieces offset ps r) := by
  induction ps generalizing offset r with
  | nil => exact .inl rfl
  | cons p ps ih =>
    have hpiece : Keeps j (j.piece r offset p) (j.mended.piece r offset p) := by
      cases p with
      | gap text => exact j.gap_keeps r text offset
      | token t => cases t <;> exact .inl rfl
      | rawText name content closeTag => exact .inl rfl
    exact hpiece.bind fun r' => ih _ r'

theorem run_keeps : Keeps j j.run j.mended.run := j.pieces_keeps 0 _ j.start

end Job

/-- Two results that differ at most in the text that was written: both are a text, or both are a
fault with the same message at the same place. -/
inductive SameVerdict : Except Failure (List Char) → Except Failure (List Char) → Prop
  | accepted (t t' : List Char) : SameVerdict (.ok t) (.ok t')
  | refused {f f' : Fault} (kind : f'.kind = f.kind) (message : f'.message = f.message)
      (filename : f'.filename = f.filename) (line : f'.line = f.line) (frame : f'.frame = f.frame)
      (depth : f'.stack.length = f.stack.length) :
      SameVerdict (.error (.fault f)) (.error (.fault f'))

/-- Which reformatter a run has does not matter for its verdict, as long as none fails. -/
theorem sameVerdict_of_total (style : Style) {reformatter reformatter' : Ruby.Reformatter}
    (h : Total reformatter) (h' : Total reformatter') (names : Names) (source : List Char) :
    SameVerdict (format { style with reformatter := reformatter } names source)
      (format { style with reformatter := reformatter' } names source) := by
  have hagree := Job.run_agrees { style with reformatter := reformatter } names source h
  have hagree' := Job.run_agrees { style with reformatter := reformatter' } names source h'
  rw [format, format, report, report]
  cases hv : verdict style.checker (protect names source) with
  | ok stack =>
    rw [hv] at hagree hagree'
    obtain ⟨r, hr, -⟩ := hagree
    obtain ⟨r', hr', -⟩ := hagree'
    simp only [hr, hr']
    exact .accepted _ _
  | error v =>
    rw [hv] at hagree hagree'
    obtain ⟨r, hr, hs⟩ := hagree
    obtain ⟨r', hr', hs'⟩ := hagree'
    simp only [hr, hr', Job.failure]
    exact .refused rfl rfl rfl rfl (hs'.top_label.trans hs.top_label.symm)
      (hs'.length_dump.trans hs.length_dump.symm)

/-- A failure of the reformatter on its last call ends the run, or the run comes out as with a
reformatter that leaves code as it is. -/
theorem format_blames_or_same (style : Style) (names : Names) (source : List Char) :
    (∃ code width e, (report style names source).calls.getLast? = some (code, width) ∧
        (style.reformatter code width).result = .error e ∧
        format style names source = .error (.reformatter e)) ∨
      SameVerdict (format style names source)
        (format { style with reformatter := Ruby.passThrough } names source) := by
  rcases Job.run_keeps ⟨style, protect names source⟩ with
    hrun | ⟨r, e, code, width, hrun, hcall, hfail⟩
  · have hsame : format style names source =
        format { style with reformatter := mended style.reformatter } names source := by
      rw [format, format, report, report]
      simp only [hrun]
      rfl
    rw [hsame]
    exact .inr (sameVerdict_of_total style (total_mended _) total_passThrough names source)
  · refine .inl ⟨code, width, e, ?_, hfail, ?_⟩
    · simp only [report, hrun]
      exact hcall
    · simp only [format, report, hrun, Job.failure]

end ErbLayout.Template
