import ErbLayout.CommandLine.Parse
/-!
The flag that asks for a list. Put before other arguments it changes one option and nothing else.
-/

namespace ErbLayout.CommandLine

open Toml (Value)

/-- The flag that asks for a list of the templates. -/
def listFlag : Argument := "--list-files".toList

/-- The options of a run that lists its templates. -/
def listing (o : Options) : Options := { o with listFiles := true }

namespace Use

theorem apply_listing (o : Options) (u : Use) :
    u.apply (listing o) = (u.apply o).map listing := by
  have number_listing (s : Setting) (a : Argument) :
      number (listing o) s a = (number o s a).map listing := by
    rw [number, number]
    cases Text.integer? a <;> rfl
  obtain ⟨flag, value⟩ := u
  cases flag <;> first | rfl | exact number_listing _ _

end Use

namespace Reading

/-- What has been read in a run that lists its templates. -/
def listed (r : Reading) : Reading := { r with options := listing r.options }

theorem foldlM_apply_listing (o : Options) (us : List Use) :
    us.foldlM Use.apply (listing o) = (us.foldlM Use.apply o).map listing := by
  induction us generalizing o with
  | nil => rfl
  | cons u us ih =>
    rw [List.foldlM_cons, List.foldlM_cons, Use.apply_listing]
    cases u.apply o with
    | error e => rfl
    | ok o' => exact ih o'

theorem use_listed (r : Reading) (us : List Use) (leftover : Bool) :
    r.listed.use us leftover = (r.use us leftover).map listed := by
  rw [use, use]
  show (us.foldlM Use.apply (listing r.options) >>= _) = _
  rw [foldlM_apply_listing]
  cases us.foldlM Use.apply r.options <;> rfl

theorem atFlag_listed (r : Reading) : r.listed.atFlag = r.atFlag.listed := by
  obtain ⟨o, operands, leftover⟩ := r
  cases operands <;> rfl

theorem operand_listed (r : Reading) (name : Option Argument) :
    r.listed.operand name = (r.operand name).listed := by
  obtain ⟨o, operands, leftover⟩ := r
  cases operands <;> rfl

/-- The tokens read in the same way whether the templates are listed or not. -/
theorem run_listed (r : Reading) (ts : List Token) :
    r.listed.run ts = (r.run ts).map listed := by
  fun_induction run r ts with
  | case1 r => rfl
  | case2 r s ts ih =>
    rw [run, operand_listed]
    exact ih
  | case3 r ts ih =>
    rw [run, operand_listed]
    exact ih
  | case4 r t ts h₁ h₂ e hu =>
    rw [run.eq_4 _ _ _ h₁ h₂, hu]
    rfl
  | case5 r t ts h₁ h₂ us hu hw e he =>
    rw [run.eq_4 _ _ _ h₁ h₂, hu]
    simp only [hw, atFlag_listed, use_listed, he]
    rfl
  | case6 r t ts h₁ h₂ us hu hw r' hr ih =>
    rw [run.eq_4 _ _ _ h₁ h₂, hu]
    simp only [hw, atFlag_listed, use_listed, hr]
    exact ih
  | case7 r t h₁ h₂ us hu f hw s ts e he =>
    rw [run.eq_4 _ _ _ h₁ h₂, hu]
    simp only [hw, atFlag_listed, use_listed, he]
    rfl
  | case8 r t h₁ h₂ us hu f hw s ts r' hr ih =>
    rw [run.eq_4 _ _ _ h₁ h₂, hu]
    simp only [hw, atFlag_listed, use_listed, hr]
    exact ih
  | case9 r t ts h₁ h₂ us hu f hw hts =>
    rw [run.eq_4 _ _ _ h₁ h₂, hu]
    simp only [hw]
    rfl

end Reading

/-- The flag in front of other arguments asks for a list, and for nothing else. -/
theorem parse_listFlag (args : List Argument) :
    parse (listFlag :: args) = (parse args).map listing := by
  have read : Token.readAll (listFlag :: args) =
      (Token.readAll args).map (.long .listFiles none :: ·) := rfl
  rw [parse, parse, read]
  cases Token.readAll args with
  | none => rfl
  | some ts =>
    have run : Reading.run {} (.long .listFiles none :: ts) = Reading.run (Reading.listed {}) ts :=
      rfl
    simp only [Option.map_some, run, Reading.run_listed]
    cases Reading.run {} ts with
    | error e => rfl
    | ok r =>
      simp only [Except.map, Reading.listed]
      cases r.leftover <;> rfl

end ErbLayout.CommandLine
