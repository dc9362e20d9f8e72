import Mathlib.Data.List.TakeWhile
import ErbLayout.Ruby.Syntax
/-!
Comments before Ruby code count for nothing: code behind a line of comment is read as if it stood
there by itself.
-/

namespace ErbLayout.Ruby

theorem length_skipLine_le (s : List Char) : (skipLine s).length ≤ s.length := by
  exact (List.dropWhile_suffix _).length_le

theorem skipBlank_suffix (spaced : Bool) (s : List Char) : (skipBlank spaced s).2 <:+ s := by
  fun_induction skipBlank spaced s with
  | case1 spaced s ih => exact (ih.trans (List.suffix_cons _ s)).trans (List.suffix_cons _ _)
  | case2 spaced s ih =>
    exact ((ih.trans (List.suffix_cons _ s)).trans (List.suffix_cons _ _)).trans (List.suffix_cons _ _)
  | case3 spaced c s hno hno' hspace ih => exact ih.trans (List.suffix_cons c s)
  | case4 | case5 => exact List.suffix_rfl

theorem length_skipBlank_le (spaced : Bool) (s : List Char) :
    (skipBlank spaced s).2.length ≤ s.length :=
  (skipBlank_suffix spaced s).length_le

theorem length_afterBlockEnd_le {s r : List Char} (h : afterBlockEnd s = some r) :
    r.length ≤ s.length := by
  fun_induction afterBlockEnd s with
  | case1 => simp at h
  | case2 s =>
    have hlen := length_skipLine_le s
    rw [← Option.some.inj h]
    simp only [List.length_cons]
    omega
  | case3 | case5 | case7 | case8 =>
    rename_i ih
    have hlen := ih h
    simp only [List.length_cons]
    omega
  | case4 | case6 => simp at h

/-- A comment takes up at least one character. -/
theorem length_afterComment_lt {expects : Expected} {s r : List Char}
    (h : afterComment expects s = some r) : r.length < s.length := by
  unfold afterComment at h
  split at h
  · rename_i t
    split at h
    · simp at h
    · have hlen := length_skipLine_le t
      rw [← Option.some.inj h]
      simp only [List.length_cons]
      omega
  · rename_i t
    split at h
    · simp at h
    · unfold afterBlockComment at h
      split at h
      · obtain ⟨u, hu, hr⟩ := Option.bind_eq_some_iff.1 h
        have hskip := length_skipLine_le ('=' :: t)
        have hend := length_afterBlockEnd_le hr
        cases hs : skipLine ('=' :: t) with
        | nil => simp [hs] at hu
        | cons c v =>
          rw [hs, List.tail?_cons, Option.some.injEq] at hu
          rw [hs, List.length_cons, hu] at hskip
          omega
      · simp at h
  · simp at h

/-- There is always enough fuel to read a token. -/
theorem readFrom_of_lt (expects : Expected) {n m : Nat} {src : Source} (hn : src.rest.length < n)
    (hm : src.rest.length < m) : readFrom expects n src = readFrom expects m src := by
  induction n generalizing m src with
  | zero => omega
  | succ n ih =>
    obtain ⟨m, rfl⟩ : ∃ k, m = k + 1 := ⟨m - 1, by omega⟩
    have hskip := length_skipBlank_le false src.rest
    rw [readFrom, readFrom]
    dsimp only
    cases hc : afterComment expects (skipBlank false src.rest).2 with
    | none => rfl
    | some rest =>
      have hlen := length_afterComment_lt hc
      have hn' : (src.after rest).rest.length < n := by
        rw [Source.rest_after]
        omega
      have hm' : (src.after rest).rest.length < m := by
        rw [Source.rest_after]
        omega
      dsimp only
      rw [ih hn' hm']

/-- Nothing that is told by where it stands begins with a number sign. -/
theorem readPlaced_comment (expects : Expected) (src : Source) (spaced : Bool) (s : List Char) :
    readPlaced expects src spaced ('#' :: s) = none := by
  have hword : isWordStart '#' = false := by decide
  simp [readPlaced, hword, readOpening, openDelimited]

theorem read_comment {expects : Expected} (hcode : expects .codeStart = false) (s : List Char) :
    read expects ⟨'#' :: s, [], []⟩ = read expects ⟨skipLine s, [], []⟩ := by
  have hplaced : readContextual expects ⟨'#' :: s, [], []⟩ = none := by
    simp [readContextual, gap, gapFrom, readPlaced_comment, Source.awaitsBody, Source.inBody]
  have hskip : skipBlank false ('#' :: s) = (false, '#' :: s) := by
    simp [skipBlank, isSpace]
  have hcomment : afterComment expects ('#' :: s) = some (skipLine s) := by
    simp [afterComment, hcode]
  rw [read, readFrom, hplaced]
  simp only [readEscape, Option.none_or, hskip, hcomment]
  exact readFrom_of_lt expects (by simpa [Source.after] using Nat.lt_succ_of_le (length_skipLine_le s))
    (by simp [Source.after])

theorem expected_codeStart : expected beforeCode .codeStart = false := by decide +kernel

/-- Code behind a line of comment is whole exactly if it is whole by itself. -/
theorem isComplete_comment (s : List Char) : isComplete ('#' :: s) = isComplete (skipLine s) := by
  rw [isComplete, isComplete, read_comment expected_codeStart]

theorem skipLine_of_not_mem {s : List Char} (h : '\n' ∉ s) : skipLine s = [] := by
  rw [skipLine, List.dropWhile_eq_nil_iff]
  intro c hc
  simpa using fun he : c = '\n' => h (he ▸ hc)

theorem isComplete_comment_line {s : List Char} (h : '\n' ∉ s) : isComplete ('#' :: s) = true := by
  rw [isComplete_comment, skipLine_of_not_mem h]
  exact isComplete_nil

/-- No keyword begins with a number sign, so a comment opens a block or stands alone. -/
theorem classify_comment {code s : List Char} (h : Text.trim code = '#' :: s) :
    classify isComplete code = if isComplete (skipLine s) then .standalone else .blockOpen := by
  have hclosers : closers.contains ('#' :: s) = false := by simp [closers]
  have hcontinuation : isContinuation ('#' :: s) = false := by
    simp [isContinuation, bareContinuations, openContinuations, beginsWithWord]
  rw [classify, h, hclosers, hcontinuation, isComplete_comment]
  rfl

end ErbLayout.Ruby
