import ErbLayout.Proofs.Erb.Kind
import ErbLayout.Proofs.Ruby.Commented
import ErbLayout.Proofs.Text.Lines
import ErbLayout.Proofs.Text.Spread
/-!
The role of a fragment with a comment behind it. The comment is no part of the code for whoever asks
whether the code is whole, but it is for whoever asks whether the fragment is nothing but a keyword.
-/

namespace ErbLayout.Ruby

/-- White space at the end of a text is spaces and tabs. -/
def EndsPlain (s : List Char) : Prop :=
  ∀ g, g <:+ s → Text.allBlank g = true → ∀ b ∈ g, isBlank b = true

theorem EndsPlain.of_endsBlank {s : List Char} (h : Text.endsBlank s = false) : EndsPlain s := by
  rintro g ⟨u, rfl⟩ hg
  by_cases hnil : g = []
  · simp [hnil]
  · rw [Text.endsBlank_append hnil, Text.endsBlank_of_allBlank hg hnil] at h
    simp at h

theorem isBlank_of_ruby {b : Char} (h : isBlank b = true) : ErbLayout.isBlank b = true := by
  rcases blank_cases h with rfl | rfl <;> decide

theorem allBlank_of_ruby {g : List Char} (h : ∀ b ∈ g, isBlank b = true) :
    Text.allBlank g = true :=
  List.all_eq_true.2 fun b hb => isBlank_of_ruby (h b hb)

section Trim

variable {code t : List Char} (ht : Remark t)
include ht

/-- A comment loses the white space at its end. -/
theorem Remark.exists_trimmed : ∃ b g k tr, t = b :: (g ++ '#' :: k) ++ tr ∧
    isBlank b = true ∧ (∀ c ∈ g, isBlank c = true) ∧ '\n' ∉ k ∧ k.head? ≠ some '{' ∧
    Text.allBlank tr = true ∧ Text.endsBlank ('#' :: k) = false := by
  obtain ⟨hb, hg, hk, hbrace⟩ := ht
  rename_i b g k
  obtain ⟨tr, hsplit, htr, -⟩ := Text.trimRight_append k
  have hsign : ErbLayout.isBlank '#' = false := by decide
  refine ⟨b, g, Text.trimRight k, tr, ?_, hb, hg, ?_, ?_, htr, ?_⟩
  · rw [List.cons_append, List.append_assoc, List.cons_append, ← hsplit]
  · rw [hsplit] at hk
    exact fun hn => hk (List.mem_append_left _ hn)
  · intro hhead
    obtain ⟨v, hv⟩ : ∃ v, Text.trimRight k = '{' :: v := List.head?_eq_some_iff.1 hhead
    rw [hsplit, hv] at hbrace
    exact hbrace rfl
  · rw [← Erb.trimRight_cons hsign]
    exact Text.endsBlank_trimRight _

theorem trim_commented (hend : EndsPlain code) (hcode : Text.trim code ≠ []) :
    ∃ t', Remark t' ∧ Text.trim (code ++ t) = Text.trim code ++ t' := by
  obtain ⟨g₀, g₁, hsplit, hg₀, hg₁, hstart, -⟩ := Text.trim_append code
  obtain ⟨b, g, k, tr, rfl, hb, hg, hk, hbrace, htr, hlast⟩ := ht.exists_trimmed
  have hplain : ∀ c ∈ g₁, isBlank c = true := by
    refine hend g₁ ?_ hg₁
    rw [hsplit]
    exact (List.suffix_append _ _).trans (List.suffix_append _ _)
  refine ⟨g₁ ++ b :: (g ++ '#' :: k), ?_, ?_⟩
  · cases g₁ with
    | nil => exact .mk hb hg hk hbrace
    | cons e g₁ =>
      obtain ⟨he, hg₁⟩ := List.forall_mem_cons.1 hplain
      have hgap : ∀ c ∈ g₁ ++ b :: g, isBlank c = true :=
        List.forall_mem_append.2 ⟨hg₁, List.forall_mem_cons.2 ⟨hb, hg⟩⟩
      simpa using Remark.mk he hgap hk hbrace
  · have hmiddle : code ++ (b :: (g ++ '#' :: k) ++ tr) =
        g₀ ++ ((Text.trim code ++ (g₁ ++ b :: (g ++ '#' :: k))) ++ tr) := by
      conv_lhs => rw [hsplit]
      simp
    rw [hmiddle]
    refine Text.trim_between hg₀ htr ?_ ?_
    · rw [Text.startsBlank_append hcode]
      exact hstart
    · rw [← List.cons_append, ← List.append_assoc, ← List.append_assoc,
        Text.endsBlank_append (by simp)]
      exact hlast

theorem trim_of_blank_commented (hcode : Text.trim code = []) :
    ∃ k, '\n' ∉ k ∧ Text.trim (code ++ t) = '#' :: k := by
  obtain ⟨g₀, g₁, hsplit, hg₀, hg₁, -, -⟩ := Text.trim_append code
  obtain ⟨b, g, k, tr, rfl, hb, hg, hk, -, htr, hlast⟩ := ht.exists_trimmed
  refine ⟨k, hk, ?_⟩
  have hblank : Text.allBlank (g₀ ++ (g₁ ++ b :: g)) = true := by
    have hgap := allBlank_of_ruby (List.forall_mem_cons.2 ⟨hb, hg⟩)
    rw [Text.allBlank, List.all_append, List.all_append]
    simp only [Text.allBlank] at hg₀ hg₁ hgap
    rw [hg₀, hg₁, hgap]
    rfl
  have hmiddle : code ++ (b :: (g ++ '#' :: k) ++ tr) =
      (g₀ ++ (g₁ ++ b :: g)) ++ ('#' :: k ++ tr) := by
    rw [hsplit, hcode]
    simp
  rw [hmiddle]
  exact Text.trim_between hblank htr (by simp [Text.startsBlank]; decide) hlast

end Trim

/-- Whether a text begins with one of the keywords that anything may follow. -/
def continuesOpenly (s : List Char) : Bool := openContinuations.any (beginsWithWord · s)

/-- Whether a text is nothing but a keyword that closes a block or goes on with it. -/
def isBareKeyword (s : List Char) : Bool := closers.contains s || bareContinuations.contains s

section Keywords

variable {t : List Char} (ht : Remark t) (s : List Char)
include ht

theorem beginsWithWord_commented {word : List Char} (hword : ∀ c ∈ word, isBlank c = false) :
    beginsWithWord word (s ++ t) = beginsWithWord word s := by
  obtain ⟨b, u, rfl, hb⟩ := ht.exists_cons
  rw [beginsWithWord, beginsWithWord, isPrefixOf_append hb s u hword]
  cases hprefix : word.isPrefixOf s with
  | false => rfl
  | true =>
    have hletter : isWord b = false := by rcases blank_cases hb with rfl | rfl <;> decide
    rw [drop_append_of_isPrefixOf s u hprefix]
    cases s.drop word.length with
    | nil => simp [hletter]
    | cons c v => rfl

theorem continuesOpenly_commented : continuesOpenly (s ++ t) = continuesOpenly s := by
  have hall : ∀ word ∈ openContinuations, word.all (!isBlank ·) = true := by decide
  have hwords : ∀ word ∈ openContinuations, ∀ c ∈ word, isBlank c = false :=
    fun word hword c hc => by simpa using List.all_eq_true.1 (hall word hword) c hc
  rw [continuesOpenly, continuesOpenly, Bool.eq_iff_iff, List.any_eq_true, List.any_eq_true]
  refine exists_congr fun word => and_congr_right fun hword => ?_
  rw [beginsWithWord_commented ht s (hwords word hword)]

/-- No keyword holds a comment. -/
theorem isBareKeyword_commented : isBareKeyword (s ++ t) = false := by
  have hsign : '#' ∈ s ++ t := by
    obtain ⟨-, -, -, -⟩ := ht
    simp
  have hkeywords : ∀ word ∈ closers ++ bareContinuations, '#' ∉ word := by decide
  refine Bool.eq_false_iff.2 fun h => hkeywords (s ++ t) ?_ hsign
  rw [isBareKeyword, Bool.or_eq_true, List.contains_iff_mem, List.contains_iff_mem] at h
  exact List.mem_append.2 h

end Keywords

theorem continuesOpenly_of_isBareKeyword {s : List Char} (h : isBareKeyword s = true) :
    continuesOpenly s = false := by
  have hkeywords : ∀ word ∈ closers ++ bareContinuations, continuesOpenly word = false := by decide
  rw [isBareKeyword, Bool.or_eq_true, List.contains_iff_mem, List.contains_iff_mem] at h
  exact hkeywords s (List.mem_append.2 h)

/-- No keyword that closes a block or goes on with it is code by itself. -/
theorem isComplete_of_isBareKeyword {s : List Char} (h : isBareKeyword s = true) :
    isComplete s = false := by
  have hbrace : isComplete ['}'] = false := by decide +kernel
  have hread : ∀ word ∈ ["end".toList, "else".toList, "ensure".toList],
      read (expected beforeCode) ⟨word, [], []⟩ = some ⟨.identifier, ⟨[], [], []⟩, true⟩ := by
    decide +kernel
  have hsplit : s = ['}'] ∨ s ∈ ["end".toList, "else".toList, "ensure".toList] := by
    simpa [isBareKeyword, closers, bareContinuations, or_assoc, or_left_comm] using h
  rcases hsplit with rfl | hword
  · exact hbrace
  · exact isComplete_of_lone (hread s hword)

/-- The role of a fragment that is not nothing but a keyword. -/
theorem classify_of_not_isBareKeyword {code : List Char} (h : isBareKeyword (Text.trim code) = false) :
    classify isComplete code =
      if continuesOpenly (Text.trim code) then .elseLike
      else if isComplete (Text.trim code) then .standalone
      else .blockOpen := by
  rw [isBareKeyword, Bool.or_eq_false_iff] at h
  have hcontinuation : isContinuation (Text.trim code) = continuesOpenly (Text.trim code) := by
    rw [isContinuation, h.2, Bool.false_or]
    rfl
  rw [classify, h.1, hcontinuation]
  rfl

/-- The role of a fragment with a comment behind it is told by what stands before the comment, but
not by its being nothing but a keyword. -/
theorem classify_commented {code t : List Char} (hline : OneLine code) (hend : EndsPlain code)
    (ht : Remark t) (hcode : continuesOpenly (Text.trim code) = false →
      (∀ t, Remark t → Apart (Text.trim code) t) ∧ Steady (Text.trim code)) :
    classify isComplete (code ++ t) =
      if continuesOpenly (Text.trim code) then .elseLike
      else if isComplete (Text.trim code) then .standalone
      else .blockOpen := by
  by_cases hnil : Text.trim code = []
  · obtain ⟨k, hk, htrim⟩ := trim_of_blank_commented ht hnil
    have hopen : continuesOpenly [] = false := by decide
    rw [classify_comment htrim, skipLine_of_not_mem hk, hnil, hopen]
    simp only [Bool.false_eq_true, if_false]
  obtain ⟨t', ht', htrim⟩ := trim_commented ht hend hnil
  have hbare : isBareKeyword (Text.trim (code ++ t)) = false := by
    rw [htrim]
    exact isBareKeyword_commented ht' _
  rw [classify_of_not_isBareKeyword hbare, htrim, continuesOpenly_commented ht']
  cases hopen : continuesOpenly (Text.trim code) with
  | true => rfl
  | false =>
    obtain ⟨hapart, hsteady⟩ := hcode hopen
    have htrimmed : OneLine (Text.trim code) := by
      obtain ⟨g₀, g₁, hsplit, -⟩ := Text.trim_append code
      exact fun c hc => hline c (hsplit ▸ by simp [hc])
    rw [isComplete_commented ht' (hapart t' ht') hsteady htrimmed]

end ErbLayout.Ruby
