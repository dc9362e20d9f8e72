import ErbLayout.Proofs.Text.Lines
import ErbLayout.Ruby.Fragment
/-!
A fragment that the reformatter leaves as it is keeps its words, whatever closers were put behind it
on the way and however its lines are cut.
-/

namespace ErbLayout.Ruby

open Text (words startsBlank)

theorem flatMap_words {ws : List (List Char)} (h : ∀ w ∈ ws, Text.Word w) : ws.flatMap words = ws := by
  induction ws with
  | nil => rfl
  | cons w ws ih =>
    rw [List.flatMap_cons, Text.words_of_word (h w List.mem_cons_self),
      ih fun v hv => h v (List.mem_cons_of_mem w hv)]
    rfl

theorem words_withoutClosers {closing lines ls : List (List Char)}
    (h : withoutClosers closing lines = some ls) (hc : ∀ w ∈ closing, Text.Word w) :
    ls.flatMap words ++ closing = lines.flatMap words := by
  unfold withoutClosers at h
  dsimp only at h
  split at h
  · rename_i hnil
    rw [List.length_eq_zero_iff] at hnil
    rw [hnil, List.append_nil, Option.some.inj h]
  · split at h
    · simp at h
    · rename_i hlast
      simp only [Bool.or_eq_true, decide_eq_true_eq, bne_iff_ne, ne_eq, not_or, not_not] at hlast
      have hclosing : (lines.drop (lines.length - closing.length)).flatMap words = closing := by
        have htrimmed := flatMap_words hc
        conv_lhs at htrimmed => rw [← hlast.2, List.flatMap_map]
        refine Eq.trans ?_ htrimmed
        exact List.flatMap_congr fun l _ => (Text.words_trim l).symm
      conv_rhs => rw [← List.take_append_drop (lines.length - closing.length) lines]
      rw [← Option.some.inj h, List.flatMap_append, hclosing]

theorem suffixFrom_start (complete : Checker) (code : List Char) {suffix : List Char}
    (h : suffix = [] ∨ startsBlank suffix = true) (closers : List (List Char)) :
    suffixFrom complete code suffix closers = [] ∨
      startsBlank (suffixFrom complete code suffix closers) = true := by
  induction closers generalizing suffix with
  | nil => exact h
  | cons closer rest ih =>
    rw [suffixFrom]
    refine ih ?_
    split
    · rcases h with rfl | h
      · exact .inr rfl
      · refine .inr ?_
        cases suffix with
        | nil => rfl
        | cons c suffix => exact h
    · exact h

theorem autocloseSuffix_start (complete : Checker) (code : List Char) :
    autocloseSuffix complete code = [] ∨ startsBlank (autocloseSuffix complete code) = true :=
  suffixFrom_start complete code (.inl rfl) closers

theorem words_ofReformatted (code : List Char) {suffix : List Char}
    (h : suffix = [] ∨ startsBlank suffix = true) :
    words (ofReformatted code suffix (code ++ suffix)).1 = words code := by
  have hsplit : words (code ++ suffix) = words code ++ words suffix := by
    rcases h with rfl | h
    · rw [List.append_nil, Text.words_nil, List.append_nil]
    · exact Text.words_append_of_startsBlank h
  unfold ofReformatted
  split
  · rfl
  · rfl
  · rename_i ls _ hls
    have hwords := words_withoutClosers hls fun w hw => Text.word_of_mem_words hw
    rw [Text.words_splitLines, Text.words_trim, hsplit] at hwords
    rw [Text.words_joinLines]
    exact List.append_cancel_right hwords

end ErbLayout.Ruby
