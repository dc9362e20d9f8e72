import ErbLayout.Markup.Piece
import ErbLayout.Proofs.Markup.Token
import ErbLayout.Proofs.Text.Scan
/-!
The shape of a document in pieces: a body of raw text stands only right behind the open tag of its
element, and only the last piece can be a body without a close tag. Read one after another, the
pieces are the document.
-/

namespace ErbLayout.Markup.Piece

/-- Pieces in an order that a cut can give, where the body of the element `raw` comes first if there
is one. -/
inductive Ordered : Option (List Char) → List Piece → Prop
  | nil (raw : Option (List Char)) : Ordered raw []
  | unclosed (name content : List Char) : Ordered (some name) [.rawText name content []]
  | rawText {name content closeTag : List Char} {ps : List Piece} :
      closeTag ≠ [] → Ordered none ps → Ordered (some name) (.rawText name content closeTag :: ps)
  | last (text : List Char) : Ordered none [.gap text]
  | token {text : List Char} {t : Token} {ps : List Piece} :
      Ordered (rawTextAfter t) ps → Ordered none (.gap text :: .token t :: ps)

theorem mem_blankRuns {s a b : List Char} (h : (a, b) ∈ Token.runs isBlank s ++ [([], s)]) :
    s = a ++ b ∧ Text.allBlank a = true := by
  rcases List.mem_append.1 h with h | h
  · obtain ⟨hs, -, hb⟩ := Token.mem_runs h
    exact ⟨hs, List.all_eq_true.2 hb⟩
  · simp only [List.mem_singleton, Prod.mk.injEq] at h
    obtain ⟨rfl, rfl⟩ := h
    exact ⟨rfl, rfl⟩

theorem length_eq_of_sameLetters {s t : List Char} (h : sameLetters s t = true) :
    s.length = t.length := by
  fun_induction sameLetters s t with
  | case1 => rfl
  | case2 a s b t ih =>
    rw [List.length_cons, List.length_cons, ih (Bool.and_eq_true_iff.1 h).2]
  | case3 => simp at h

theorem not_mem_of_sameLetters {name spelled : List Char} {c : Char}
    (h : sameLetters name spelled = true) (hc : (name.all fun a => !sameLetter a c) = true) :
    c ∉ spelled := by
  fun_induction sameLetters name spelled with
  | case1 => simp
  | case2 a s b t ih =>
    obtain ⟨ha, hs⟩ := Bool.and_eq_true_iff.1 h
    simp only [List.all_cons, Bool.and_eq_true, Bool.not_eq_true'] at hc
    obtain ⟨hca, hcs⟩ := hc
    rw [List.mem_cons, not_or]
    refine ⟨?_, ih hs hcs⟩
    rintro rfl
    rw [hca] at ha
    exact absurd ha (by simp)
  | case3 => simp at h

theorem readCloseOf_eq_some {name s closeTag : List Char} {n : Nat}
    (h : readCloseOf name s = some (closeTag, n)) :
    ∃ before spelled after, closeTag = '<' :: '/' :: before ++ spelled ++ after ++ ['>'] ∧
      Text.allBlank before = true ∧ Text.allBlank after = true ∧
      sameLetters name spelled = true ∧ n = closeTag.length ∧ closeTag <+: s := by
  unfold readCloseOf at h
  split at h
  · obtain ⟨⟨before, s₁⟩, hmem, h⟩ := List.exists_of_findSome?_eq_some h
    dsimp only at h
    split at h
    · rename_i hsame
      split at h
      · rename_i after r hspan
        simp only [Option.some.injEq, Prod.mk.injEq] at h
        obtain ⟨rfl, rfl⟩ := h
        obtain ⟨hs, hb⟩ := mem_blankRuns hmem
        obtain ⟨ha, hblank⟩ := Attribute.span_eq_append hspan
        refine ⟨before, s₁.take name.length, after, rfl, hb, List.all_eq_true.2 hblank, hsame, rfl,
          ⟨r, ?_⟩⟩
        have hcut : s₁ = s₁.take name.length ++ (after ++ '>' :: r) := by
          rw [← ha, List.take_append_drop]
        rw [hs]
        conv_rhs => rw [hcut]
        simp
      · simp at h
    · simp at h
  · simp at h

theorem readCloseOf_ne_nil {name s closeTag : List Char} {n : Nat}
    (h : readCloseOf name s = some (closeTag, n)) : closeTag ≠ [] := by
  obtain ⟨before, spelled, after, rfl, -⟩ := readCloseOf_eq_some h
  simp

theorem cutFrom_ordered (fuel : Nat) (raw : Option (List Char)) (s : List Char) :
    Ordered raw (cutFrom fuel raw s) := by
  induction fuel generalizing raw s with
  | zero => exact .nil raw
  | succ fuel ih =>
    rcases s with _ | ⟨c, s⟩
    · cases raw <;> exact .nil _
    · cases raw with
      | none =>
        rw [cutFrom]
        swap
        · simp
        split
        · exact .token (ih _ _)
        · exact .last _
      | some name =>
        rw [cutFrom]
        swap
        · simp
        split
        · rename_i n closeTag k h
          exact .rawText (readCloseOf_ne_nil (Text.find?_eq_some h).2) (ih _ _)
        · exact .unclosed _ _

theorem cut_ordered (s : List Char) : Ordered none (cut s) := cutFrom_ordered _ _ _

theorem mem_cutFrom_token {fuel : Nat} {raw : Option (List Char)} {s : List Char} {t : Token}
    (h : .token t ∈ cutFrom fuel raw s) : ∃ u, Token.readAny u = some t := by
  induction fuel generalizing raw s with
  | zero => simp [cutFrom] at h
  | succ fuel ih =>
    rcases s with _ | ⟨c, s⟩
    · cases raw <;> simp [cutFrom] at h
    · cases raw with
      | none =>
        rw [cutFrom] at h
        swap
        · simp
        split at h
        · rename_i n u k hfind
          rw [List.mem_cons, List.mem_cons] at h
          rcases h with h | h | h
          · cases h
          · cases h
            exact ⟨_, (Token.read_eq_some (Text.find?_eq_some hfind).2).1⟩
          · exact ih h
        · simp at h
      | some name =>
        rw [cutFrom] at h
        swap
        · simp
        split at h
        · rw [List.mem_cons] at h
          rcases h with h | h
          · cases h
          · exact ih h
        · simp at h

theorem mem_cut_token {s : List Char} {t : Token} (h : .token t ∈ cut s) :
    ∃ u, Token.readAny u = some t := mem_cutFrom_token h

theorem isRawText_of_rawTextAfter {t : Token} {name : List Char}
    (h : rawTextAfter t = some name) : Element.isRawText name = true := by
  cases t with
  | comment text => simp [rawTextAfter] at h
  | close text name => simp [rawTextAfter] at h
  | opening text name attrs closing =>
    rw [rawTextAfter] at h
    split at h
    · rename_i hraw
      simp only [Bool.and_eq_true] at hraw
      cases h
      exact hraw.1
    · simp at h

theorem mem_cutFrom_rawText {fuel : Nat} {raw : Option (List Char)}
    {s name content closeTag : List Char} (hraw : ∀ m ∈ raw, Element.isRawText m = true)
    (h : .rawText name content closeTag ∈ cutFrom fuel raw s) :
    Element.isRawText name = true ∧
      (closeTag ≠ [] → ∃ u n, readCloseOf name u = some (closeTag, n)) := by
  induction fuel generalizing raw s with
  | zero => simp [cutFrom] at h
  | succ fuel ih =>
    rcases s with _ | ⟨c, s⟩
    · cases raw <;> simp [cutFrom] at h
    · cases raw with
      | none =>
        rw [cutFrom] at h
        swap
        · simp
        split at h
        · rw [List.mem_cons, List.mem_cons] at h
          rcases h with h | h | h
          · cases h
          · cases h
          · exact ih (fun m hm => isRawText_of_rawTextAfter hm) h
        · simp at h
      | some m =>
        rw [cutFrom] at h
        swap
        · simp
        split at h
        · rename_i n u k hfind
          rw [List.mem_cons] at h
          rcases h with h | h
          · cases h
            exact ⟨hraw _ rfl, fun _ => ⟨_, _, (Text.find?_eq_some hfind).2⟩⟩
          · exact ih (by simp) h
        · rw [List.mem_singleton] at h
          cases h
          exact ⟨hraw _ rfl, by simp⟩

theorem mem_cut_rawText {s name content closeTag : List Char}
    (h : .rawText name content closeTag ∈ cut s) : Element.isRawText name = true ∧
      (closeTag ≠ [] → ∃ u n, readCloseOf name u = some (closeTag, n)) :=
  mem_cutFrom_rawText (by simp) h

theorem take_append_of_initial {s t : List Char} {n : Nat} (h : t <+: s.drop n) :
    s = s.take n ++ (t ++ s.drop (n + t.length)) := by
  obtain ⟨u, hu⟩ := h
  conv_lhs => rw [← List.take_append_drop n s, ← hu]
  rw [← List.drop_drop, ← hu, List.drop_left]

theorem cutFrom_text {fuel : Nat} {raw : Option (List Char)} {s : List Char}
    (h : s.length < fuel) : (cutFrom fuel raw s).flatMap Piece.text = s := by
  induction fuel generalizing raw s with
  | zero => omega
  | succ fuel ih =>
    rcases s with _ | ⟨c, s⟩
    · cases raw <;> rfl
    · cases raw with
      | none =>
        rw [cutFrom]
        swap
        · simp
        split
        · rename_i n t k hfind
          obtain ⟨-, hread⟩ := Text.find?_eq_some hfind
          obtain ⟨ht, rfl⟩ := Token.read_eq_some hread
          have hpos := (Token.readAny_framed ht).length_pos
          have hrest : ((c :: s).drop (n + t.text.length)).length < fuel := by
            rw [List.length_drop]
            simp only [List.length_cons] at h ⊢
            omega
          rw [List.flatMap_cons, List.flatMap_cons, ih hrest]
          exact (take_append_of_initial (Token.readAny_text ht)).symm
        · simp [Piece.text]
      | some name =>
        rw [cutFrom]
        swap
        · simp
        split
        · rename_i n closeTag k hfind
          obtain ⟨-, hread⟩ := Text.find?_eq_some hfind
          obtain ⟨-, -, -, -, -, -, -, rfl, hpre⟩ := readCloseOf_eq_some hread
          have hpos := List.length_pos_iff.2 (readCloseOf_ne_nil hread)
          have hrest : ((c :: s).drop (n + closeTag.length)).length < fuel := by
            rw [List.length_drop]
            simp only [List.length_cons] at h ⊢
            omega
          rw [List.flatMap_cons, ih hrest, Piece.text, List.append_assoc]
          exact (take_append_of_initial hpre).symm
        · simp [Piece.text]

theorem cut_text (s : List Char) : (cut s).flatMap Piece.text = s :=
  cutFrom_text (Nat.lt_succ_self _)

/-- A raw text stands behind an open tag, and its body ends before the first close tag of its
element. -/
structure Enclosed (ps : List Piece) (name content closeTag : List Char) (ps' : List Piece) :
    Prop where
  opened : ∃ ps₀ t, ps = ps₀ ++ [.token t] ∧ rawTextAfter t = some name
  first : closeTag ≠ [] → Text.find? (readCloseOf name) 0
    (content ++ (closeTag ++ ps'.flatMap Piece.text)) =
      some (content.length, closeTag, closeTag.length)

theorem cutFrom_rawText {fuel : Nat} {raw : Option (List Char)} {s : List Char}
    {ps ps' : List Piece} {name content closeTag : List Char} (hfuel : s.length < fuel)
    (h : cutFrom fuel raw s = ps ++ .rawText name content closeTag :: ps') :
    ((ps = [] ∧ raw = some name) ∨ ∃ ps₀ t, ps = ps₀ ++ [.token t] ∧
      rawTextAfter t = some name) ∧
      (closeTag ≠ [] → Text.find? (readCloseOf name) 0
        (content ++ (closeTag ++ ps'.flatMap Piece.text)) =
          some (content.length, closeTag, closeTag.length)) := by
  induction fuel generalizing raw s ps with
  | zero => omega
  | succ fuel ih =>
    have htext : (cutFrom (fuel + 1) raw s).flatMap text = s := cutFrom_text hfuel
    rcases s with _ | ⟨c, s⟩
    · cases raw <;> simp [cutFrom] at h
    cases raw with
    | none =>
      rw [cutFrom] at h
      swap
      · simp
      split at h
      · rename_i n t k hfind
        obtain ⟨ht, rfl⟩ := Token.read_eq_some (Text.find?_eq_some hfind).2
        have hpos := (Token.readAny_framed ht).length_pos
        have hrest : ((c :: s).drop (n + t.text.length)).length < fuel := by
          rw [List.length_drop]
          simp only [List.length_cons] at hfuel ⊢
          omega
        rcases ps with _ | ⟨p, _ | ⟨q, ps⟩⟩
        · simp at h
        · simp at h
        · simp only [List.cons_append, List.cons.injEq] at h
          obtain ⟨rfl, rfl, h⟩ := h
          obtain ⟨hopened, hfirst⟩ := ih hrest h
          refine ⟨.inr ?_, hfirst⟩
          rcases hopened with ⟨rfl, hraw⟩ | ⟨ps₀, u, rfl, hraw⟩
          · exact ⟨[_], t, rfl, hraw⟩
          · exact ⟨_ :: _ :: ps₀, u, rfl, hraw⟩
      · rcases ps with _ | ⟨p, ps⟩
        · simp at h
        · simp at h
    | some m =>
      rw [cutFrom] at h htext
      rotate_left
      · simp
      · simp
      split at h
      · rename_i n close k hfind
        rw [hfind] at htext
        obtain ⟨-, hread⟩ := Text.find?_eq_some hfind
        obtain ⟨-, -, -, -, -, -, -, rfl, hpre⟩ := readCloseOf_eq_some hread
        have hne := readCloseOf_ne_nil hread
        have hpos := List.length_pos_iff.2 hne
        have hrest : ((c :: s).drop (n + close.length)).length < fuel := by
          rw [List.length_drop]
          simp only [List.length_cons] at hfuel ⊢
          omega
        have hn : ((c :: s).take n).length = n := by
          rw [List.length_take, Nat.min_eq_left]
          by_contra hlong
          have hnil : (c :: s).drop (n - 0) = [] := List.drop_eq_nil_of_le (by omega)
          rw [hnil] at hpre
          exact hne (List.prefix_nil.1 hpre)
        rcases ps with _ | ⟨p, ps⟩
        · simp only [List.nil_append, List.cons.injEq, Piece.rawText.injEq] at h
          obtain ⟨⟨rfl, rfl, rfl⟩, rfl⟩ := h
          refine ⟨.inl ⟨rfl, rfl⟩, fun _ => ?_⟩
          rw [List.flatMap_cons, Piece.text, List.append_assoc] at htext
          rw [htext, hn, hfind]
        · simp only [List.cons_append, List.cons.injEq] at h
          obtain ⟨rfl, h⟩ := h
          obtain ⟨hopened, hfirst⟩ := ih hrest h
          refine ⟨.inr ?_, hfirst⟩
          rcases hopened with ⟨-, hraw⟩ | ⟨ps₀, u, rfl, hraw⟩
          · simp at hraw
          · exact ⟨_ :: ps₀, u, rfl, hraw⟩
      · rcases ps with _ | ⟨p, ps⟩
        · simp only [List.nil_append, List.cons.injEq, Piece.rawText.injEq] at h
          obtain ⟨⟨rfl, rfl, rfl⟩, rfl⟩ := h
          exact ⟨.inl ⟨rfl, rfl⟩, fun hne => absurd rfl hne⟩
        · simp at h

theorem cut_rawText {s : List Char} {ps ps' : List Piece} {name content closeTag : List Char}
    (h : cut s = ps ++ .rawText name content closeTag :: ps') :
    Enclosed ps name content closeTag ps' := by
  obtain ⟨hopened, hfirst⟩ := cutFrom_rawText (Nat.lt_succ_self _) h
  rcases hopened with ⟨-, hraw⟩ | hopened
  · simp at hraw
  · exact ⟨hopened, hfirst⟩

end ErbLayout.Markup.Piece
