import ErbLayout.Proofs.Ruby.Comment
import ErbLayout.Proofs.Ruby.Lexeme
/-!
Code with a comment behind it in the same line. Its tokens are those of the code alone, until a token
takes some of the comment or the code ends in a sign that is told by what stands next to it.
-/

namespace ErbLayout.Ruby

/-- White space and a comment behind it, in one line. The sign of the comment is not the one that code
in a text begins with. -/
inductive Remark : List Char → Prop
  | mk {b : Char} {g k : List Char} : isBlank b = true → (∀ c ∈ g, isBlank c = true) → '\n' ∉ k →
    k.head? ≠ some '{' → Remark (b :: (g ++ '#' :: k))

theorem Remark.exists_cons {t : List Char} (h : Remark t) :
    ∃ b u, t = b :: u ∧ isBlank b = true := by
  obtain ⟨hb, -, -, -⟩ := h
  exact ⟨_, _, rfl, hb⟩

/-- What begins a text with a comment behind it begins the text, if it is no white space. -/
theorem Remark.head?_append_iff {t : List Char} (h : Remark t) {c : Char} (hc : isBlank c = false)
    (s : List Char) : (s ++ t).head? = some c ↔ s.head? = some c := by
  cases s with
  | nil =>
    obtain ⟨b, u, rfl, hb⟩ := h.exists_cons
    simpa using ne_of_isBlank hb hc
  | cons d s => rfl

theorem Remark.head?_append_beq {t : List Char} (h : Remark t) {c : Char} (hc : isBlank c = false)
    (s : List Char) : ((s ++ t).head? == some c) = (s.head? == some c) := by
  rw [Bool.eq_iff_iff, beq_iff_eq, beq_iff_eq, h.head?_append_iff hc]

/-- Signs of arguments that are passed on, which are told from operators by what stands next to
them. -/
def danglingSigns : List Token := [.blockAmpersand, .splatStar, .hashSplatStars]

/-- A token opens a delimited text, and a character ends it that is no white space. -/
structure Delimited.Sane (d : Delimited) : Prop where
  start : d.start ≠ .endOfCode
  closing : ∃ c, d.closing = some c ∧ isBlank c = false

namespace Source

/-- A source with more behind it. -/
def before (t : List Char) (src : Source) : Source := { src with rest := src.rest ++ t }

/-- The delimited texts are sane, and no here-document has begun. -/
structure Sane (src : Source) : Prop where
  delimited : ∀ d ∈ src.delimited, d.Sane
  begun : ∀ h ∈ src.hereDocs, h.begun = false

variable {src : Source}

theorem Sane.after (h : src.Sane) (rest : List Char) : (src.after rest).Sane :=
  ⟨h.delimited, h.begun⟩

theorem Sane.before (h : src.Sane) (t : List Char) : (src.before t).Sane :=
  ⟨h.delimited, h.begun⟩

theorem Sane.inBody (h : src.Sane) : src.inBody = false := by
  cases hdocs : src.hereDocs with
  | nil => simp [Source.inBody, hdocs]
  | cons h₀ hs => simp [Source.inBody, hdocs, h.begun h₀ (by simp [hdocs])]

theorem Sane.opening (h : src.Sane) {d : Delimited} (hd : d.Sane) (rest : List Char) :
    (src.opening d rest).Sane :=
  ⟨List.forall_mem_cons.2 ⟨hd, h.delimited⟩, h.begun⟩

end Source

theorem sane_quotedBy (start : Token) (hstart : start ≠ .endOfCode) {q : Char}
    (hq : isBlank q = false) (interpolates : Bool) : (quotedBy start q interpolates).Sane :=
  ⟨hstart, q, rfl, hq⟩

namespace Read

/-- A token with more behind it. -/
def before (t : List Char) (r : Read) : Read := { r with source := r.source.before t }

/-- A token takes nothing of what stands at the end of the code, nor is it in a text that has no end. -/
def Spares (t : List Char) (r : Read) : Prop :=
  r.token = .endOfCode ∨ t <:+ r.source.rest ∧ ∀ d ∈ r.source.delimited, d.closing ≠ none

variable {t : List Char} {r : Read}

theorem not_spares_of_length (hr : r.token ≠ .endOfCode) (h : r.source.rest.length < t.length) :
    ¬ r.Spares t := by
  rintro (hend | ⟨hrest, -⟩)
  · exact hr hend
  · exact absurd hrest.length_le (Nat.not_le.2 h)

theorem not_spares_of_mem (hr : r.token ≠ .endOfCode) {d : Delimited} (hd : d ∈ r.source.delimited)
    (h : d.closing = none) : ¬ r.Spares t := by
  rintro (hend | ⟨-, hclosed⟩)
  · exact hr hend
  · exact hclosed d hd h

end Read

/-- What stands behind a word and its suffix, if it has one. -/
def wordSuffix (w r : List Char) : Option (List Char) :=
  if w == "defined".toList && r.head? == some '?' then none else afterSuffix r

theorem wordSuffix_suffix {w r v : List Char} (h : wordSuffix w r = some v) : v <:+ r := by
  rw [wordSuffix, Option.ite_none_left_eq_some] at h
  exact afterSuffix_suffix h.2

theorem wordSuffix_append {t : List Char} (ht : Remark t) (w r : List Char) :
    wordSuffix w (r ++ t) = (wordSuffix w r).map (· ++ t) := by
  have hmark := ht.head?_append_iff (c := '?') (by decide) r
  obtain ⟨b, u, rfl, hb⟩ := ht.exists_cons
  rw [wordSuffix, wordSuffix, afterSuffix_append hb]
  simp only [Bool.and_eq_true, beq_iff_eq, hmark]
  split <;> rfl

/-- The kind of a word with a suffix. -/
def suffixedKind (s : List Char) : Token :=
  if s.head?.any isCapital then .suffixedConstant else .suffixedIdentifier

/-- A word that was read is the key of a pair, or it has a suffix. -/
def readEnded (expects : Expected) (src : Source) (kind : Token) (suffix : Option (List Char))
    (rest : List Char) : Option Read :=
  if rest.head? = some ':' ∧ rest.tail.head? ≠ some ':' ∧ expects .hashKey = true then
    some { token := .hashKey, source := src.after rest }
  else readSuffixed.suffixed expects src kind suffix

theorem readSuffixed_eq (expects : Expected) (src : Source) (s : List Char) :
    readSuffixed expects src s = (readWord s).bind fun x =>
      readEnded expects src (suffixedKind s) (wordSuffix x.1 x.2)
        ((wordSuffix x.1 x.2).getD x.2) := by
  unfold readSuffixed
  cases readWord s with
  | none => rfl
  | some x =>
    obtain ⟨w, r⟩ := x
    simp only [← wordSuffix.eq_def, ← suffixedKind.eq_def, Option.bind_some, readEnded]
    generalize (wordSuffix w r).getD r = rest
    rcases rest with _ | ⟨c, v⟩
    · rfl
    · by_cases hc : c = ':'
      · subst hc
        simp
      · simp [hc]

/-- What is read of a text, and of the same text with a comment behind it. -/
inductive Abreast (t s : List Char) : Option Read → Option Read → Prop
  | nothing : Abreast t s none none
  | alike {r : Read} : Behind r.source.rest s → r.source.Sane →
    Abreast t s (some r) (some (r.before t))
  | ends {r r' : Read} : r.token = .endOfCode → r'.token = .endOfCode →
    Abreast t s (some r) (some r')
  | taken {found : Option Read} {r : Read} : ¬ r.Spares t → Abreast t s found (some r)
  | minus {src : Source} : src.rest = [] → src.Sane →
    Abreast t s (some ⟨.unaryMinus, src, false⟩) (some ⟨.binaryMinus, src.before t, false⟩)
  | opened {found : Option Read} {r : Read} : r.source.delimited ≠ [] → r.source.rest = [] →
    Abreast t s (some r) found
  | dangling {found : Option Read} {r : Read} : r.token ∈ danglingSigns → r.source.rest = [] →
    Abreast t s (some r) found

namespace Abreast

variable {t s s' : List Char} {a a' b b' : Option Read}

theorem of_suffix (h : Abreast t s a b) (hs : s <:+ s') : Abreast t s' a b := by
  cases h with
  | nothing => exact .nothing
  | alike hr hsane => exact .alike (hr.trans_suffix hs) hsane
  | ends hr hr' => exact .ends hr hr'
  | taken hr => exact .taken hr
  | minus hrest hsane => exact .minus hrest hsane
  | opened hr hrest => exact .opened hr hrest
  | dangling hr hrest => exact .dangling hr hrest

theorem or (h : Abreast t s a b) (h' : Abreast t s a' b') : Abreast t s (a.or a') (b.or b') := by
  cases h with
  | nothing => exact h'
  | alike hr hsane => exact .alike hr hsane
  | ends hr hr' => exact .ends hr hr'
  | taken hr => exact .taken hr
  | minus hrest hsane => exact .minus hrest hsane
  | opened hr hrest => exact .opened hr hrest
  | dangling hr hrest => exact .dangling hr hrest

theorem ite {p p' : Prop} [Decidable p] [Decidable p'] (hp : p ↔ p') (h : p → Abreast t s a b)
    (h' : ¬ p → Abreast t s a' b') :
    Abreast t s (if p then a else a') (if p' then b else b') := by
  by_cases hcase : p
  · rw [if_pos hcase, if_pos (hp.1 hcase)]
    exact h hcase
  · rw [if_neg hcase, if_neg fun h => hcase (hp.2 h)]
    exact h' hcase

end Abreast

/-- What is read of a text, and of the same text with a comment behind it that counts for nothing. -/
inductive Calm (t s : List Char) (src : Source) : Option Read → Option Read → Prop
  | nothing : Calm t s src none none
  | found {token : Token} {rest : List Char} {blockWord : Bool} : token ∉ danglingSigns →
    Behind rest s → Calm t s src (some ⟨token, src.after rest, blockWord⟩)
      (some ⟨token, (src.before t).after (rest ++ t), blockWord⟩)
  | ends : Calm t s src (some ⟨.endOfCode, src.after [], false⟩)
    (some ⟨.endOfCode, (src.before t).after [], false⟩)

namespace Calm

variable {t s s' : List Char} {src : Source} {a a' b b' : Option Read}

theorem of_suffix (h : Calm t s src a b) (hs : s <:+ s') : Calm t s' src a b := by
  cases h with
  | nothing => exact .nothing
  | found hr hrest => exact .found hr (hrest.trans_suffix hs)
  | ends => exact .ends

theorem or (h : Calm t s src a b) (h' : Calm t s src a' b') : Calm t s src (a.or a') (b.or b') := by
  cases h with
  | nothing => exact h'
  | found hr hrest => exact .found hr hrest
  | ends => exact .ends

theorem ite {p p' : Prop} [Decidable p] [Decidable p'] (hp : p ↔ p') (h : p → Calm t s src a b)
    (h' : ¬ p → Calm t s src a' b') :
    Calm t s src (if p then a else a') (if p' then b else b') := by
  by_cases hcase : p
  · rw [if_pos hcase, if_pos (hp.1 hcase)]
    exact h hcase
  · rw [if_neg hcase, if_neg fun h => hcase (hp.2 h)]
    exact h' hcase

theorem abreast (h : Calm t s src a b) (hsrc : src.Sane) : Abreast t s a b := by
  cases h with
  | nothing => exact .nothing
  | @found token rest blockWord _ hrest =>
    exact .alike (r := ⟨token, src.after rest, blockWord⟩) hrest (hsrc.after rest)
  | ends => exact .ends rfl rfl

end Calm

section Signs

variable {t : List Char} (ht : Remark t) (expects : Expected) {src : Source} (hsrc : src.Sane)
variable (spaced : Bool)
include ht hsrc

omit ht in
theorem abreast_found {c : Char} (rest : List Char) (token : Token) :
    Abreast t (c :: rest) (some { token, source := src.after rest })
      (some { token, source := (src.before t).after (rest ++ t) }) :=
  .alike (r := { token, source := src.after rest }) (.of_suffix c List.suffix_rfl) (hsrc.after rest)

theorem abreast_readAmpersand (rest : List Char) :
    Abreast t ('&' :: rest) (readAmpersand expects src rest)
      (readAmpersand expects (src.before t) (rest ++ t)) := by
  have hfound := abreast_found (t := t) (c := '&') hsrc rest .blockAmpersand
  unfold readAmpersand
  cases rest with
  | nil =>
    obtain ⟨b, u, rfl, hb⟩ := ht.exists_cons
    cases hexpects : expects .blockAmpersand with
    | false => simpa [hexpects] using .nothing
    | true => simpa [hexpects] using .dangling (by simp [danglingSigns]) rfl
  | cons c rest => exact .ite Iff.rfl (fun _ => hfound) fun _ => .nothing

theorem abreast_readStars {c : Char} (operator : Token) {splat : Token}
    (hsplat : splat ∈ danglingSigns) (rest : List Char) :
    Abreast t (c :: rest) (readStars expects src spaced operator splat rest)
      (readStars expects (src.before t) spaced operator splat (rest ++ t)) := by
  have hfound := abreast_found (t := t) (c := c) hsrc rest
  unfold readStars
  cases rest with
  | nil =>
    obtain ⟨b, u, rfl, hb⟩ := ht.exists_cons
    have hassign := ne_of_isBlank hb (show isBlank '=' = false by decide)
    refine .ite (by simp [hassign]) (fun _ => .nothing) fun _ => ?_
    refine .ite Iff.rfl (fun _ => hfound operator) fun _ => ?_
    -- a splat that nothing stands behind
    cases hs : expects splat with
    | true => simpa [standsNextTo] using .dangling hsplat rfl
    | false => simpa [standsNextTo] using .ite Iff.rfl (fun _ => hfound operator) fun _ => .nothing
  | cons d rest =>
    refine .ite Iff.rfl (fun _ => .nothing) fun _ => ?_
    refine .ite Iff.rfl (fun _ => hfound operator) fun _ => ?_
    refine .ite Iff.rfl (fun _ => hfound splat) fun _ => ?_
    refine .ite Iff.rfl (fun _ => hfound operator) fun _ => ?_
    exact .ite Iff.rfl (fun _ => hfound splat) fun _ => .nothing

theorem abreast_readMinus (rest : List Char) :
    Abreast t ('-' :: rest) (readMinus expects src spaced rest)
      (readMinus expects (src.before t) spaced (rest ++ t)) := by
  have hfound := abreast_found (t := t) (c := '-') hsrc rest
  unfold readMinus
  cases rest with
  | nil =>
    obtain ⟨b, u, rfl, hb⟩ := ht.exists_cons
    have hassign := ne_of_isBlank hb (show isBlank '=' = false by decide)
    have hgreater := ne_of_isBlank hb (show isBlank '>' = false by decide)
    refine .ite (by simp [hassign, hgreater]) (fun _ => .nothing) fun _ => ?_
    refine .ite (by simp [isDigit_of_isBlank hb]) (fun _ => hfound .numberMinus) fun _ => ?_
    have hstands : ¬ (spaced && standsNextTo ([] ++ b :: u) && expects .unaryMinus) = true := by
      simp [standsNextTo, isSpace_of_isBlank hb]
    by_cases hunary : (spaced && standsNextTo [] && expects .unaryMinus) = true
    · -- an operand is missing behind the one sign and the other
      have hexpects : (expects .unaryMinus || expects .numberMinus) = true := by
        rw [(Bool.and_eq_true_iff.1 hunary).2, Bool.true_or]
      rw [if_pos hunary, if_neg hstands]
      by_cases hbinary : expects .binaryMinus = true
      · rw [if_pos hbinary]
        exact .minus rfl (hsrc.after [])
      · rw [if_neg hbinary, if_pos hexpects]
        exact hfound .unaryMinus
    · rw [if_neg hunary, if_neg hstands]
      refine .ite Iff.rfl (fun _ => hfound .binaryMinus) fun _ => ?_
      exact .ite Iff.rfl (fun _ => hfound .unaryMinus) fun _ => .nothing
  | cons d rest =>
    refine .ite Iff.rfl (fun _ => .nothing) fun _ => ?_
    refine .ite Iff.rfl (fun _ => hfound .numberMinus) fun _ => ?_
    refine .ite Iff.rfl (fun _ => hfound .unaryMinus) fun _ => ?_
    refine .ite Iff.rfl (fun _ => hfound .binaryMinus) fun _ => ?_
    exact .ite Iff.rfl (fun _ => hfound .unaryMinus) fun _ => .nothing

theorem abreast_readSymbol (rest : List Char) :
    Abreast t (':' :: rest) (readSymbol expects src rest)
      (readSymbol expects (src.before t) (rest ++ t)) := by
  have hopens (q : Char) (hq : isBlank q = false) (interpolates : Bool) (h : rest.head? = some q) :
      let d := quotedBy .symbolStart q interpolates
      Abreast t (':' :: rest)
        (some { token := .symbolStart, source := src.opening d (rest.drop 1) })
        (some { token := .symbolStart, source := (src.before t).opening d ((rest ++ t).drop 1) }) := by
    intro d
    obtain ⟨u, rfl⟩ := List.head?_eq_some_iff.1 h
    exact .alike (r := ⟨.symbolStart, src.opening d u, false⟩) (.of_suffix _ (List.suffix_cons q u))
      (hsrc.opening (sane_quotedBy .symbolStart (by simp) hq interpolates) u)
  have hplain : Abreast t (':' :: rest)
      ((afterSymbol rest).map fun r => { token := .plainSymbol, source := src.after r })
      ((afterSymbol (rest ++ t)).map fun r =>
        { token := .plainSymbol, source := (src.before t).after r }) := by
    obtain ⟨b, u, rfl, hb⟩ := ht.exists_cons
    rw [afterSymbol_append hb]
    cases hr : afterSymbol rest with
    | none => exact .nothing
    | some r =>
      exact .alike (r := { token := .plainSymbol, source := src.after r })
        ((behind_afterSymbol hr).trans_suffix (List.suffix_cons ':' rest)) (hsrc.after r)
  have hdouble := ht.head?_append_beq (c := '"') (by decide) rest
  have hsingle := ht.head?_append_beq (c := '\'') (by decide) rest
  refine .ite Iff.rfl (fun _ => .nothing) fun _ => ?_
  refine .ite (by rw [hdouble]) (fun h => ?_) fun _ => ?_
  · exact hopens '"' (by decide) true (beq_iff_eq.1 h)
  refine .ite (by rw [hsingle]) (fun h => ?_) fun _ => hplain
  exact hopens '\'' (by decide) false (beq_iff_eq.1 h)

omit ht hsrc in
theorem calm_suffixed {s : List Char} {kind : Token} (hkind : kind ∉ danglingSigns)
    {suffix : Option (List Char)} (hsuffix : ∀ v, suffix = some v → Behind v s) :
    Calm t s src (readSuffixed.suffixed expects src kind suffix)
      (readSuffixed.suffixed expects (src.before t) kind (suffix.map (· ++ t))) := by
  cases suffix with
  | none => exact .nothing
  | some v => exact .ite Iff.rfl (fun _ => .found hkind (hsuffix v rfl)) fun _ => .nothing

omit hsrc in
theorem calm_readEnded {s : List Char} {kind : Token} (hkind : kind ∉ danglingSigns)
    {suffix : Option (List Char)} (hsuffix : ∀ v, suffix = some v → Behind v s) {rest : List Char}
    (hrest : Behind rest s) : Calm t s src (readEnded expects src kind suffix rest)
      (readEnded expects (src.before t) kind (suffix.map (· ++ t)) (rest ++ t)) := by
  have hcolon (v : List Char) := ht.head?_append_iff (c := ':') (by decide) v
  refine .ite ?_ (fun _ => .found (by decide) hrest) fun _ => calm_suffixed expects hkind hsuffix
  rw [hcolon]
  refine and_congr_right fun hc => ?_
  obtain ⟨v, rfl⟩ := List.head?_eq_some_iff.1 hc
  exact and_congr_left' (not_congr (hcolon v).symm)

omit hsrc in
theorem calm_readSuffixed (s : List Char) :
    Calm t s src (readSuffixed expects src s) (readSuffixed expects (src.before t) (s ++ t)) := by
  obtain ⟨b, u, rfl, hb⟩ := ht.exists_cons
  rw [readSuffixed_eq, readSuffixed_eq, readWord_append hb]
  cases hw : readWord s with
  | none => exact .nothing
  | some x =>
    obtain ⟨w, r⟩ := x
    have hr := behind_readWord hw
    have hsame : suffixedKind (s ++ b :: u) = suffixedKind s := by
      obtain ⟨c, s, rfl⟩ := List.exists_cons_of_ne_nil (l := s) (by rintro rfl; simp [readWord] at hw)
      rfl
    have hkind : suffixedKind s ∉ danglingSigns := by
      unfold suffixedKind
      split <;> decide
    have hsuffix (v : List Char) (hv : wordSuffix w r = some v) : Behind v s :=
      .suffix_trans (wordSuffix_suffix hv) hr
    have hrest : Behind ((wordSuffix w r).getD r) s := by
      cases hv : wordSuffix w r with
      | none => exact hr
      | some v => exact hsuffix v hv
    have hmore : ((wordSuffix w r).map (· ++ b :: u)).getD (r ++ b :: u) =
        (wordSuffix w r).getD r ++ b :: u := by
      cases wordSuffix w r <;> rfl
    rw [Option.map_some, Option.bind_some, Option.bind_some, wordSuffix_append ht, hmore, hsame]
    exact calm_readEnded ht expects hkind hsuffix hrest

end Signs

end ErbLayout.Ruby
