import ErbLayout.Proofs.Ruby.Trailing
/-!
Delimited texts and here-documents in code with a comment behind it: they open alike, and a stretch of
one stops alike, unless it reaches into the comment.
-/

namespace ErbLayout.Ruby

/-- What is cut off the front of a text, and of the same text with a comment behind it, where the cut
may be in the comment. -/
inductive Cut {α : Type} (P : α → Prop) (Q : α → List Char → Prop) (t s : List Char) :
    Option (α × List Char) → Option (α × List Char) → Prop
  | nothing : Cut P Q t s none none
  | alike {x : α} {r : List Char} : P x → r <:+ s → Cut P Q t s (some (x, r)) (some (x, r ++ t))
  | past {found : Option (α × List Char)} {x : α} {r : List Char} : Q x r →
    Cut P Q t s found (some (x, r))

namespace Cut

variable {α : Type} {P : α → Prop} {Q : α → List Char → Prop} {t s s' : List Char}
variable {a a' b b' : Option (α × List Char)}

theorem of_suffix (h : Cut P Q t s a b) (hs : s <:+ s') : Cut P Q t s' a b := by
  cases h with
  | nothing => exact .nothing
  | alike hx hr => exact .alike hx (hr.trans hs)
  | past hr => exact .past hr

theorem ite {p : Prop} [Decidable p] (h : p → Cut P Q t s a b) (h' : ¬ p → Cut P Q t s a' b') :
    Cut P Q t s (if p then a else a') (if p then b else b') := by
  by_cases hp : p
  · rw [if_pos hp, if_pos hp]
    exact h hp
  · rw [if_neg hp, if_neg hp]
    exact h' hp

end Cut

/-- What announces a here-document, where it may be announced in the comment. -/
abbrev CutHereDoc (t : List Char) :=
  Cut (fun h : HereDoc => h.begun = false) (fun _ r => r.length < t.length) t

/-- What opens a delimited text, where it may be one that has no end. -/
abbrev CutDelimited := Cut Delimited.Sane fun d _ => d.start ≠ .endOfCode ∧ d.closing = none

section Stop

variable {p : Char → Bool} {c : Char} {s v : List Char} (h : s.dropWhile p = c :: v) (t : List Char)
include h

/-- A stretch that stops in a text stops there with more behind the text. -/
theorem takeWhile_append_of_stop : (s ++ t).takeWhile p = s.takeWhile p := by
  rw [List.takeWhile_append, if_neg]
  intro hlen
  have hsplit := List.takeWhile_append_dropWhile (p := p) (l := s)
  rw [(List.takeWhile_prefix p).eq_of_length hlen, h] at hsplit
  simpa using congrArg List.length hsplit

theorem dropWhile_append_of_stop : (s ++ t).dropWhile p = c :: (v ++ t) := by
  rw [List.dropWhile_append, h]
  rfl

end Stop

theorem cut_readEnding {t : List Char} (ht : Remark t) (indented : Bool) (s : List Char) :
    CutHereDoc t s (readEnding indented s) (readEnding indented (s ++ t)) := by
  obtain ⟨b, u, rfl, hb⟩ := ht.exists_cons
  have hword := isWordChar_of_isBlank hb
  rcases s with _ | ⟨q, s⟩
  · have hdouble : b ≠ '"' := ne_of_isBlank hb (by decide)
    have hsingle : b ≠ '\'' := ne_of_isBlank hb (by decide)
    have hback : b ≠ '`' := ne_of_isBlank hb (by decide)
    simpa [readEnding, hdouble, hsingle, hback, hword] using .nothing
  rw [List.cons_append, readEnding, readEnding]
  by_cases hq : (q == '"' || q == '\'' || q == '`') = true
  · have hbq : b ≠ q := by
      refine ne_of_isBlank hb ?_
      simp only [Bool.or_eq_true, beq_iff_eq] at hq
      rcases hq with (rfl | rfl) | rfl <;> decide
    rw [if_pos hq, if_pos hq, List.span_eq_takeWhile_dropWhile, List.span_eq_takeWhile_dropWhile]
    cases hd : s.dropWhile (· != q) with
    | nil =>
      have hall := List.dropWhile_eq_nil_iff.1 hd
      have htake : (s ++ b :: u).takeWhile (· != q) = s ++ b :: u.takeWhile (· != q) := by
        rw [List.takeWhile_append_of_pos hall]
        simp [hbq]
      have hdrop : (s ++ b :: u).dropWhile (· != q) = u.dropWhile (· != q) := by
        rw [List.dropWhile_append_of_pos hall]
        simp [hbq]
      have hlen := (List.dropWhile_suffix (l := u) (· != q)).length_le
      rw [htake, hdrop]
      have hpast : ((u.dropWhile (· != q)).drop 1).length < (b :: u).length := by
        rw [List.length_drop, List.length_cons]
        omega
      dsimp only
      rw [if_neg (c := (s ++ b :: u.takeWhile (· != q)).isEmpty = true) (by simp)]
      exact .past hpast
    | cons c v =>
      have hv : v <:+ q :: s :=
        ((List.suffix_cons c v).trans (hd ▸ List.dropWhile_suffix _)).trans (List.suffix_cons q s)
      rw [takeWhile_append_of_stop hd, dropWhile_append_of_stop hd]
      exact .ite (fun _ => .nothing) fun _ => .alike rfl hv
  · rw [if_neg hq, if_neg hq, ← List.cons_append, List.span_eq_takeWhile_dropWhile,
      List.span_eq_takeWhile_dropWhile, Text.takeWhile_append_cons hword,
      Text.dropWhile_append_cons hword]
    dsimp only
    exact .ite (fun _ => .nothing) fun _ => .alike rfl (List.dropWhile_suffix _)

theorem percentKinds_start : ∀ x ∈ percentKinds, x.2.1 ≠ .endOfCode := by decide

/-- The signs that a token is told by which has a rule of its own. -/
def placedSigns : List Char := ['&', '*', '-', ':', '[', '<']

section Openings

variable {t : List Char} (ht : Remark t) (s : List Char)
include ht

theorem cut_announced : CutHereDoc t s (announced s) (announced (s ++ t)) := by
  rcases s with _ | ⟨c, s⟩
  · have hplain : announced t = readEnding false t := by
      obtain ⟨b, u, rfl, hb⟩ := ht.exists_cons
      rcases blank_cases hb with rfl | rfl <;> rfl
    rw [List.nil_append, hplain]
    exact cut_readEnding ht false []
  by_cases hindents : c = '~' ∨ c = '-'
  · have hind (u : List Char) : announced (c :: u) = readEnding true u := by
      rcases hindents with rfl | rfl <;> rfl
    rw [List.cons_append, hind, hind]
    exact (cut_readEnding ht true s).of_suffix (List.suffix_cons c s)
  · rw [not_or] at hindents
    have hplain (u : List Char) : announced (c :: u) = readEnding false (c :: u) := by
      simp [announced, hindents]
    rw [List.cons_append, hplain, hplain]
    exact cut_readEnding ht false (c :: s)

theorem cut_percentDelimiter {start : Token} (hstart : start ≠ .endOfCode)
    (interpolates remainder : Bool) :
    CutDelimited t s (percentDelimiter start interpolates remainder s)
      (percentDelimiter start interpolates remainder (s ++ t)) := by
  rcases s with _ | ⟨c, s⟩
  · obtain ⟨b, u, rfl, hb⟩ := ht.exists_cons
    have hdelimiter : percentDelimiter start interpolates remainder (b :: u) =
        if remainder then none else some (⟨start, none, none, 1, interpolates⟩, u) := by
      rcases blank_cases hb with rfl | rfl <;> rfl
    rw [List.nil_append, hdelimiter]
    cases remainder with
    | true => exact .nothing
    | false => exact .past ⟨hstart, rfl⟩
  have hs := List.suffix_cons c s
  have hclosed (opening : Option Char) {closing : Char} (hclosing : isBlank closing = false) :
      Delimited.Sane ⟨start, opening, some closing, 1, interpolates⟩ :=
    ⟨hstart, closing, rfl, hclosing⟩
  by_cases hbracket : c = '(' ∨ c = '[' ∨ c = '{' ∨ c = '<'
  · rcases hbracket with rfl | rfl | rfl | rfl
    all_goals exact .alike (hclosed _ (by decide)) hs
  · simp only [not_or] at hbracket
    have hplain (u : List Char) : percentDelimiter start interpolates remainder (c :: u) =
        if c == ' ' || c == '\t' || c == '\n' || c == '\r' then
          if remainder then none else some (⟨start, none, none, 1, interpolates⟩, u)
        else if c == '=' && remainder then none
        else if "|!#/\\@$%^&)]>=+-~`,.?:;_\"'*".toList.contains c || c == '}' then
          some (⟨start, none, some c, 1, interpolates⟩, u)
        else none := by
      rw [percentDelimiter] <;> simp [hbracket]
    rw [List.cons_append, hplain, hplain]
    refine .ite (fun _ => .ite (fun _ => .nothing) fun _ => .past ⟨hstart, rfl⟩) fun hspace => ?_
    refine .ite (fun _ => .nothing) fun _ => .ite (fun _ => ?_) fun _ => .nothing
    simp only [Bool.or_eq_true, beq_iff_eq, not_or] at hspace
    exact .alike (hclosed none (by simp [isBlank, hspace])) hs

theorem cut_percentLiteral (expects : Expected) :
    CutDelimited t s (percentLiteral expects s) (percentLiteral expects (s ++ t)) := by
  have hstring : (Token.stringStart : Token) ≠ .endOfCode := by decide
  rcases s with _ | ⟨c, s⟩
  · obtain ⟨b, u, rfl, hb⟩ := ht.exists_cons
    have hliteral : percentLiteral expects (b :: u) =
        percentDelimiter .stringStart true (expects .slash) (b :: u) := by
      rcases blank_cases hb with rfl | rfl <;> rfl
    rw [List.nil_append, hliteral]
    exact cut_percentDelimiter ht [] hstring true (expects .slash)
  · rw [List.cons_append, percentLiteral, percentLiteral]
    cases hkind : percentKinds.lookup c with
    | none => exact cut_percentDelimiter ht (c :: s) hstring true (expects .slash)
    | some kind =>
      refine .ite (fun _ => ?_) fun _ => .nothing
      have hstart := percentKinds_start (c, kind) (mem_of_lookup hkind)
      exact (cut_percentDelimiter ht s hstart kind.2 _).of_suffix (List.suffix_cons c s)

variable (expects : Expected) {src : Source} (hsrc : src.Sane) (spaced : Bool)
include hsrc

theorem abreast_readHereDoc (c : Char) : Abreast t (c :: s) (readHereDoc expects src spaced s)
    (readHereDoc expects (src.before t) spaced (s ++ t)) := by
  have hannounced := cut_announced ht s
  unfold readHereDoc
  generalize announced s = a at hannounced
  generalize announced (s ++ t) = b at hannounced
  have hbegun {h : HereDoc} (hh : h.begun = false) :
      ∀ h' ∈ src.hereDocs ++ [h], h'.begun = false :=
    List.forall_mem_append.2 ⟨hsrc.begun, by simpa using hh⟩
  cases hannounced with
  | nothing => exact .nothing
  | @alike h r hh hr =>
    refine .ite Iff.rfl (fun _ => ?_) fun _ => .nothing
    exact .alike
      (r := ⟨.hereDocStart, { src with rest := r, hereDocs := src.hereDocs ++ [h] }, false⟩)
      (.of_suffix c hr) ⟨hsrc.delimited, hbegun hh⟩
  | @past a h r hr =>
    by_cases hexpects : (expects .stringStart && (spaced || !expects .shiftLeft)) = true
    · simp only [hexpects, if_true]
      exact .taken (Read.not_spares_of_length (by simp) hr)
    · simp only [hexpects]
      cases a <;> exact .nothing

omit ht in
theorem Cut.abreast {a b : Option (Delimited × List Char)} (h : CutDelimited t s a b)
    (c : Char) : Abreast t (c :: s)
      (a.map fun (d, rest) => { token := d.start, source := src.opening d rest })
      (b.map fun (d, rest) => { token := d.start, source := (src.before t).opening d rest }) := by
  cases h with
  | nothing => exact .nothing
  | @alike d r hd hr =>
    exact .alike (r := { token := d.start, source := src.opening d r }) (.of_suffix c hr)
      (hsrc.opening hd r)
  | past hd => exact .taken (Read.not_spares_of_mem hd.1 List.mem_cons_self hd.2)

theorem abreast_openSlash : Abreast t ('/' :: s) (readOpening expects src spaced ('/' :: s))
    (readOpening expects (src.before t) spaced ('/' :: (s ++ t))) := by
  have hsane := sane_quotedBy .regexStart (q := '/') (by simp) (by decide) true
  unfold readOpening
  refine .ite Iff.rfl (fun _ => ?_) fun _ => .nothing
  rcases s with _ | ⟨c, s⟩
  · obtain ⟨b, u, rfl, hb⟩ := ht.exists_cons
    have hstands : standsNextTo (b :: u) = false := by simp [standsNextTo, isSpace_of_isBlank hb]
    rw [List.nil_append, openDelimited, openDelimited, hstands]
    -- the slash would open a regular expression that nothing stands in
    by_cases hopens : (expects .regexStart && !(expects .slash && !spaced)) = true
    · have hslash : (expects .regexStart && !(expects .slash &&
          !(spaced && standsNextTo [] && ([] : List Char).head? != some '='))) = true := by
        simpa [standsNextTo] using hopens
      rw [if_pos hslash]
      exact .opened (by simp [Source.opening]) rfl
    · have hslash : ¬ (expects .regexStart && !(expects .slash &&
          !(spaced && standsNextTo [] && ([] : List Char).head? != some '='))) = true := by
        simpa [standsNextTo] using hopens
      have hslash' : ¬ (expects .regexStart && !(expects .slash &&
          !(spaced && false && (b :: u).head? != some '='))) = true := by
        cases h : expects .regexStart <;> cases h' : expects .slash <;> simp [h, h'] at hopens ⊢
      rw [if_neg hslash, if_neg hslash']
      exact .nothing
  · refine Cut.abreast (c :: s) hsrc ?_ '/'
    exact .ite (fun _ => .alike hsane List.suffix_rfl) fun _ => .nothing

theorem abreast_readOpening (hs : s ≠ []) : Abreast t s (readOpening expects src spaced s)
    (readOpening expects (src.before t) spaced (s ++ t)) := by
  obtain ⟨c, s, rfl⟩ := List.exists_cons_of_ne_nil hs
  by_cases hslash : c = '/'
  · subst hslash
    exact abreast_openSlash ht s expects hsrc spaced
  unfold readOpening
  refine .ite Iff.rfl (fun _ => ?_) fun _ => .nothing
  refine Cut.abreast s hsrc ?_ c
  have hrest := List.suffix_rfl (l := s)
  by_cases hdouble : c = '"'
  · subst hdouble
    exact .alike (sane_quotedBy _ (by simp) (by decide) true) hrest
  by_cases hsingle : c = '\''
  · subst hsingle
    exact .alike (sane_quotedBy _ (by simp) (by decide) false) hrest
  by_cases hback : c = '`'
  · subst hback
    exact .ite (fun _ => .alike (sane_quotedBy _ (by simp) (by decide) true) hrest) fun _ => .nothing
  by_cases hpercent : c = '%'
  · subst hpercent
    exact cut_percentLiteral ht s expects
  · simpa [openDelimited, hslash, hdouble, hsingle, hback, hpercent] using .nothing

omit ht hsrc in
theorem readPlaced_star {rest : List Char} (h : rest.head? ≠ some '*') :
    readPlaced expects src spaced ('*' :: rest) =
      readStars expects src spaced .binaryStar .splatStar rest := by
  rw [readPlaced]
  rintro v rfl
  exact h rfl

omit ht hsrc in
theorem readPlaced_less {rest : List Char} (h : rest.head? ≠ some '<') :
    readPlaced expects src spaced ('<' :: rest) = readOpening expects src spaced ('<' :: rest) := by
  cases rest with
  | nil => rfl
  | cons d u =>
    have hd : d ≠ '<' := fun hd => h (congrArg some hd)
    have hstart : isWordStart '<' = false := by decide
    simp [readPlaced, hd, hstart]

omit ht hsrc in
theorem readPlaced_plain {c : Char} (hc : c ∉ placedSigns) (rest : List Char) :
    readPlaced expects src spaced (c :: rest) =
      if isWordStart c then readSuffixed expects src (c :: rest)
      else readOpening expects src spaced (c :: rest) := by
  simp only [placedSigns, List.mem_cons, List.not_mem_nil, or_false, not_or] at hc
  rw [readPlaced] <;> simp [hc]

theorem abreast_placedStar (rest : List Char) :
    Abreast t ('*' :: rest) (readPlaced expects src spaced ('*' :: rest))
      (readPlaced expects (src.before t) spaced ('*' :: (rest ++ t))) := by
  by_cases hrest : rest.head? = some '*'
  · obtain ⟨v, rfl⟩ := List.head?_eq_some_iff.1 hrest
    have htwo := abreast_readStars (c := '*') ht expects hsrc spaced .binaryStars
      (show .hashSplatStars ∈ danglingSigns by simp [danglingSigns]) v
    exact htwo.of_suffix (List.suffix_cons '*' _)
  · have hone := abreast_readStars (c := '*') ht expects hsrc spaced .binaryStar
      (show .splatStar ∈ danglingSigns by simp [danglingSigns]) rest
    have hmore := mt (ht.head?_append_iff (by decide) rest).1 hrest
    rw [readPlaced_star _ _ hrest, readPlaced_star _ _ hmore]
    exact hone

theorem abreast_placedLess (rest : List Char) :
    Abreast t ('<' :: rest) (readPlaced expects src spaced ('<' :: rest))
      (readPlaced expects (src.before t) spaced ('<' :: (rest ++ t))) := by
  by_cases hrest : rest.head? = some '<'
  · obtain ⟨v, rfl⟩ := List.head?_eq_some_iff.1 hrest
    refine .ite Iff.rfl (fun _ => ?_) fun _ => ?_
    · exact (abreast_found (c := '<') hsrc v .singletonSign).of_suffix (List.suffix_cons '<' _)
    · exact (abreast_readHereDoc ht v expects hsrc spaced '<').of_suffix (List.suffix_cons '<' _)
  · have hmore := mt (ht.head?_append_iff (by decide) rest).1 hrest
    rw [readPlaced_less _ _ hrest, readPlaced_less _ _ hmore]
    exact abreast_readOpening ht ('<' :: rest) expects hsrc spaced (by simp)

theorem abreast_readPlaced (hs : s ≠ []) : Abreast t s (readPlaced expects src spaced s)
    (readPlaced expects (src.before t) spaced (s ++ t)) := by
  obtain ⟨c, s, rfl⟩ := List.exists_cons_of_ne_nil hs
  rw [List.cons_append]
  by_cases hc : c ∈ placedSigns
  · simp only [placedSigns, List.mem_cons, List.not_mem_nil, or_false] at hc
    rcases hc with rfl | rfl | rfl | rfl | rfl | rfl
    · exact abreast_readAmpersand ht expects hsrc s
    · exact abreast_placedStar ht expects hsrc spaced s
    · exact abreast_readMinus ht expects hsrc spaced s
    · exact abreast_readSymbol ht expects hsrc s
    · exact .ite Iff.rfl (fun _ => abreast_found hsrc s .subscriptBracket) fun _ => .nothing
    · exact abreast_placedLess ht expects hsrc spaced s
  · rw [readPlaced_plain _ _ hc, readPlaced_plain _ _ hc]
    exact .ite Iff.rfl (fun _ => (calm_readSuffixed ht expects (c :: s)).abreast hsrc)
      fun _ => abreast_readOpening ht (c :: s) expects hsrc spaced (by simp)

end Openings

/-! Stretches of delimited text -/

/-- The text after a stretch, if the stretch stops. -/
def Stop.remaining : Stop → Option (List Char)
  | .closing rest => some rest
  | .shortCode rest _ => some rest
  | .other rest _ => some rest
  | .unclosed => none

/-- Where a stretch of text stops, and where it stops with a comment behind it. -/
inductive Halt (t s : List Char) : Stop → Stop → Prop
  | closing {c : Char} {r : List Char} : c :: r <:+ s →
    Halt t s (.closing (c :: r)) (.closing (c :: (r ++ t)))
  | shortCode {c : Char} {r : List Char} {depth : Nat} : c :: r <:+ s →
    Halt t s (.shortCode (c :: r) depth) (.shortCode (c :: (r ++ t)) depth)
  | other {r : List Char} {depth : Nat} : r <:+ s → Halt t s (.other r depth) (.other (r ++ t) depth)
  | past {stop : Stop} : (∀ r, stop.remaining = some r → r.length < t.length) →
    Halt t s .unclosed stop

namespace Halt

variable {t s s' : List Char} {a a' b b' : Stop}

theorem of_suffix (h : Halt t s a b) (hs : s <:+ s') : Halt t s' a b := by
  cases h with
  | closing hr => exact .closing (hr.trans hs)
  | shortCode hr => exact .shortCode (hr.trans hs)
  | other hr => exact .other (hr.trans hs)
  | past hr => exact .past hr

theorem ite {p p' : Prop} [Decidable p] [Decidable p'] (hp : p ↔ p') (h : p → Halt t s a b)
    (h' : ¬ p → Halt t s a' b') : Halt t s (if p then a else a') (if p' then b else b') := by
  by_cases hcase : p
  · rw [if_pos hcase, if_pos (hp.1 hcase)]
    exact h hcase
  · rw [if_neg hcase, if_neg fun h => hcase (hp.2 h)]
    exact h' hcase

end Halt

/-- A stretch of text by its first character. -/
theorem stop_cons (d : Delimited) (fresh : Bool) (depth : Nat) (c : Char) (s : List Char) :
    d.stop fresh depth (c :: s) =
      if some c == d.closing then
        if depth ≤ 1 then .closing (c :: s) else d.stop false (depth - 1) s
      else if some c == d.opening then d.stop false (depth + 1) s
      else if d.interpolates && c == '#' then
        if s.head? == some '{' then .other (c :: s) depth
        else if beginsVariable s && (!fresh || isShortCode s) then .shortCode (c :: s) depth
        else d.stop false depth s
      else if c == '\\' then
        if d.interpolates then .other (c :: s) depth
        else if s.isEmpty then .unclosed
        else d.stop false depth s.tail
      else d.stop false depth s := by
  cases s <;> rw [Delimited.stop] <;> rfl

theorem remaining_stop_suffix {d : Delimited} {fresh : Bool} {depth : Nat} {s r : List Char}
    (h : (d.stop fresh depth s).remaining = some r) : r <:+ s := by
  fun_induction Delimited.stop d fresh depth s with
  | case1 | case3 | case6 | case7 | case9 => exact Option.some.inj h ▸ List.suffix_rfl
  | case2 | case10 => simp [Stop.remaining] at h
  | case4 fresh depth c s _ _ ih | case5 fresh depth c s _ _ ih | case8 fresh depth c s _ _ _ _ _ ih
  | case12 fresh depth c s _ _ _ _ ih => exact (ih h).trans (List.suffix_cons c s)
  | case11 fresh depth c _ _ _ _ _ e s ih =>
    exact ((ih h).trans (List.suffix_cons e s)).trans (List.suffix_cons c _)

section Stretches

variable {t : List Char} (ht : Remark t) {d : Delimited} (hd : d.Sane)
include ht

theorem isShortCode_append (s : List Char) : isShortCode (s ++ t) = isShortCode s := by
  obtain ⟨b, u, rfl, hb⟩ := ht.exists_cons
  have hat : b ≠ '@' := ne_of_isBlank hb (by decide)
  have hdollar : b ≠ '$' := ne_of_isBlank hb (by decide)
  have hminus : b ≠ '-' := ne_of_isBlank hb (by decide)
  have hstart := isWordStart_of_isBlank hb
  have hname := isNameChar_of_isBlank hb
  have hsign : b ∉ globalSigns := by
    rcases blank_cases hb with rfl | rfl <;> decide
  rcases s with _ | ⟨c, s⟩
  · simp [isShortCode, hat, hdollar]
  by_cases hc : c = '@'
  · subst hc
    rcases s with _ | ⟨e, s⟩
    · simp [isShortCode, hat, hstart]
    · by_cases he : e = '@'
      · subst he
        have hplain : isWordStart '@' = false := by decide
        cases s with
        | nil => simp [isShortCode, hstart, hplain]
        | cons f s => simp [isShortCode]
      · simp [isShortCode, he]
  by_cases hc' : c = '$'
  · subst hc'
    rcases s with _ | ⟨e, s⟩
    · simp [isShortCode, hminus, hsign, hname]
    · by_cases he : e = '-'
      · subst he
        have hplain : isShortCode ['$', '-'] = false := by decide
        cases s with
        | nil => simpa [isShortCode, hname] using hplain
        | cons f s => simp [isShortCode]
      · simp [isShortCode, he]
  · simp [isShortCode, hc, hc']

theorem beginsVariable_append (s : List Char) : beginsVariable (s ++ t) = beginsVariable s := by
  rw [beginsVariable, beginsVariable, ht.head?_append_beq (by decide),
    ht.head?_append_beq (by decide)]

include hd

/-- A stretch that begins in the comment leaves less of it. -/
theorem halt_nil (fresh : Bool) (depth : Nat) :
    Halt t [] (d.stop fresh depth []) (d.stop fresh depth t) := by
  obtain ⟨q, hq, hqb⟩ := hd.closing
  obtain ⟨b, u, rfl, hb⟩ := ht.exists_cons
  have hbq : b ≠ q := ne_of_isBlank hb hqb
  have hsign : b ≠ '#' := ne_of_isBlank hb (by decide)
  have hslash : b ≠ '\\' := ne_of_isBlank hb (by decide)
  have hstop : ∃ depth', d.stop fresh depth (b :: u) = d.stop false depth' u := by
    rw [stop_cons, hq]
    by_cases hopening : (some b == d.opening) = true
    · exact ⟨depth + 1, by simp [hbq, hopening]⟩
    · exact ⟨depth, by simp [hbq, hopening, hsign, hslash]⟩
  obtain ⟨depth', hstop⟩ := hstop
  rw [hstop, Delimited.stop, hq]
  exact .past fun r hr => Nat.lt_succ_of_le (remaining_stop_suffix hr).length_le

theorem halt_stop (fresh : Bool) (depth : Nat) : ∀ s : List Char,
    Halt t s (d.stop fresh depth s) (d.stop fresh depth (s ++ t))
  | [] => halt_nil ht hd fresh depth
  | c :: s => by
    have hs := List.suffix_cons c s
    have hrest (depth : Nat) : Halt t (c :: s) (d.stop false depth s) (d.stop false depth (s ++ t)) :=
      (halt_stop false depth s).of_suffix hs
    have hhead := ht.head?_append_beq (c := '{') (by decide) s
    rw [List.cons_append, stop_cons, stop_cons, hhead, beginsVariable_append ht,
      isShortCode_append ht]
    refine .ite Iff.rfl (fun _ => .ite Iff.rfl (fun _ => .closing List.suffix_rfl)
      fun _ => hrest _) fun _ => ?_
    refine .ite Iff.rfl (fun _ => hrest _) fun _ => ?_
    refine .ite Iff.rfl (fun _ => ?_) fun _ => ?_
    · refine .ite Iff.rfl (fun _ => .other List.suffix_rfl) fun _ => ?_
      exact .ite Iff.rfl (fun _ => .shortCode List.suffix_rfl) fun _ => hrest _
    · refine .ite Iff.rfl (fun _ => ?_) fun _ => hrest _
      refine .ite Iff.rfl (fun _ => .other List.suffix_rfl) fun _ => ?_
      cases s with
      | nil =>
        -- the backslash takes in the white space before the comment
        obtain ⟨b, u, rfl, hb⟩ := ht.exists_cons
        exact .past fun r hr => Nat.lt_succ_of_le (remaining_stop_suffix hr).length_le
      | cons e s => exact (halt_stop false depth s).of_suffix ((List.suffix_cons e s).trans hs)

omit ht hd in
/-- What a stretch has passed over is plain text, if it is anything. -/
theorem abreast_content (src : Source) {rest : List Char} (hrest : rest <:+ src.rest)
    {delimited : List Delimited} (hsrc : Source.Sane { src with rest, delimited }) :
    Abreast t src.rest
      (if rest.length < src.rest.length then
        some ⟨.stringContent, { src with rest, delimited }, false⟩ else none)
      (if (rest ++ t).length < (src.before t).rest.length then
        some ⟨.stringContent, { src.before t with rest := rest ++ t, delimited }, false⟩ else none) :=
  .ite (by simp [Source.before])
    (fun hlen => .alike (r := ⟨.stringContent, { src with rest, delimited }, false⟩) ⟨hrest, hlen⟩ hsrc)
    fun _ => .nothing

omit hd in
theorem abreast_readDelimited {src : Source} (hsrc : src.Sane) :
    Abreast t src.rest (readDelimited src) (readDelimited (src.before t)) := by
  obtain ⟨rest, delimited, hereDocs⟩ := src
  rcases delimited with _ | ⟨d, outer⟩
  · exact .nothing
  have hd : d.Sane := hsrc.delimited d List.mem_cons_self
  have houter : ∀ e ∈ outer, e.Sane := fun e he => hsrc.delimited e (List.mem_cons_of_mem d he)
  have hdepth (depth : Nat) : ∀ e ∈ { d with depth } :: outer, Delimited.Sane e :=
    List.forall_mem_cons.2 ⟨⟨hd.start, hd.closing⟩, houter⟩
  have hcontent {u : List Char} (hu : u <:+ rest) (depth : Nat) :=
    abreast_content (t := t) ⟨rest, d :: outer, hereDocs⟩ hu ⟨hdepth depth, hsrc.begun⟩
  have htaken {u : List Char} (hu : u.length < t.length) (depth : Nat) (found other : Option Read) :
      Abreast t rest found ((if u.length < (rest ++ t).length then
        some ⟨.stringContent, ⟨u, { d with depth } :: outer, hereDocs⟩, false⟩ else none).or other) := by
    rw [if_pos (by rw [List.length_append]; omega)]
    exact .taken (Read.not_spares_of_length (by simp) hu)
  have hhalt := halt_stop ht hd true d.depth rest
  unfold readDelimited Source.before
  dsimp only
  generalize d.stop true d.depth rest = a at hhalt
  generalize d.stop true d.depth (rest ++ t) = b at hhalt
  cases hhalt with
  | @closing c r hr =>
    refine (hcontent hr 1).or ?_
    have hbehind : Behind r rest := (Behind.of_suffix c List.suffix_rfl).trans_suffix hr
    have hsmall : (r ++ t).dropWhile isSmall = r.dropWhile isSmall ++ t := by
      obtain ⟨b, u, rfl, hb⟩ := ht.exists_cons
      exact Text.dropWhile_append_cons (isSmall_of_isBlank hb) r u
    rw [List.drop_one, List.drop_one, List.tail_cons, List.tail_cons, hsmall]
    by_cases hstart : d.start = .regexStart
    · rw [if_pos hstart, if_pos hstart]
      exact .alike (r := ⟨.stringEnd, ⟨r.dropWhile isSmall, outer, hereDocs⟩, false⟩)
        (.suffix_trans (List.dropWhile_suffix _) hbehind) ⟨houter, hsrc.begun⟩
    · rw [if_neg hstart, if_neg hstart]
      exact .alike (r := ⟨.stringEnd, ⟨r, outer, hereDocs⟩, false⟩) hbehind ⟨houter, hsrc.begun⟩
  | @shortCode c r depth hr =>
    refine (hcontent hr depth).or ?_
    exact .alike (r := ⟨.shortInterpolation, ⟨r, d :: outer, hereDocs⟩, false⟩)
      ((Behind.of_suffix c List.suffix_rfl).trans_suffix hr) ⟨hsrc.delimited, hsrc.begun⟩
  | @other r depth hr => exact hcontent hr depth
  | @past b hb =>
    cases b with
    | closing r => exact htaken (hb r rfl) 1 none _
    | shortCode r depth => exact htaken (hb r rfl) depth none _
    | other r depth => simpa using htaken (hb r rfl) depth none none
    | unclosed => exact .nothing

end Stretches

end ErbLayout.Ruby
