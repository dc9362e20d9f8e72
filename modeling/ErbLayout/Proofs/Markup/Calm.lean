import ErbLayout.Proofs.Erb.Rebuilt
import ErbLayout.Proofs.Markup.Reread
import ErbLayout.Proofs.Markup.Strays
/-!
Text between tokens in which no `<` begins anything, and tokens, close tags of raw text among them:
they are read again wherever they stand.
-/

namespace ErbLayout.Text

variable {α : Type} {read : Reader α} {u v : List Char} {at_ k : Nat} {a : α}

/-- The first reading is where the text before it lets none begin. -/
theorem find?_append (hu : ∀ w, w <:+ u → w ≠ [] → read (w ++ v) = none) (hv : v ≠ [])
    (h : read v = some (a, k)) : find? read at_ (u ++ v) = some (at_ + u.length, a, k) := by
  induction u generalizing at_ with
  | nil =>
    cases v with
    | nil => exact absurd rfl hv
    | cons c v => simp [find?, h]
  | cons c u ih =>
    have hnone := hu (c :: u) List.suffix_rfl (by simp)
    rw [List.cons_append] at hnone ⊢
    rw [find?, hnone]
    dsimp only
    rw [ih fun w hw => hu w (hw.trans (List.suffix_cons c u)), List.length_cons, Nat.add_assoc,
      Nat.add_comm 1]

theorem find?_eq_none (hu : ∀ w, w <:+ u → w ≠ [] → read w = none) : find? read at_ u = none := by
  induction u generalizing at_ with
  | nil => rfl
  | cons c u ih =>
    rw [find?, hu (c :: u) List.suffix_rfl (by simp)]
    exact ih fun w hw => hu w (hw.trans (List.suffix_cons c u))

/-- Before the first reading none begins. -/
theorem read_of_find? (h : find? read at_ (u ++ v) = some (at_ + u.length, a, k)) :
    ∀ w, w <:+ u → w ≠ [] → read (w ++ v) = none := by
  induction u generalizing at_ with
  | nil =>
    intro w hw hne
    exact absurd (List.suffix_nil.1 hw) hne
  | cons c u ih =>
    rw [List.cons_append, find?] at h
    intro w hw hne
    cases hread : read (c :: (u ++ v)) with
    | some p =>
      rw [hread] at h
      simp at h
    | none =>
      rw [hread] at h
      dsimp only at h
      rw [List.length_cons, ← Nat.add_assoc, Nat.add_right_comm] at h
      rcases List.suffix_cons_iff.1 hw with rfl | hw
      · exact hread
      · exact ih h w hw hne

end ErbLayout.Text

namespace ErbLayout.Markup

open Text (allBlank endsBlank startsBlank words)

/-- Text in which no `<` begins anything. -/
def Calm (s : List Char) : Prop :=
  ∀ c, ['<', c] <:+: s → c ≠ '!' ∧ c ≠ '/' ∧ c ≠ '%' ∧ isWord c = false

variable {s t u v : List Char}

theorem Calm.within (h : Calm t) (hs : s <:+: t) : Calm s := fun c hc => h c (hc.trans hs)

theorem pair_append {α : Type} {x y : α} {a b : List α} (h : [x, y] <:+: a ++ b) :
    [x, y] <:+: a ∨ [x, y] <:+: b ∨ a.getLast? = some x ∧ b.head? = some y := by
  induction a with
  | nil => exact .inr (.inl h)
  | cons c a ih =>
    rcases List.infix_cons_iff.1 h with hp | hi
    · obtain ⟨rfl, hnext⟩ := List.cons_prefix_cons.1 hp
      cases a with
      | nil =>
        obtain ⟨r, hr⟩ := hnext
        exact .inr (.inr ⟨rfl, (congrArg List.head? hr).symm⟩)
      | cons d a =>
        obtain ⟨rfl, -⟩ := List.cons_prefix_cons.1 hnext
        exact .inl ⟨[], a, rfl⟩
    · rcases ih hi with ha | hb | ⟨hlast, hhead⟩
      · exact .inl (ha.trans (List.suffix_cons c a).isInfix)
      · exact .inr (.inl hb)
      · refine .inr (.inr ⟨?_, hhead⟩)
        cases a with
        | nil => simp at hlast
        | cons d a => rwa [List.getLast?_cons_cons]

theorem Calm.append (hs : Calm s) (ht : Calm t) (hlast : s.getLast? ≠ some '<') :
    Calm (s ++ t) := by
  intro c hc
  rcases pair_append hc with h | h | ⟨h, -⟩
  · exact hs c h
  · exact ht c h
  · exact absurd h hlast

/-- White space in a text does not matter. -/
theorem Calm.of_words (h : Calm t) (hw : words s = words t) : Calm s := by
  intro c hc
  cases hb : isBlank c with
  | true =>
    refine ⟨?_, ?_, ?_, isWord_of_isBlank hb⟩ <;>
    · rintro rfl
      exact absurd hb (by decide)
  | false =>
    have hsolid : ∀ d ∈ ['<', c], isBlank d = false :=
      List.forall_mem_cons.2 ⟨rfl, List.forall_mem_singleton.2 hb⟩
    obtain ⟨w, hmem, hi⟩ := Text.exists_word_around (by simp) hsolid hc
    exact h c (hi.trans (Text.infix_of_mem_words (hw ▸ hmem)))

theorem calm_of_not_mem (h : '<' ∉ s) : Calm s := fun c hc => absurd (hc.subset (by simp)) h

namespace Token

theorem readAny_eq_none (h : ∀ c ∈ s.head?, c ≠ '!' ∧ c ≠ '/' ∧ isWord c = false) :
    readAny ('<' :: s) = none := by
  have hopening : readOpening ('<' :: s) = none := by
    rw [readOpening_angle]
    cases s with
    | nil => rfl
    | cons c s => rw [List.takeWhile_cons_of_neg (by simp [(h c rfl).2.2]), if_pos rfl]
  cases s with
  | nil => rfl
  | cons c s =>
    obtain ⟨hbang, hslash, -⟩ := h c rfl
    have hcomment : readComment ('<' :: c :: s) = none := by
      unfold readComment
      split <;> simp_all
    have hclose : readClose ('<' :: c :: s) = none := by
      unfold readClose
      split <;> simp_all
    rw [readAny, hcomment, hclose]
    exact hopening

theorem read_calm (hcalm : Calm u) (hv : v = [] ∨ v.head? = some '<') :
    ∀ w, w <:+ u → w ≠ [] → read (w ++ v) = none := by
  intro w hw hne
  obtain ⟨c, w, rfl⟩ := List.exists_cons_of_ne_nil hne
  by_cases hc : c = '<'
  · subst hc
    rw [List.cons_append, read, readAny_eq_none, Option.map_none]
    intro d hd
    cases w with
    | nil =>
      rw [List.nil_append] at hd
      rcases hv with rfl | hv
      · simp at hd
      · obtain rfl : '<' = d := Option.some.inj (hv.symm.trans hd)
        decide
    | cons x w =>
      obtain rfl : x = d := Option.some.inj hd
      obtain ⟨hbang, hslash, -, hword⟩ := hcalm x
        (List.IsInfix.trans ⟨[], w, rfl⟩ hw.isInfix)
      exact ⟨hbang, hslash, hword⟩
  · exact read_eq_none hc _

theorem upTo_append {e : List Char} (he : e ≠ []) (h : upTo e s = some t) (rest : List Char) :
    upTo e (t ++ rest) = some t := by
  induction s generalizing t with
  | nil =>
    rw [upTo] at h
    simp [he] at h
  | cons c s ih =>
    rw [upTo] at h
    split at h
    · rename_i hprefix
      obtain ⟨r, hr⟩ := List.isPrefixOf_iff_prefix.1 hprefix
      rw [← hr, List.take_left] at h
      obtain rfl := Option.some.inj h
      obtain ⟨d, e, rfl⟩ := List.exists_cons_of_ne_nil he
      rw [List.cons_append, upTo, ← List.cons_append,
        if_pos (List.isPrefixOf_iff_prefix.2 (List.prefix_append _ _)), List.take_left]
    · rename_i hprefix
      obtain ⟨t, ht, rfl⟩ := Option.map_eq_some_iff.1 h
      obtain ⟨hts, u, hu⟩ := upTo_eq_some ht
      have hnot : ¬ e.isPrefixOf (c :: (t ++ rest)) = true := by
        rw [List.isPrefixOf_iff_prefix] at hprefix ⊢
        intro hlong
        refine hprefix (List.IsPrefix.trans ?_ ((List.prefix_cons_inj c).2 hts))
        refine List.prefix_of_prefix_length_le hlong (List.prefix_append (c :: t) rest) ?_
        simp [hu]
        omega
      rw [List.cons_append, upTo, if_neg hnot, ih ht, Option.map_some]

/-- A comment is read from its own text, whatever follows it. -/
theorem readAny_comment (h : readAny s = some (.comment t)) (rest : List Char) :
    readAny (t ++ rest) = some (.comment t) := by
  have hcomment : readComment s = some (.comment t) := by
    unfold readAny at h
    split at h
    · rename_i hread
      rw [hread, h]
    · split at h
      · rename_i hread
        obtain ⟨before, name, after, he, -⟩ := readClose_eq_some hread
        rw [Option.some.inj h] at he
        simp at he
      · obtain ⟨name, as, gap, closing, he, -⟩ := readOpening_eq_some h
        simp at he
  have hback : readComment (t ++ rest) = some (.comment t) := by
    unfold readComment at hcomment
    split at hcomment
    · obtain ⟨u, hu, he⟩ := Option.map_eq_some_iff.1 hcomment
      obtain rfl := Token.comment.inj he
      have hagain := upTo_append (by simp) hu rest
      simp only [List.cons_append, readComment, hagain, Option.map_some]
    · split at hcomment
      · rename_i hletter
        split at hcomment
        · rename_i u r hspan
          obtain ⟨-, hinside⟩ := Attribute.span_eq_append hspan
          obtain rfl := Token.comment.inj (Option.some.inj hcomment)
          have hagain := readComment_declaration hletter (t := u) hinside rest
          simpa using hagain
        · simp at hcomment
      · simp at hcomment
    · simp at hcomment
  rw [readAny, hback]

/-- A close tag without white space is read from its own text. -/
theorem readAny_closeText {name : List Char} (hne : name ≠ [])
    (hword : ∀ c ∈ name, isWord c = true) (rest : List Char) :
    readAny ('<' :: '/' :: name ++ ['>'] ++ rest) =
      some (.close ('<' :: '/' :: name ++ ['>']) name) := by
  obtain ⟨c, name, rfl⟩ := List.exists_cons_of_ne_nil hne
  have hblank : isBlank c = false := by
    by_contra hb
    have hc := hword c List.mem_cons_self
    rw [isWord_of_isBlank (by simpa using hb)] at hc
    simp at hc
  obtain ⟨htake, hdrop⟩ := Placeholder.span_append (y := '>' :: rest) hword (by
    intro d hd
    obtain rfl := Option.some.inj hd
    rfl)
  have hclose : readClose ('<' :: '/' :: (c :: name ++ '>' :: rest)) =
      some (.close ('<' :: '/' :: (c :: name) ++ ['>']) (c :: name)) := by
    have hstart : (c :: name ++ '>' :: rest).takeWhile isBlank = [] :=
      List.takeWhile_cons_of_neg (by simp [hblank])
    have hstart' : (c :: name ++ '>' :: rest).dropWhile isBlank = c :: name ++ '>' :: rest :=
      List.dropWhile_cons_of_neg (by simp [hblank])
    have hend : ('>' :: rest).takeWhile isBlank = [] := List.takeWhile_cons_of_neg (by decide)
    have hend' : ('>' :: rest).dropWhile isBlank = '>' :: rest :=
      List.dropWhile_cons_of_neg (by decide)
    rw [readClose_slash]
    rw [hstart', htake, hdrop, hend', hstart, hend, if_pos ⟨by simp, rfl⟩]
    simp
  rw [readAny, show '<' :: '/' :: (c :: name) ++ ['>'] ++ rest =
    '<' :: '/' :: (c :: name ++ '>' :: rest) by simp, hclose]
  rfl

end Token

namespace Piece

variable {name spelled before after closeTag content g : List Char}

/-- In a close tag of raw text a `<` stands only at the start. -/
theorem angle_not_mem_of_readCloseOf {n : Nat} (hraw : Element.isRawText name = true)
    (h : readCloseOf name s = some (closeTag, n)) :
    ∃ u, closeTag = '<' :: u ++ ['>'] ∧ '<' ∉ u := by
  obtain ⟨before, spelled, after, rfl, hbefore, hafter, hsame, -⟩ := readCloseOf_eq_some h
  have hletters : ∀ m ∈ Element.rawTextNames, (m.all fun a => !sameLetter a '<') = true := by
    decide +kernel
  have hspelled := not_mem_of_sameLetters hsame
    (hletters name (by simpa [Element.isRawText] using hraw))
  have hgap {g : List Char} (hg : Text.allBlank g = true) : '<' ∉ g := fun hm =>
    absurd (List.all_eq_true.1 hg '<' hm) (by decide)
  exact ⟨'/' :: before ++ spelled ++ after, by simp,
    by simp [hgap hbefore, hgap hafter, hspelled]⟩

/-- A close tag of raw text is one whatever follows it. -/
theorem readCloseOf_append {n : Nat} (h : readCloseOf name s = some (closeTag, n))
    (rest : List Char) : readCloseOf name (closeTag ++ rest) ≠ none := by
  obtain ⟨before, spelled, after, rfl, hbefore, hafter, hsame, -⟩ := readCloseOf_eq_some h
  have htext : '<' :: '/' :: before ++ spelled ++ after ++ ['>'] ++ rest =
      '<' :: '/' :: (before ++ (spelled ++ (after ++ '>' :: rest))) := by simp
  have hmem : (before, spelled ++ (after ++ '>' :: rest)) ∈
      Token.runs isBlank (before ++ (spelled ++ (after ++ '>' :: rest))) ++
        [([], before ++ (spelled ++ (after ++ '>' :: rest)))] := by
    by_cases hne : before = []
    · subst hne
      simp
    · exact List.mem_append_left _ (Token.mem_runs_append hne (List.all_eq_true.1 hbefore) _)
  rw [htext, readCloseOf_slash]
  intro hnone
  have hfrom := List.findSome?_eq_none_iff.1 hnone _ hmem
  rw [closeFrom_append hsame hafter] at hfrom
  exact absurd hfrom (by simp)

theorem readCloseOf_closeText (hstart : startsBlank name = false) (rest : List Char) :
    readCloseOf name ('<' :: '/' :: name ++ ['>'] ++ rest) =
      some ('<' :: '/' :: name ++ ['>'], ('<' :: '/' :: name ++ ['>']).length) := by
  have hruns : Token.runs isBlank (name ++ '>' :: rest) = [] := by
    have hhead : (name ++ '>' :: rest).takeWhile isBlank = [] := by
      cases name with
      | nil => exact List.takeWhile_cons_of_neg (by decide)
      | cons c name =>
        have hc : isBlank c = false := hstart
        exact List.takeWhile_cons_of_neg (by simp [hc])
    rw [Token.runs, List.span_eq_takeWhile_dropWhile, hhead]
    rfl
  have hclose := closeFrom_append (sameLetters_refl name) (show Text.allBlank [] = true from rfl)
    [] rest
  rw [List.append_nil] at hclose
  rw [show '<' :: '/' :: name ++ ['>'] ++ rest = '<' :: '/' :: (name ++ '>' :: rest) by simp,
    readCloseOf_slash, hruns]
  simpa using hclose

theorem prefix_append_cases {a b : List Char} (h : t <+: a ++ b) :
    t <+: a ∨ ∃ z, z ≠ [] ∧ t = a ++ z ∧ z <+: b := by
  obtain ⟨r, hr⟩ := h
  rcases List.append_eq_append_iff.1 hr with ⟨x, hx, -⟩ | ⟨x, hx, hb⟩
  · exact .inl ⟨x, hx.symm⟩
  · by_cases hnil : x = []
    · subst hnil
      exact .inl (by rw [hx, List.append_nil])
    · exact .inr ⟨x, hnil, hx, r, hb.symm⟩

/-- A raw text ends where it did, when the white space at its end is another and its close tag is
written without any. -/
theorem find?_closeText {rest rest' : List Char} (hraw : Element.isRawText name = true)
    (hfirst : Text.find? (readCloseOf name) 0 (content ++ (closeTag ++ rest)) =
      some (content.length, closeTag, closeTag.length)) (hg : allBlank g = true) :
    Text.find? (readCloseOf name) 0
        ((Text.trimRight content ++ g) ++ ('<' :: '/' :: name ++ ['>'] ++ rest')) =
      some ((Text.trimRight content ++ g).length, '<' :: '/' :: name ++ ['>'],
        ('<' :: '/' :: name ++ ['>']).length) := by
  have hstart : startsBlank name = false := by
    have hall : ∀ m ∈ Element.rawTextNames, startsBlank m = false := by decide
    exact hall name (by simpa [Element.isRawText] using hraw)
  obtain ⟨h, hcontent, -, -⟩ := Text.trimRight_append content
  rw [← Nat.zero_add content.length] at hfirst
  have hbefore := Text.read_of_find? hfirst
  refine (Text.find?_append (fun w hw hne => ?_) (by simp)
    (readCloseOf_closeText hstart rest')).trans (by rw [Nat.zero_add])
  by_contra hsome
  obtain ⟨⟨t, n⟩, hread⟩ := Option.ne_none_iff_exists'.1 hsome
  obtain ⟨u, rfl, hu⟩ := angle_not_mem_of_readCloseOf hraw hread
  obtain ⟨-, -, -, -, -, -, -, -, hpre⟩ := readCloseOf_eq_some hread
  -- a close tag ends before the next `<`
  rcases prefix_append_cases hpre with hpre | ⟨z, hz, htag, hrest⟩
  swap
  · obtain ⟨c, w, rfl⟩ := List.exists_cons_of_ne_nil hne
    obtain ⟨d, z, rfl⟩ := List.exists_cons_of_ne_nil hz
    obtain rfl : d = '<' := (List.cons_prefix_cons.1 hrest).1
    obtain ⟨-, htail⟩ := List.cons.inj (show '<' :: (u ++ ['>']) = c :: (w ++ '<' :: z) from htag)
    have hmem : '<' ∈ u ++ ['>'] := by simp [htail]
    exact hu (by simpa using hmem)
  obtain ⟨a, ha⟩ := hw
  rcases List.append_eq_append_iff.1 ha with ⟨x, hx, rfl⟩ | ⟨x, -, rfl⟩
  swap
  · have hmem : '<' ∈ x ++ w := List.mem_append_right x (hpre.subset (by simp))
    exact absurd (List.all_eq_true.1 hg '<' hmem) (by decide)
  -- and with no white space
  rcases prefix_append_cases hpre with ⟨y, rfl⟩ | ⟨z, hz, htag, hzg⟩
  · have hsuffix : '<' :: u ++ ['>'] ++ y ++ h <:+ content := ⟨a, by
      conv_rhs => rw [hcontent, hx]
      simp⟩
    have hnone := hbefore _ hsuffix (by simp)
    rw [List.append_assoc _ y, List.append_assoc _ (y ++ h)] at hnone
    exact readCloseOf_append hread _ hnone
  · have hlast : z.getLast? = some '>' := by
      rw [← List.getLast?_append_of_ne_nil x hz, ← htag, List.getLast?_append_of_ne_nil _ (by simp)]
      rfl
    have hmem : '>' ∈ g := hzg.subset (List.mem_of_getLast? hlast)
    exact absurd (List.all_eq_true.1 hg '>' hmem) (by decide)

end Piece

end ErbLayout.Markup
