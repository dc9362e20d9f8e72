import ErbLayout.Erb.Tag
import ErbLayout.Proofs.Erb.Reading
import ErbLayout.Proofs.Text.Lines
/-!
What the characters right after `<%` make of a tag. The code of a tag that is built anew has the
words that it had, but the tag may come out as another kind: white space before a number sign is
lost, and a space comes before any other character.
-/

namespace ErbLayout.Erb

open Text (allBlank solid words)

theorem words_reindent {indent : List Char} (h : allBlank indent = true) (l : List Char) :
    words (if allBlank l then [] else Text.trimRight (indent ++ ' ' :: ' ' :: l)) = words l := by
  split
  · rename_i hl
    rw [Text.words_of_allBlank hl, Text.words_nil]
  · rw [Text.words_trimRight, Text.words_allBlank_append h, Text.words_cons_blank Text.isBlank_space,
      Text.words_cons_blank Text.isBlank_space]

theorem Tag.exists_build (opener code closer : List Char) {indent : List Char}
    (h : allBlank indent = true) : ∃ inside, Tag.build opener code closer indent =
      opener ++ (inside ++ ' ' :: closer) ∧ words inside = words code := by
  unfold Tag.build
  split
  · rename_i hcode
    exact ⟨[], rfl, (Text.words_of_allBlank hcode).symm⟩
  · split
    · rename_i hnil
      exact absurd hnil (Text.splitOn_ne_nil _ _)
    · rename_i first rest hlines
      have hcode : words code = words first ++ rest.flatMap words := by
        rw [← Text.words_trim, ← Text.words_splitOn, hlines]
        rfl
      have hrest : ((Text.dedent rest).map fun l => if allBlank l then [] else
          Text.trimRight (indent ++ ' ' :: ' ' :: l)).flatMap words = rest.flatMap words := by
        rw [List.flatMap_map, ← Text.words_dedent]
        exact List.flatMap_congr fun l _ => words_reindent h l
      have hblank : allBlank (if first.head? = some '#' then [] else [' ']) = true := by
        split <;> rfl
      dsimp only
      refine ⟨(if first.head? = some '#' then [] else [' ']) ++
        Text.joinLines (Text.trimRight first :: (Text.dedent rest).map fun l =>
          if allBlank l then [] else Text.trimRight (indent ++ ' ' :: ' ' :: l)), by simp, ?_⟩
      rw [Text.words_allBlank_append hblank, Text.words_joinLines, List.flatMap_cons,
        Text.words_trimRight, hrest, hcode]

theorem Tag.split?_eq_some {s : List Char} {tag : Tag} (h : Tag.split? s = some tag) :
    ∃ inside, s = tag.opener.text ++ (inside ++ tag.closer.text) ∧
      words inside = words tag.code := by
  simp only [Tag.split?, Option.bind_eq_bind, Option.bind_eq_some_iff, Prod.exists] at h
  obtain ⟨o, rest, ho, h⟩ := h
  split at h
  · rename_i inside hrest
    obtain rfl := Option.some.inj h
    have hs : s = o.text ++ (inside.reverse ++ ['%', '>']) := by
      rw [Opener.text_read ho, ← List.reverse_reverse rest, hrest]
      simp
    unfold Tag.ofInside
    split
    · rename_i r hr
      rw [List.reverse_reverse] at hr
      refine ⟨r.reverse, ?_, (Text.words_trim _).symm⟩
      rw [hs, hr]
      simp [Closer.text]
    · exact ⟨inside.reverse, hs, (Text.words_trim _).symm⟩
  · simp at h

/-- What becomes of the code of a tag: nothing for a comment, the text itself for an escape, its
value is written, or it is run. -/
inductive Kind where
  | comment
  | escape
  | output
  | code
  deriving DecidableEq, Repr

/-- The kind of a tag by the character after `<%`. -/
def Kind.of : List Char → Kind
  | '<' :: '%' :: '#' :: _ => .comment
  | '<' :: '%' :: '%' :: _ => .escape
  | '<' :: '%' :: '=' :: _ => .output
  | _ => .code

/-- The text of a tag whose kind is not kept: an escape, or code behind white space that begins with
a number sign. -/
def Shifts (text : List Char) : Prop :=
  Kind.of text = .escape ∨
    ∃ g r, g ≠ [] ∧ allBlank g = true ∧ text = '<' :: '%' :: (g ++ '#' :: r)

theorem solid_of_words {s t : List Char} (h : Text.words s = Text.words t) : solid s = solid t := by
  rw [← Text.flatten_words, h, Text.flatten_words]

theorem head_trim (s : List Char) : (Text.trim s).head? = (solid s).head? := by
  obtain ⟨g, g', hs, hg, hg', hstart, -⟩ := Text.trim_append s
  conv_rhs => rw [hs]
  rw [Text.solid_append, Text.solid_append, Text.solid_of_allBlank hg, Text.solid_of_allBlank hg',
    List.append_nil, List.nil_append]
  cases ht : Text.trim s with
  | nil => rfl
  | cons c r =>
    rw [ht] at hstart
    have hc : isBlank c = false := hstart
    rw [solid, List.filter_cons_of_pos (by simp [hc])]
    rfl

theorem head_splitOn {s first : List Char} {rest : List (List Char)}
    (hs : s.head? ≠ some '\n') (h : Text.splitOn '\n' s = first :: rest) :
    first.head? = s.head? := by
  cases s with
  | nil =>
    obtain ⟨rfl, -⟩ := List.cons.inj h
    rfl
  | cons c s =>
    rw [Text.splitOn, if_neg (by simpa using hs)] at h
    split at h
    · obtain ⟨rfl, -⟩ := List.cons.inj h
      rfl
    · obtain ⟨rfl, -⟩ := List.cons.inj h
      rfl

theorem trimRight_cons {c : Char} (hc : isBlank c = false) (s : List Char) :
    Text.trimRight (c :: s) = c :: Text.trimRight s := by
  rw [Text.trimRight, Text.trimRight, List.reverse_cons, List.dropWhile_append]
  split
  · rename_i h
    rw [List.isEmpty_iff.1 h, List.dropWhile_cons_of_neg (by simp [hc])]
    rfl
  · simp

theorem joinLines_cons (l : List Char) (ls : List (List Char)) :
    ∃ r, Text.joinLines (l :: ls) = l ++ r := by
  cases ls with
  | nil => exact ⟨[], (List.append_nil l).symm⟩
  | cons l' ls => exact ⟨['\n'] ++ Text.joinLines (l' :: ls), List.append_assoc _ _ _⟩

theorem Tag.build_head (opener code closer indent : List Char) :
    ∃ r, Tag.build opener code closer indent =
      opener ++ (if (solid code).head? = some '#' then '#' else ' ') :: r := by
  unfold Tag.build
  split
  · rename_i hcode
    exact ⟨closer, by simp [Text.solid_of_allBlank hcode]⟩
  · split
    · rename_i hnil
      exact absurd hnil (Text.splitOn_ne_nil _ _)
    · rename_i first rest hlines
      have hstart : (Text.trim code).head? ≠ some '\n' := by
        obtain ⟨_, _, -, -, -, hstart, -⟩ := Text.trim_append code
        intro hhead
        obtain ⟨r, hr⟩ := List.head?_eq_some_iff.1 hhead
        rw [hr] at hstart
        exact absurd (show isBlank '\n' = false from hstart) (by decide)
      have hfirst : first.head? = (solid code).head? := by
        rw [head_splitOn hstart hlines, head_trim]
      dsimp only
      generalize (Text.dedent rest).map _ = ls
      obtain ⟨r, hr⟩ := joinLines_cons (Text.trimRight first) ls
      rw [hfirst, hr]
      split
      · rename_i hnote
        obtain ⟨u, rfl⟩ := List.head?_eq_some_iff.1 (hfirst.trans hnote)
        exact ⟨Text.trimRight u ++ r ++ ' ' :: closer,
          by simp [trimRight_cons (c := '#') (by decide)]⟩
      · exact ⟨Text.trimRight first ++ r ++ ' ' :: closer, by simp⟩

/-- The kind of a tag by its third character. -/
def Kind.ofChar (c : Char) : Kind :=
  if c = '#' then .comment else if c = '%' then .escape else if c = '=' then .output else .code

theorem Kind.of_cons (c : Char) (s : List Char) : Kind.of ('<' :: '%' :: c :: s) = .ofChar c := by
  unfold Kind.of Kind.ofChar
  split <;> simp_all

theorem head_solid_eq_some {s : List Char} {c : Char} :
    (solid s).head? = some c ↔
      isBlank c = false ∧ ∃ g r, allBlank g = true ∧ s = g ++ c :: r := by
  constructor
  · intro h
    induction s with
    | nil => simp at h
    | cons d s ih =>
      cases hd : isBlank d with
      | true =>
        rw [solid, List.filter_cons_of_neg (by simp [hd])] at h
        obtain ⟨hc, g, r, hg, rfl⟩ := ih h
        exact ⟨hc, d :: g, r, by simpa [allBlank, hd] using hg, rfl⟩
      | false =>
        rw [solid, List.filter_cons_of_pos (by simp [hd])] at h
        obtain rfl : d = c := by simpa using h
        exact ⟨hd, [], s, rfl, rfl⟩
  · rintro ⟨hc, g, r, hg, rfl⟩
    rw [Text.solid_append, Text.solid_of_allBlank hg, List.nil_append, solid,
      List.filter_cons_of_pos (by simp [hc])]
    rfl

theorem shifts_cons_iff {c : Char} {s : List Char} :
    Shifts ('<' :: '%' :: c :: s) ↔
      c = '%' ∨ isBlank c = true ∧ (solid s).head? = some '#' := by
  have hescape : Kind.of ('<' :: '%' :: c :: s) = .escape ↔ c = '%' := by
    rw [Kind.of_cons, Kind.ofChar]
    by_cases hnote : c = '#'
    · simp [hnote]
    · by_cases hpercent : c = '%' <;> by_cases hequals : c = '=' <;> simp_all
  refine or_congr hescape ⟨?_, ?_⟩
  · rintro ⟨g, r, hne, hg, h⟩
    cases g with
    | nil => exact absurd rfl hne
    | cons d g =>
      simp only [List.cons_append, List.cons.injEq, true_and] at h
      obtain ⟨rfl, rfl⟩ := h
      simp only [allBlank, List.all_cons, Bool.and_eq_true] at hg
      exact ⟨hg.1, head_solid_eq_some.2 ⟨by decide, g, r, hg.2, rfl⟩⟩
  · rintro ⟨hc, hs⟩
    obtain ⟨-, g, r, hg, rfl⟩ := head_solid_eq_some.1 hs
    exact ⟨c :: g, r, by simp, by simpa [allBlank, hc] using hg, rfl⟩

theorem Closer.solid_text (c : Closer) : solid c.text = c.text := by cases c <;> decide

theorem Closer.head_append (c : Closer) (s : List Char) :
    (s ++ c.text).head? = some '#' ↔ s.head? = some '#' := by
  cases s with
  | nil => cases c <;> decide
  | cons d s => rfl

theorem Opener.ne_equals_of_run {c : Char} {s : List Char}
    (h : Opener.read ('<' :: '%' :: c :: s) = some (.run, c :: s)) : c ≠ '=' := by
  rintro rfl
  cases s with
  | nil => simp [Opener.read] at h
  | cons d s => by_cases hd : d = '=' <;> simp [Opener.read, hd] at h

/-- Where plain code begins anew behind one space, its kind shifts exactly when it began with a
percent sign or has a number sign behind white space. -/
theorem Kind.of_run_iff {c : Char} {s : List Char} (hc : c ≠ '=') (r : List Char) :
    Kind.of ('<' :: '%' :: (if (solid (c :: s)).head? = some '#' then '#' else ' ') :: r) =
      Kind.of ('<' :: '%' :: c :: s) ↔ ¬ Shifts ('<' :: '%' :: c :: s) := by
  rw [Kind.of_cons, Kind.of_cons, shifts_cons_iff]
  cases hblank : isBlank c with
  | true =>
    have hne (d : Char) (hd : isBlank d = false) : c ≠ d := by
      rintro rfl
      rw [hblank] at hd
      exact absurd hd (by simp)
    rw [solid, List.filter_cons_of_neg (by simp [hblank]), ← solid]
    by_cases hs : (solid s).head? = some '#' <;>
      simp [Kind.ofChar, hs, hne '#' (by decide), hne '%' (by decide), hc]
  | false =>
    rw [solid, List.filter_cons_of_pos (by simp [hblank])]
    by_cases hnote : c = '#'
    · simp [Kind.ofChar, hnote]
    · by_cases hpercent : c = '%'
      · simp [Kind.ofChar, hpercent]
      · simp [Kind.ofChar, hnote, hpercent, hc]

/-- A tag that is built anew from code with the same words is of the same kind, except where the
kind shifts. -/
theorem Tag.kind_build_iff {s whole : List Char} {tag : Tag} {n : Nat}
    (h : Tag.read s = some ((tag, whole), n)) {code : List Char}
    (hcode : Text.words code = Text.words tag.code) (indent : List Char) :
    Kind.of (Tag.build tag.opener.text code tag.closer.text indent) = Kind.of whole ↔
      ¬ Shifts whole := by
  obtain ⟨inside, hwhole, hwords⟩ := Tag.split?_eq_some (Tag.split?_of_read h)
  obtain ⟨_, -, hopener, -⟩ := Tag.read_eq_some h
  obtain ⟨rest, hread, hrest⟩ : ∃ rest, Opener.read whole = some (tag.opener, rest) ∧
      solid rest = solid code ++ tag.closer.text := by
    refine ⟨inside ++ tag.closer.text, ?_, ?_⟩
    · rw [hopener, List.append_cancel_left ((Opener.text_read hopener).symm.trans hwhole)]
    · rw [Text.solid_append, Closer.solid_text, solid_of_words (hwords.trans hcode.symm)]
  obtain ⟨r, hbuild⟩ := Tag.build_head tag.opener.text code tag.closer.text indent
  have htext := Opener.text_read hread
  rw [hbuild, htext]
  cases ho : tag.opener with
  | run =>
    rw [ho] at hread htext
    have hhead : (solid rest).head? = some '#' ↔ (solid code).head? = some '#' := by
      rw [hrest, Closer.head_append]
    cases rest with
    | nil =>
      rw [solid, List.filter_nil] at hrest
      cases hc : tag.closer <;> simp [hc, Closer.text] at hrest
    | cons c u =>
      simp only [← hhead]
      rw [htext] at hread
      exact Kind.of_run_iff (Opener.ne_equals_of_run hread) r
  | trimmed | output | rawOutput =>
    refine iff_of_true rfl ?_
    change ¬ Shifts ('<' :: '%' :: _ :: _)
    rw [shifts_cons_iff]
    rintro (hc | ⟨hc, -⟩)
    · exact absurd hc (by decide)
    · exact absurd hc (by decide)

end ErbLayout.Erb
