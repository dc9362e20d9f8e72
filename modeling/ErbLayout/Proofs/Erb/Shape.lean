import Mathlib.Data.List.Chain
import ErbLayout.Proofs.Erb.Kind
/-!
The shape of a tag is all of it but the white space around the words of its code. A tag that is built
anew has the shape that it had, and a text has the shapes of its parts.
-/

namespace ErbLayout.Erb

open Text (allBlank spread words)

/-- The opener of a tag, the words of its code, its closer. -/
def Tag.shape (tag : Tag) : Opener × List (List Char) × Closer :=
  (tag.opener, words tag.code, tag.closer)

/-- The shapes of the ERB tags of a text from left to right. -/
def shapesIn (s : List Char) : List (Opener × List (List Char) × Closer) :=
  (tagsIn s).map fun p => p.1.shape

/-- The dash that a closer begins with, if it has one. -/
def Closer.dash : Closer → List Char
  | .plain => []
  | .trimmed => ['-']

theorem Closer.length_dash (c : Closer) : c.dash.length < 2 := by cases c <;> decide

theorem Closer.text_eq (c : Closer) : c.text = c.dash ++ ['%', '>'] := by cases c <;> rfl

theorem Tag.ofInside_dash (o : Opener) (c : Closer) (inside : List Char) :
    Tag.ofInside o (inside ++ ' ' :: c.dash) = ⟨o, Text.trim (inside ++ [' ']), c⟩ := by
  cases c <;> simp [Tag.ofInside, Closer.dash]

theorem trim_within (s : List Char) : Text.trim s <:+: s := by
  obtain ⟨g, g', hs, -⟩ := Text.trim_append s
  exact ⟨g, g', by rw [List.append_assoc, ← hs]⟩

theorem Tag.code_ofInside_within (o : Opener) (inside : List Char) :
    (Tag.ofInside o inside).code <:+: inside := by
  unfold Tag.ofInside
  split
  · rename_i r hr
    refine (trim_within _).trans ⟨[], ['-'], ?_⟩
    rw [List.reverse_eq_cons_iff.1 hr]
    rfl
  · exact trim_within inside

/-- A tag that is built anew from code with the same words has the shape that it had. -/
theorem Tag.read_build {s whole : List Char} {tag : Tag} {n : Nat}
    (h : Tag.read s = some ((tag, whole), n)) {code : List Char}
    (hcode : words code = words tag.code) {indent : List Char} (hi : allBlank indent = true) :
    ∃ tag' k, Tag.read (Tag.build tag.opener.text code tag.closer.text indent) =
        some ((tag', Tag.build tag.opener.text code tag.closer.text indent), k) ∧
      tag'.shape = tag.shape := by
  obtain ⟨inside, r, -, -, hfree, htag, -⟩ := Tag.read_split h
  obtain ⟨inside', hbuild, hwords⟩ := Tag.exists_build tag.opener.text code tag.closer.text hi
  obtain ⟨u, hhead⟩ := Tag.build_head tag.opener.text code tag.closer.text indent
  have htext : Tag.build tag.opener.text code tag.closer.text indent =
      tag.opener.text ++ ((inside' ++ ' ' :: tag.closer.dash) ++ ['%', '>']) := by
    rw [hbuild, Closer.text_eq]
    simp
  have hopener := Opener.read_text tag.opener
    ((if (Text.solid code).head? = some '#' then '#' else ' ') :: u)
    (by split <;> simp) (by split <;> simp)
  rw [List.append_cancel_left (hhead.symm.trans htext)] at hopener
  have hclosing : ¬ ['%', '>'] <:+: inside' ++ ' ' :: tag.closer.dash := by
    intro hi
    have hsolid : ∀ c ∈ ['%', '>'], isBlank c = false :=
      List.forall_mem_cons.2 ⟨rfl, List.forall_mem_singleton.2 rfl⟩
    obtain ⟨w, hw, hin⟩ := Text.exists_word_around (by simp) hsolid hi
    rw [Text.words_append_blank Text.isBlank_space, List.mem_append] at hw
    rcases hw with hw | hw
    · rw [hwords, hcode, htag] at hw
      exact hfree ((hin.trans (Text.infix_of_mem_words hw)).trans
        (Tag.code_ofInside_within _ inside))
    · have hlen := (hin.trans (Text.infix_of_mem_words hw)).length_le
      exact absurd tag.closer.length_dash (Nat.not_lt.2 hlen)
  refine ⟨_, _, htext ▸ Tag.read_of_opener (r := []) hopener hclosing, ?_⟩
  rw [Tag.ofInside_dash, Tag.shape, Tag.shape, Text.words_trim,
    Text.words_append_allBlank _ (by decide), hwords, hcode]

theorem shapesIn_of_read {s whole : List Char} {tag : Tag} {n : Nat}
    (h : Tag.read s = some ((tag, whole), n)) : shapesIn whole = [tag.shape] := by
  have hself := tagsIn_append_of_read h []
  rw [List.append_nil] at hself
  rw [shapesIn, hself]
  rfl

/-- Stretches between which no `<%` is split. -/
def Meets (p q : List Char × List Char) : Prop :=
  p.2.getLast? ≠ some '<' ∨ q.1 ≠ [] ∨ q.2.head? = some '<'

theorem angle_not_mem_of_allBlank {g : List Char} (h : allBlank g = true) : '<' ∉ g := fun hmem =>
  absurd (List.all_eq_true.1 h '<' hmem) (by decide)

theorem head_ne_of_allBlank {g : List Char} (h : allBlank g = true) (s : List Char)
    (hs : g = [] → s.head? ≠ some '%') : (g ++ s).head? ≠ some '%' := by
  cases g with
  | nil => exact hs rfl
  | cons c g =>
    simp only [allBlank, List.all_cons, Bool.and_eq_true] at h
    intro he
    obtain rfl : c = '%' := by simpa using he
    exact absurd h.1 (by decide)

/-- The tags of stretches that meet are those of each of them. -/
theorem tagsIn_spread {ps : List (List Char × List Char)} {tail : List Char}
    (hblank : ∀ p ∈ ps, allBlank p.1 = true) (hsettled : ∀ p ∈ ps, Settled p.2)
    (hmeets : ps.IsChain Meets) (htail : allBlank tail = true) :
    tagsIn (spread ps ++ tail) = ps.flatMap fun p => tagsIn p.2 := by
  induction ps with
  | nil =>
    have h := tagsIn_append_of_not_mem (angle_not_mem_of_allBlank htail) []
    rwa [List.append_nil] at h
  | cons p ps ih =>
    obtain ⟨hhead, hrest⟩ := List.isChain_cons.1 hmeets
    have hp := hblank p List.mem_cons_self
    have hps : ∀ q ∈ ps, allBlank q.1 = true := fun q hq => hblank q (List.mem_cons_of_mem p hq)
    have hsplit : (spread ps ++ tail).head? = some '%' → p.2.getLast? ≠ some '<' := by
      intro hpercent
      cases ps with
      | nil => exact absurd hpercent (head_ne_of_allBlank htail [] (by simp) <| by simpa using ·)
      | cons q qs =>
        rcases hhead q rfl with hlast | hne | hopen
        · exact hlast
        · refine absurd hpercent ?_
          rw [Text.spread_cons, List.append_assoc, List.append_assoc]
          exact head_ne_of_allBlank (hps q List.mem_cons_self) _ fun hnil => absurd hnil hne
        · refine absurd hpercent ?_
          obtain ⟨u, hu⟩ := List.head?_eq_some_iff.1 hopen
          rw [Text.spread_cons, List.append_assoc, List.append_assoc, hu]
          exact head_ne_of_allBlank (hps q List.mem_cons_self) _ fun _ => by simp
    rw [Text.spread_cons, List.append_assoc, List.append_assoc,
      tagsIn_append_of_not_mem (angle_not_mem_of_allBlank hp),
      (hsettled p List.mem_cons_self).tagsIn_append hsplit, List.flatMap_cons,
      ih hps (fun q hq => hsettled q (List.mem_cons_of_mem p hq)) hrest]

end ErbLayout.Erb
