import Mathlib.Data.List.Infix
import ErbLayout.Erb.Tag
import ErbLayout.Proofs.Text.Scan
import ErbLayout.Proofs.Text.Words
/-!
Where ERB tags are read: at each `<%` that a `%>` follows, up to the first of these. A tag that was
read at the start of a text is the same tag when its text is taken as a whole.
-/

namespace ErbLayout.Erb

theorem Opener.read_of_head_eq {o : Opener} {a b : List Char}
    (h : Opener.read (o.text ++ a) = some (o, a)) (hab : a.head? = b.head?) :
    Opener.read (o.text ++ b) = some (o, b) := by
  rcases a with _ | ⟨c, a⟩
  · rcases b with _ | ⟨d, b⟩
    · exact h
    · simp at hab
  · rcases b with _ | ⟨d, b⟩
    · simp at hab
    · obtain rfl : c = d := by simpa using hab
      by_cases h₁ : c = '='
      · subst h₁
        cases o with
        | run =>
          exfalso
          simp only [Opener.text, List.cons_append, List.nil_append, Opener.read] at h
          split at h
          case h_4 s hs _ he =>
            simp only [List.cons.injEq, true_and] at he
            exact hs a he.symm
          all_goals simp_all
        | trimmed | output | rawOutput => simp_all [Opener.text, Opener.read]
      · by_cases h₂ : c = '-'
        · subst h₂
          cases o <;> simp_all [Opener.text, Opener.read]
        · cases o <;> simp_all [Opener.text, Opener.read]

theorem head?_eq_of_initial {a b : List Char} (ha : a ≠ []) (h : a <+: b) : a.head? = b.head? := by
  obtain ⟨u, rfl⟩ := h
  cases a with
  | nil => exact absurd rfl ha
  | cons => rfl

theorem Tag.read_eq_some {s whole : List Char} {tag : Tag} {n : Nat}
    (h : Tag.read s = some ((tag, whole), n)) :
    ∃ inside, whole = tag.opener.text ++ (inside ++ ['%', '>']) ∧
      Opener.read whole = some (tag.opener, inside ++ ['%', '>']) ∧
      tag = Tag.ofInside tag.opener inside ∧ n = whole.length ∧ whole <+: s := by
  simp only [Tag.read, Option.bind_eq_bind, Option.bind_eq_some_iff, Option.pure_def,
    Option.some.injEq, Prod.mk.injEq, Prod.exists] at h
  obtain ⟨o, rest, ho, inside, hi, ⟨rfl, rfl⟩, rfl⟩ := h
  have hs := Opener.text_read ho
  have hp := body_append hi
  have hopener : (Tag.ofInside o inside).opener = o := by
    unfold Tag.ofInside
    split <;> rfl
  have hread : Opener.read (o.text ++ (inside ++ ['%', '>'])) = some (o, inside ++ ['%', '>']) :=
    Opener.read_of_head_eq (hs ▸ ho) (head?_eq_of_initial (by simp) hp).symm
  refine ⟨inside, ?_, ?_, ?_, rfl, ?_⟩
  · rw [hopener, List.append_assoc]
  · rw [hopener, List.append_assoc, hread]
  · rw [hopener]
  · rw [hs, List.append_assoc]
    exact (List.prefix_append_right_inj _).2 hp

theorem Tag.framed_of_read {s whole : List Char} {tag : Tag} {n : Nat}
    (h : Tag.read s = some ((tag, whole), n)) : Text.Framed whole := by
  obtain ⟨inside, hw, -⟩ := Tag.read_eq_some h
  refine ⟨tag.opener.text.tail ++ (inside ++ ['%']), ?_⟩
  rw [hw]
  cases tag.opener <;> simp [Opener.text]

theorem Tag.split?_of_read {s whole : List Char} {tag : Tag} {n : Nat}
    (h : Tag.read s = some ((tag, whole), n)) : Tag.split? whole = some tag := by
  obtain ⟨inside, -, hread, htag, -⟩ := Tag.read_eq_some h
  rw [Tag.split?, hread]
  simp [← htag]

open Text (Found)

/-- The ERB tags of a text from left to right, each with its full text. -/
def tagsIn (s : List Char) : List (Tag × List Char) := Found.values (Text.scan Tag.read s)

theorem body_cons {c : Char} {s : List Char} (h : ¬ ['%', '>'] <+: c :: s) :
    body (c :: s) = (body s).map (c :: ·) := by
  rw [body]
  rintro t rfl rfl
  exact h ⟨t, rfl⟩

theorem body_closing (s : List Char) : body ('%' :: '>' :: s) = some [] := rfl

theorem body_append_closing {t : List Char} (h : ¬ ['%', '>'] <:+: t) (s : List Char) :
    body (t ++ '%' :: '>' :: s) = some t := by
  induction t with
  | nil => rfl
  | cons c t ih =>
    have hhead : ¬ ['%', '>'] <+: c :: (t ++ '%' :: '>' :: s) := by
      intro hp
      obtain ⟨hc, hs⟩ := List.cons_prefix_cons.1 hp
      cases t with
      | nil => simp at hs
      | cons d t =>
        obtain ⟨hd, -⟩ := List.cons_prefix_cons.1 hs
        exact h ⟨[], t, by rw [← hc, ← hd]; rfl⟩
    rw [List.cons_append, body_cons hhead,
      ih fun hi => h (hi.trans (List.suffix_cons c t).isInfix)]
    rfl

theorem body_eq_some {s t : List Char} (h : body s = some t) :
    ¬ ['%', '>'] <:+: t ∧ ∃ r, s = t ++ '%' :: '>' :: r := by
  induction s generalizing t with
  | nil => simp [body] at h
  | cons c s ih =>
    by_cases hp : ['%', '>'] <+: c :: s
    · obtain ⟨r, hr⟩ := hp
      rw [← hr] at h ⊢
      obtain rfl := Option.some.inj ((body_closing r).symm.trans h)
      exact ⟨by simp, r, rfl⟩
    · rw [body_cons hp] at h
      obtain ⟨u, hu, rfl⟩ := Option.map_eq_some_iff.1 h
      obtain ⟨hfree, r, rfl⟩ := ih hu
      refine ⟨fun hi => ?_, r, rfl⟩
      rcases List.infix_cons_iff.1 hi with hi | hi
      · exact hp (hi.trans (List.prefix_append (c :: u) ('%' :: '>' :: r)))
      · exact hfree hi

theorem body_ne_none {s : List Char} (h : ['%', '>'] <:+: s) : body s ≠ none := by
  induction s with
  | nil => simp at h
  | cons c s ih =>
    by_cases hp : ['%', '>'] <+: c :: s
    · obtain ⟨r, hr⟩ := hp
      rw [← hr]
      exact Option.some_ne_none _
    · rw [body_cons hp]
      rcases List.infix_cons_iff.1 h with h | h
      · exact absurd h hp
      · simpa using ih h

/-- What a text is made of when a tag is read at its start. -/
theorem Tag.read_split {s whole : List Char} {tag : Tag} {n : Nat}
    (h : Tag.read s = some ((tag, whole), n)) :
    ∃ inside r, s = tag.opener.text ++ (inside ++ '%' :: '>' :: r) ∧
      Opener.read s = some (tag.opener, inside ++ '%' :: '>' :: r) ∧
      ¬ ['%', '>'] <:+: inside ∧ tag = Tag.ofInside tag.opener inside ∧
      whole = tag.opener.text ++ (inside ++ ['%', '>']) ∧ n = whole.length := by
  simp only [Tag.read, Option.bind_eq_bind, Option.bind_eq_some_iff, Option.pure_def,
    Option.some.injEq, Prod.mk.injEq, Prod.exists] at h
  obtain ⟨o, rest, ho, inside, hi, ⟨rfl, rfl⟩, rfl⟩ := h
  obtain ⟨hfree, r, rfl⟩ := body_eq_some hi
  have hopener : (Tag.ofInside o inside).opener = o := by
    unfold Tag.ofInside
    split <;> rfl
  rw [hopener]
  exact ⟨inside, r, Opener.text_read ho, ho, hfree, rfl, List.append_assoc _ _ _, rfl⟩

theorem Tag.read_of_opener {o : Opener} {inside r : List Char}
    (ho : Opener.read (o.text ++ (inside ++ '%' :: '>' :: r)) =
      some (o, inside ++ '%' :: '>' :: r))
    (hfree : ¬ ['%', '>'] <:+: inside) :
    Tag.read (o.text ++ (inside ++ '%' :: '>' :: r)) =
      some ((Tag.ofInside o inside, o.text ++ (inside ++ ['%', '>'])),
        (o.text ++ (inside ++ ['%', '>'])).length) := by
  rw [Tag.read, ho]
  simp only [Option.bind_eq_bind, Option.bind_some, body_append_closing hfree, Option.pure_def,
    List.append_assoc]

/-- An opener is read at every `<%`. -/
theorem Opener.exists_read (s : List Char) :
    ∃ o t, Opener.read ('<' :: '%' :: s) = some (o, t) ∧
      ∃ u, s = u ++ t ∧ ∀ c ∈ u, c = '=' ∨ c = '-' := by
  unfold Opener.read
  split
  · rename_i t h
    exact ⟨_, _, rfl, ['=', '='], by simpa using h, by simp⟩
  · rename_i t _ h
    exact ⟨_, _, rfl, ['='], by simpa using h, by simp⟩
  · rename_i t h
    exact ⟨_, _, rfl, ['-'], by simpa using h, by simp⟩
  · rename_i t _ _ _ h
    exact ⟨_, _, rfl, [], by simpa using h, by simp⟩
  · rename_i h
    exact absurd rfl (h s)

theorem Tag.read_ne_none {s : List Char} (h : ['%', '>'] <:+: s) :
    Tag.read ('<' :: '%' :: s) ≠ none := by
  obtain ⟨o, t, ho, u, rfl, hu⟩ := Opener.exists_read s
  have ht : ['%', '>'] <:+: t := by
    clear ho
    induction u with
    | nil => exact h
    | cons c u ih =>
      rcases List.infix_cons_iff.1 h with h | h
      · obtain ⟨rfl, -⟩ := List.cons_prefix_cons.1 h
        exact absurd (hu '%' List.mem_cons_self) (by decide)
      · exact ih (fun d hd => hu d (List.mem_cons_of_mem c hd)) h
  obtain ⟨inside, hi⟩ := Option.ne_none_iff_exists'.1 (body_ne_none ht)
  rw [Tag.read, ho]
  simp [hi]

theorem Tag.of_read_ne_none {s : List Char} (h : Tag.read s ≠ none) :
    ∃ r, s = '<' :: '%' :: r ∧ ['%', '>'] <:+: r := by
  obtain ⟨⟨⟨tag, whole⟩, n⟩, h⟩ := Option.ne_none_iff_exists'.1 h
  obtain ⟨inside, r, rfl, -⟩ := Tag.read_split h
  refine ⟨tag.opener.text.drop 2 ++ (inside ++ '%' :: '>' :: r), ?_,
    ⟨tag.opener.text.drop 2 ++ inside, r, by simp⟩⟩
  cases tag.opener <;> rfl

/-- A tag is read from its own text, whatever comes after it. -/
theorem Tag.read_append {s whole : List Char} {tag : Tag} {n : Nat}
    (h : Tag.read s = some ((tag, whole), n)) (r : List Char) :
    Tag.read (whole ++ r) = some ((tag, whole), whole.length) := by
  obtain ⟨inside, t, hs, ho, hfree, htag, hwhole, -⟩ := Tag.read_split h
  rw [hs] at ho
  have hopener := Opener.read_of_head_eq (b := inside ++ '%' :: '>' :: r) ho
    (by cases inside <;> rfl)
  have hread := Tag.read_of_opener hopener hfree
  rw [← htag, ← hwhole] at hread
  rw [← hread, hwhole]
  simp

theorem Tag.exists_append_of_read {s whole : List Char} {tag : Tag} {n : Nat}
    (h : Tag.read s = some ((tag, whole), n)) : ∃ r, s = whole ++ r := by
  obtain ⟨inside, r, hs, -, -, -, hwhole, -⟩ := Tag.read_split h
  exact ⟨r, by rw [hs, hwhole]; simp⟩

theorem tagsIn_nil : tagsIn [] = [] := rfl

theorem tagsIn_cons_of_none {c : Char} {s : List Char} (h : Tag.read (c :: s) = none) :
    tagsIn (c :: s) = tagsIn s := by
  rw [tagsIn, Text.scan_cons_of_none h]
  rfl

theorem tagsIn_append_of_read {s whole : List Char} {tag : Tag} {n : Nat}
    (h : Tag.read s = some ((tag, whole), n)) (r : List Char) :
    tagsIn (whole ++ r) = (tag, whole) :: tagsIn r := by
  have hne : whole ≠ [] := List.ne_nil_of_length_pos (Tag.framed_of_read h).length_pos
  rw [tagsIn, Text.scan_of_some (List.length_pos_iff.2 hne) (Tag.read_append h r) (by simp [hne]),
    List.drop_left]
  rfl

theorem Tag.read_eq_none_of_not_opening {s : List Char} (h : ¬ ['<', '%'] <+: s) :
    Tag.read s = none := by
  cases hr : Tag.read s with
  | none => rfl
  | some p =>
    obtain ⟨r, rfl, -⟩ := Tag.of_read_ne_none (s := s) (by simp [hr])
    exact absurd ⟨r, rfl⟩ h

/-- A text in which every `<%` outside of the tags begins one. -/
inductive Settled : List Char → Prop
  | nil : Settled []
  | char {c : Char} {s : List Char} : ¬ ['<', '%'] <+: c :: s → Settled s → Settled (c :: s)
  | tag {t whole s : List Char} {tag : Tag} {n : Nat} : Tag.read t = some ((tag, whole), n) →
    Settled s → Settled (whole ++ s)

/-- Where no `<%` is split, the tags of two texts one behind the other are those of both. -/
theorem Settled.tagsIn_append {a b : List Char} (h : Settled a)
    (hb : b.head? = some '%' → a.getLast? ≠ some '<') :
    tagsIn (a ++ b) = tagsIn a ++ tagsIn b := by
  induction h with
  | nil => rfl
  | char hc _ ih =>
    rename_i c a _
    have hc' : ¬ ['<', '%'] <+: c :: (a ++ b) := by
      intro hp
      obtain ⟨rfl, hnext⟩ := List.cons_prefix_cons.1 hp
      cases a with
      | nil =>
        cases b with
        | nil => simp at hnext
        | cons d b =>
          obtain ⟨hd, -⟩ := List.cons_prefix_cons.1 hnext
          exact hb (congrArg some hd.symm) rfl
      | cons d a =>
        obtain ⟨hd, -⟩ := List.cons_prefix_cons.1 hnext
        exact hc ⟨a, by rw [← hd]; rfl⟩
    rw [List.cons_append, tagsIn_cons_of_none (Tag.read_eq_none_of_not_opening hc'),
      tagsIn_cons_of_none (Tag.read_eq_none_of_not_opening hc)]
    refine ih fun hhead hlast => hb hhead ?_
    cases a with
    | nil => simp at hlast
    | cons d a => rw [List.getLast?_cons_cons, hlast]
  | tag hr _ ih =>
    rename_i t whole a tag n _
    rw [List.append_assoc, tagsIn_append_of_read hr, tagsIn_append_of_read hr, List.cons_append]
    refine congrArg _ (ih fun hhead hlast => hb hhead ?_)
    rw [List.getLast?_append, hlast]
    rfl

theorem settled_cons_iff {c : Char} {s : List Char} (h : Tag.read (c :: s) = none) :
    Settled (c :: s) ↔ ¬ ['<', '%'] <+: c :: s ∧ Settled s := by
  refine ⟨fun hs => ?_, fun hs => .char hs.1 hs.2⟩
  generalize ht : c :: s = t at hs
  cases hs with
  | nil => simp at ht
  | char hc hs =>
    obtain ⟨rfl, rfl⟩ := List.cons.inj ht
    exact ⟨hc, hs⟩
  | tag hr _ =>
    rw [ht, Tag.read_append hr] at h
    simp at h

theorem settled_append_iff_of_read {t whole : List Char} {tag : Tag} {n : Nat}
    (h : Tag.read t = some ((tag, whole), n)) (s : List Char) :
    Settled (whole ++ s) ↔ Settled s := by
  refine ⟨fun hs => ?_, .tag h⟩
  have hread := Tag.read_append h s
  generalize ht : whole ++ s = u at hs hread
  cases hs with
  | nil => simp [Tag.read, Opener.read] at hread
  | char hc _ =>
    obtain ⟨r, hr, -⟩ := Tag.of_read_ne_none (by rw [hread]; simp)
    exact absurd ⟨r, hr.symm⟩ hc
  | tag hr hs =>
    rw [Tag.read_append hr] at hread
    simp only [Option.some.injEq, Prod.mk.injEq] at hread
    obtain ⟨⟨-, rfl⟩, -⟩ := hread
    rw [List.append_cancel_left ht]
    exact hs

theorem settled_append_iff {w : List Char} (hw : '<' ∉ w) (s : List Char) :
    Settled (w ++ s) ↔ Settled s := by
  induction w with
  | nil => rfl
  | cons c w ih =>
    rw [List.mem_cons, not_or] at hw
    have hc : ¬ ['<', '%'] <+: c :: (w ++ s) := fun hp => hw.1 (List.cons_prefix_cons.1 hp).1
    rw [List.cons_append, settled_cons_iff (Tag.read_eq_none_of_not_opening hc), ih hw.2]
    exact and_iff_right hc

theorem tagsIn_append_of_not_mem {w : List Char} (hw : '<' ∉ w) (s : List Char) :
    tagsIn (w ++ s) = tagsIn s := by
  induction w with
  | nil => rfl
  | cons c w ih =>
    rw [List.mem_cons, not_or] at hw
    have hc : ¬ ['<', '%'] <+: c :: (w ++ s) := fun hp => hw.1 (List.cons_prefix_cons.1 hp).1
    rw [List.cons_append, tagsIn_cons_of_none (Tag.read_eq_none_of_not_opening hc), ih hw.2]

/-- What a scan leaves over of a settled text holds no `<%`. -/
theorem Settled.scan {s : List Char} (h : Settled s) :
    ¬ [.char '<', .char '%'] <:+: Text.scan Tag.read s := by
  induction h with
  | nil => simp
  | char hc _ ih =>
    rename_i c s _
    rw [Text.scan_cons_of_none (Tag.read_eq_none_of_not_opening hc), List.infix_cons_iff]
    rintro (hp | hi)
    · obtain ⟨he, fs, hfs⟩ := List.cons_prefix_cons.1 hp
      obtain rfl := Found.char.inj he
      obtain ⟨t, rfl, -⟩ := Text.scan_eq_char_cons hfs.symm
      exact hc ⟨t, rfl⟩
    · exact ih hi
  | tag hr _ ih =>
    rename_i t whole s tag n _
    have hne : whole ≠ [] := List.ne_nil_of_length_pos (Tag.framed_of_read hr).length_pos
    rw [Text.scan_of_some (List.length_pos_iff.2 hne) (Tag.read_append hr s) (by simp [hne]),
      List.drop_left, List.infix_cons_iff]
    rintro (hp | hi)
    · exact absurd (List.cons_prefix_cons.1 hp).1 (by simp)
    · exact ih hi

/-- A text is settled when a scan leaves over no `<%` of it. -/
theorem settled_iff_scan (s : List Char) :
    Settled s ↔ ¬ [.char '<', .char '%'] <:+: Text.scan Tag.read s := by
  refine ⟨Settled.scan, fun h => ?_⟩
  induction hn : s.length using Nat.strongRecOn generalizing s with
  | _ n ih =>
    cases hr : Tag.read s with
    | some p =>
      obtain ⟨⟨tag, whole⟩, k⟩ := p
      obtain ⟨r, rfl⟩ := Tag.exists_append_of_read hr
      have hpos := (Tag.framed_of_read hr).length_pos
      have hscan := Text.scan_of_some hpos (Tag.read_append hr r)
        (by simp [List.ne_nil_of_length_pos hpos])
      rw [List.drop_left] at hscan
      refine .tag hr (ih r.length (by rw [← hn, List.length_append]; omega) r ?_ rfl)
      rw [hscan] at h
      exact fun hi => h (hi.trans (List.suffix_cons _ _).isInfix)
    | none =>
      cases s with
      | nil => exact .nil
      | cons c s =>
        rw [Text.scan_cons_of_none hr] at h
        refine .char (fun hp => ?_) (ih s.length (by simp [← hn]) s
          (fun hi => h (hi.trans (List.suffix_cons _ _).isInfix)) rfl)
        obtain ⟨rfl, t, rfl⟩ := List.cons_prefix_cons.1 hp
        have hpercent : Tag.read ('%' :: t) = none :=
          Tag.read_eq_none_of_not_opening fun hp =>
            absurd (List.cons_prefix_cons.1 hp).1 (by decide)
        rw [List.singleton_append, Text.scan_cons_of_none hpercent] at h
        exact h ⟨[], Text.scan Tag.read t, rfl⟩

instance (s : List Char) : Decidable (Settled s) := decidable_of_iff' _ (settled_iff_scan s)

end ErbLayout.Erb
