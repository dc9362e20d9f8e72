import Mathlib.Algebra.BigOperators.Group.List.Basic
import Mathlib.Data.List.Forall2
import ErbLayout.Proofs.Placeholder.Coded
/-!
Texts that differ only in their names. Whatever reads in a text no more of a name than that it
consists of letters and digits reads the same in both.
-/

namespace ErbLayout.Text

variable {α β : Type}

def Found.map (f : α → β) : Found α → Found β
  | .char c => .char c
  | .value a => .value (f a)

theorem Found.values_map (f : α → β) (fs : List (Found α)) :
    Found.values (fs.map (Found.map f)) = (Found.values fs).map f := by
  induction fs with
  | nil => rfl
  | cons x fs ih =>
    cases x with
    | char c => exact ih
    | value a => exact congrArg _ ih

theorem exists_of_map_char {f : α → β} {fs : List (Found α)} {c : Char} {gs : List (Found β)}
    (h : fs.map (Found.map f) = .char c :: gs) :
    ∃ fs', fs = .char c :: fs' ∧ fs'.map (Found.map f) = gs := by
  obtain ⟨x, fs', rfl, hx, rfl⟩ := List.map_eq_cons_iff.1 h
  cases x with
  | char d =>
    obtain rfl := Found.char.inj hx
    exact ⟨fs', rfl, rfl⟩
  | value a => simp [Found.map] at hx

theorem exists_of_map_value {f : α → β} {fs : List (Found α)} {b : β} {gs : List (Found β)}
    (h : fs.map (Found.map f) = .value b :: gs) :
    ∃ a fs', fs = .value a :: fs' ∧ f a = b ∧ fs'.map (Found.map f) = gs := by
  obtain ⟨x, fs', rfl, hx, rfl⟩ := List.map_eq_cons_iff.1 h
  cases x with
  | char d => simp [Found.map] at hx
  | value a => exact ⟨a, fs', rfl, Found.value.inj hx, rfl⟩

/-- Two ways to divide a list are one when the first parts have the same weight. -/
theorem append_inj_of_weight {weight : α → Nat} (hpos : ∀ a, 0 < weight a) {xs ys xs' ys' : List α}
    (h : xs ++ ys = xs' ++ ys') (hw : (xs.map weight).sum = (xs'.map weight).sum) :
    xs = xs' ∧ ys = ys' := by
  have hnil (zs : List α) (hz : (zs.map weight).sum = 0) : zs = [] := by
    cases zs with
    | nil => rfl
    | cons z zs =>
      rw [List.map_cons, List.sum_cons] at hz
      exact absurd hz (by have := hpos z; omega)
  rcases List.append_eq_append_iff.1 h with ⟨zs, rfl, rfl⟩ | ⟨zs, rfl, rfl⟩
  · rw [List.map_append, List.sum_append] at hw
    obtain rfl := hnil zs (by omega)
    simp
  · rw [List.map_append, List.sum_append] at hw
    obtain rfl := hnil zs (by omega)
    simp

end ErbLayout.Text

namespace ErbLayout.Placeholder

open Text (Found Word allBlank startsBlank endsBlank words)

/-- A test of characters that cannot tell those of names apart. -/
def Blind (p : Char → Bool) : Prop :=
  ∀ c c', isNameChar c = true → isNameChar c' = true → p c = p c'

/-- The same character, or two that names may hold. -/
def Alike (c c' : Char) : Prop := c = c' ∨ (isNameChar c = true ∧ isNameChar c' = true)

abbrev Like (s s' : List Char) : Prop := List.Forall₂ Alike s s'

theorem blind_of_false {p : Char → Bool} (h : ∀ c, isNameChar c = true → p c = false) : Blind p :=
  fun c c' hc hc' => (h c hc).trans (h c' hc').symm

theorem Blind.not {p : Char → Bool} (h : Blind p) : Blind fun c => !p c :=
  fun c c' hc hc' => congrArg _ (h c c' hc hc')

theorem blind_isBlank : Blind isBlank := blind_of_false fun _ hc => isBlank_of_isNameChar hc

theorem toNat_of_isNameChar {c : Char} (h : isNameChar c = true) :
    (97 ≤ c.toNat ∧ c.toNat ≤ 122) ∨ (48 ≤ c.toNat ∧ c.toNat ≤ 57) := by
  simp only [isNameChar, Bool.or_eq_true, Bool.and_eq_true, decide_eq_true_eq, Char.le_def,
    UInt32.le_iff_toNat_le] at h
  exact h

theorem isWord_of_isNameChar {c : Char} (h : isNameChar c = true) : isWord c = true := by
  have hbounds := toNat_of_isNameChar h
  simp only [isNameChar, Bool.or_eq_true, Bool.and_eq_true, decide_eq_true_eq] at h
  rw [isWord, if_pos (by omega)]
  simp only [isAsciiWord, Bool.or_eq_true, Bool.and_eq_true, decide_eq_true_eq]
  tauto

theorem blind_isWord : Blind isWord := fun _ _ hc hc' =>
  (isWord_of_isNameChar hc).trans (isWord_of_isNameChar hc').symm

theorem blind_eq {c : Char} (hc : isNameChar c = false) : Blind (· == c) := by
  refine blind_of_false fun d hd => ?_
  rw [beq_eq_false_iff_ne]
  rintro rfl
  rw [hc] at hd
  exact absurd hd (by simp)

/-- A character that no name holds is told from all others. -/
theorem blind_ne {c : Char} (hc : isNameChar c = false) : Blind (· != c) := (blind_eq hc).not

theorem Alike.symm {c c' : Char} (h : Alike c c') : Alike c' c := by
  rcases h with rfl | ⟨hc, hc'⟩
  · exact .inl rfl
  · exact .inr ⟨hc', hc⟩

theorem Alike.test {p : Char → Bool} (hp : Blind p) {c c' : Char} (h : Alike c c') :
    p c = p c' := by
  rcases h with rfl | ⟨hc, hc'⟩
  · rfl
  · exact hp c c' hc hc'

theorem Alike.eq {c c' : Char} (h : Alike c c') (hc : Placeholder.isNameChar c = false) :
    c' = c := by
  rcases h with rfl | ⟨hname, -⟩
  · rfl
  · rw [hc] at hname
    exact absurd hname (by simp)

namespace Like

variable {s s' : List Char} (h : Like s s')
include h

theorem symm : Like s' s := by
  induction h with
  | nil => exact .nil
  | cons hc _ ih => exact .cons hc.symm ih

theorem reverse : Like s.reverse s'.reverse := List.forall₂_reverse_iff.2 h

theorem all {p : Char → Bool} (hp : Blind p) : s.all p = s'.all p := by
  induction h with
  | nil => rfl
  | cons hc _ ih => rw [List.all_cons, List.all_cons, hc.test hp, ih]

theorem countP {p : Char → Bool} (hp : Blind p) : s.countP p = s'.countP p := by
  induction h with
  | nil => rfl
  | cons hc _ ih => rw [List.countP_cons, List.countP_cons, hc.test hp, ih]

theorem forall_of_forall {p : Char → Bool} (hp : Blind p) {b : Bool} (hs : ∀ c ∈ s, p c = b) :
    ∀ c ∈ s', p c = b := by
  induction h with
  | nil => simp
  | cons hc _ ih =>
    obtain ⟨hd, hs⟩ := List.forall_mem_cons.1 hs
    exact List.forall_mem_cons.2 ⟨(hc.test hp).symm.trans hd, ih hs⟩

theorem head_of_head {p : Char → Bool} (hp : Blind p) {b : Bool} (hs : ∀ c ∈ s.head?, p c = b) :
    ∀ c ∈ s'.head?, p c = b := by
  cases h with
  | nil => simp
  | cons hc _ =>
    intro d hd
    obtain rfl := Option.some.inj hd
    exact (hc.test hp).symm.trans (hs _ rfl)

theorem mem {c : Char} (hc : isNameChar c = false) (hs : c ∈ s) : c ∈ s' := by
  induction h with
  | nil => exact hs
  | cons hd _ ih =>
    rcases List.mem_cons.1 hs with rfl | hs
    · exact List.mem_cons.2 (.inl (hd.eq hc).symm)
    · exact List.mem_cons_of_mem _ (ih hs)

theorem eq_of_free (hs : Free s) : s' = s := by
  induction h with
  | nil => rfl
  | cons hc _ ih =>
    obtain ⟨hfree, hs⟩ := List.forall_mem_cons.1 hs
    rw [hc.eq hfree, ih hs]

theorem startsBlank : startsBlank s = startsBlank s' := by
  cases h with
  | nil => rfl
  | cons hc _ => exact hc.test blind_isBlank

theorem endsBlank : endsBlank s = endsBlank s' := h.reverse.startsBlank

theorem allBlank : allBlank s = allBlank s' := h.all blind_isBlank

theorem eq_nil_iff : s = [] ↔ s' = [] := by
  rw [← List.length_eq_zero_iff, h.length_eq, List.length_eq_zero_iff]

theorem word (hw : Word s) : Word s' := by
  refine ⟨fun hnil => hw.ne_nil (h.eq_nil_iff.2 hnil), ?_⟩
  exact h.forall_of_forall blind_isBlank hw.solid

theorem headFree (hs : HeadFree s) : HeadFree s' := by
  refine h.head_of_head (fun c c' hc hc' => ?_) hs
  rw [hc, hc']

end Like

theorem Like.split {u v s' : List Char} (h : Like (u ++ v) s') :
    ∃ u' v', s' = u' ++ v' ∧ Like u u' ∧ Like v v' := by
  have hu := List.forall₂_take u.length h
  have hv := List.forall₂_drop u.length h
  rw [List.take_left] at hu
  rw [List.drop_left] at hv
  exact ⟨_, _, (List.take_append_drop _ _).symm, hu, hv⟩

section Parts

variable {s s' : List Char} {c : Char}

theorem Like.span {p : Char → Bool} (hp : Blind p) (h : Like s s') :
    Like (s.takeWhile p) (s'.takeWhile p) ∧ Like (s.dropWhile p) (s'.dropWhile p) := by
  induction h with
  | nil => exact ⟨.nil, .nil⟩
  | cons hc hs ih =>
    rw [List.takeWhile_cons, List.takeWhile_cons, List.dropWhile_cons, List.dropWhile_cons,
      ← hc.test hp]
    split
    · exact ⟨.cons hc ih.1, ih.2⟩
    · exact ⟨.nil, .cons hc hs⟩

theorem Like.uncons (hc : isNameChar c = false) (h : Like (c :: s) s') :
    ∃ t', s' = c :: t' ∧ Like s t' := by
  cases h with
  | cons hd hs =>
    rw [hd.eq hc]
    exact ⟨_, rfl, hs⟩

theorem Like.append {t t' : List Char} (h : Like s s') (ht : Like t t') :
    Like (s ++ t) (s' ++ t') :=
  List.rel_append h ht

theorem Like.cons_same (c : Char) (h : Like s s') : Like (c :: s) (c :: s') := .cons (.inl rfl) h

theorem Like.isPrefixOf {p : List Char} (hp : Free p) (h : Like s s') :
    p.isPrefixOf s = p.isPrefixOf s' := by
  have hforth {t t' : List Char} (ht : Like t t') (hpre : p.isPrefixOf t = true) :
      p.isPrefixOf t' = true := by
    obtain ⟨u, rfl⟩ := List.isPrefixOf_iff_prefix.1 hpre
    obtain ⟨p', u', rfl, hp', -⟩ := ht.split
    rw [hp'.eq_of_free hp]
    exact List.isPrefixOf_iff_prefix.2 (List.prefix_append p u')
  exact Bool.eq_iff_iff.2 ⟨hforth h, hforth h.symm⟩

/-- A reader that takes something from a text takes as much from one like it, and back. -/
theorem rel_of_like {β : Type} {read : List Char → Option β} {R : β → β → Prop}
    (hread : ∀ {t t' : List Char} {b : β}, Like t t' → read t = some b →
      ∃ b', read t' = some b' ∧ R b b') (h : Like s s') : Option.Rel R (read s) (read s') := by
  cases hs : read s with
  | none =>
    cases hs' : read s' with
    | none => exact .none
    | some b' =>
      obtain ⟨b, hb, -⟩ := hread h.symm hs'
      rw [hb] at hs
      simp at hs
  | some b =>
    obtain ⟨b', hb', hrel⟩ := hread h hs
    rw [hb']
    exact .some hrel

theorem eq_of_rel {β : Type} {b b' : Option β} (h : Option.Rel (· = ·) b b') : b = b' := by
  cases h with
  | none => rfl
  | some hb => rw [hb]

end Parts

theorem head_dropWhile (p : Char → Bool) (s : List Char) :
    ∀ c ∈ (s.dropWhile p).head?, p c = false := by
  intro c hc
  have hstop := List.head?_dropWhile_not p s
  rwa [Option.mem_def.1 hc] at hstop

theorem span_append {p : Char → Bool} {x y : List Char} (hx : ∀ c ∈ x, p c = true)
    (hy : ∀ c ∈ y.head?, p c = false) :
    (x ++ y).takeWhile p = x ∧ (x ++ y).dropWhile p = y := by
  rw [List.takeWhile_append_of_pos hx, List.dropWhile_append_of_pos hx]
  cases y with
  | nil => simp
  | cons c y =>
    have hc : p c = false := hy c rfl
    rw [List.takeWhile_cons_of_neg (by simp [hc]), List.dropWhile_cons_of_neg (by simp [hc]),
      List.append_nil]
    exact ⟨rfl, rfl⟩

theorem like_of_names {s s' : List Char} (hlen : s.length = s'.length)
    (hs : ∀ c ∈ s, isNameChar c = true) (hs' : ∀ c ∈ s', isNameChar c = true) : Like s s' := by
  induction s generalizing s' with
  | nil =>
    obtain rfl := List.length_eq_zero_iff.1 hlen.symm
    exact .nil
  | cons c s ih =>
    cases s' with
    | nil => simp at hlen
    | cons c' s' =>
      obtain ⟨hc, hs⟩ := List.forall_mem_cons.1 hs
      obtain ⟨hc', hs'⟩ := List.forall_mem_cons.1 hs'
      exact .cons (.inr ⟨hc, hc'⟩) (ih (Nat.succ.inj hlen) hs hs')

theorem like_text (n n' : Name) : Like n.text n'.text :=
  like_of_names (by rw [Name.length_text, Name.length_text])
    (fun _ hc => Name.isNameChar_of_mem hc) fun _ hc => Name.isNameChar_of_mem hc

/-- A text that ends with no character of a name, if it ends at all. -/
def LastFree (s : List Char) : Prop := HeadFree s.reverse

theorem lastFree_concat {c : Char} (s : List Char) (hc : isNameChar c = false) :
    LastFree (s ++ [c]) := by
  rw [LastFree, List.reverse_append]
  intro d hd
  obtain rfl := Option.some.inj hd
  exact hc

theorem LastFree.append {a b : List Char} (ha : LastFree a) (hb : LastFree b) :
    LastFree (a ++ b) := by
  rw [LastFree, List.reverse_append]
  exact HeadFree.append hb ha

theorem LastFree.behind {b : List Char} (hb : LastFree b) (hne : b ≠ []) (a : List Char) :
    LastFree (a ++ b) := by
  rcases List.eq_nil_or_concat b with rfl | ⟨b, c, rfl⟩
  · exact absurd rfl hne
  · rw [List.concat_eq_append] at hb ⊢
    rw [← List.append_assoc]
    refine lastFree_concat (a ++ b) (hb c ?_)
    simp

theorem LastFree.of_append {a b : List Char} (h : LastFree (a ++ b)) (hb : b ≠ []) :
    LastFree b := by
  rcases List.eq_nil_or_concat b with rfl | ⟨b, c, rfl⟩
  · exact absurd rfl hb
  · rw [List.concat_eq_append] at h ⊢
    refine lastFree_concat b (h c ?_)
    simp

theorem Free.lastFree {a : List Char} (h : Free a) : LastFree a :=
  Free.headFree fun c hc => h c (List.mem_reverse.1 hc)

theorem Blind.seam {p : Char → Bool} (hp : Blind p) {x y : List Char} (hx : ∀ c ∈ x, p c = true)
    (hy : ∀ c ∈ y.head?, p c = false) : LastFree x ∨ HeadFree y := by
  by_cases h : ∃ c, isNameChar c = true ∧ p c = true
  · obtain ⟨c, hc, hpc⟩ := h
    refine .inr fun d hd => ?_
    cases hdc : isNameChar d with
    | false => rfl
    | true =>
      rw [hp c d hc hdc, hy d hd] at hpc
      exact absurd hpc (by simp)
  · refine .inl (Free.lastFree fun c hc => ?_)
    cases hcc : isNameChar c with
    | false => rfl
    | true => exact absurd ⟨c, hcc, hx c hc⟩ h

theorem headFree_cons {c : Char} (hc : isNameChar c = false) (s : List Char) :
    HeadFree (c :: s) := by
  intro d hd
  obtain rfl := Option.some.inj hd
  exact hc

theorem seam_nil_left (b : List Char) : Seam [] b := by
  intro n u v hn hu hv hua hvb
  exact hu (List.suffix_nil.1 hua)

theorem seam_of_free {a b : List Char} (h : LastFree a ∨ HeadFree b) : Seam a b := by
  rcases h with h | h
  · rcases List.eq_nil_or_concat a with rfl | ⟨a, c, rfl⟩
    · exact seam_nil_left b
    · rw [List.concat_eq_append] at h ⊢
      exact seam_of_last a (h c (by simp)) b
  · cases b with
    | nil =>
      intro n u v hn hu hv hua hvb
      exact hv (List.prefix_nil.1 hvb)
    | cons c b => exact seam_of_head (h c rfl) a

/-- Names, and what each of them is read as. -/
structure Glossary (α : Type) where
  entries : Entries
  sense : Name × List Char → α

variable {α : Type} {g g' : Glossary α} {s s' t t' u v : List Char}

namespace Glossary

/-- A text with its names read. -/
def reveal (g : Glossary α) (s : List Char) : List (Found α) :=
  (Text.scan g.entries.read s).map (Found.map g.sense)

@[simp] theorem reveal_nil (g : Glossary α) : g.reveal [] = [] := rfl

theorem reveal_append {a b : List Char} (h : Seam a b) :
    g.reveal (a ++ b) = g.reveal a ++ g.reveal b := by
  rw [reveal, Entries.scan_append h, List.map_append]
  rfl

theorem reveal_cons {c : Char} (hc : isNameChar c = false) (s : List Char) :
    g.reveal (c :: s) = .char c :: g.reveal s := by
  rw [reveal, Entries.scan_cons hc]
  rfl

theorem values_reveal (g : Glossary α) (s : List Char) :
    Found.values (g.reveal s) = (g.entries.namesIn s).map g.sense := Found.values_map _ _

theorem reveal_of_namesIn_nil (h : g.entries.namesIn s = []) : g.reveal s = s.map Found.char := by
  rw [reveal, Entries.scan_of_namesIn_nil h, List.map_map]
  rfl

/-- The characters behind what is found. -/
def weight : Found α → Nat
  | .char _ => 1
  | .value _ => Name.size

theorem weight_pos (f : Found α) : 0 < weight f := by
  cases f <;> simp [weight, Name.size]

theorem sum_weight_reveal (g : Glossary α) (s : List Char) :
    ((g.reveal s).map weight).sum = s.length := by
  induction s using Entries.scan_induction g.entries with
  | nil => rfl
  | char c s hx ih =>
    rw [reveal, hx, List.map_cons, List.map_cons, List.sum_cons, List.length_cons, Nat.add_comm]
    exact congrArg (· + 1) ih
  | name e he s hx ih =>
    rw [reveal, hx, List.map_cons, List.map_cons, List.sum_cons, List.length_append,
      Name.length_text]
    exact congrArg (Name.size + ·) ih

end Glossary

/-- Two texts that differ at most in names that are read as the same. -/
def Renamed (g g' : Glossary α) (s s' : List Char) : Prop := g.reveal s = g'.reveal s'

/-- Two texts that are renamed to each other, name by name. -/
inductive Aligned (g g' : Glossary α) : List Char → List Char → Prop
  | nil : Aligned g g' [] []
  | char (c : Char) {s s' : List Char} : Aligned g g' s s' → Aligned g g' (c :: s) (c :: s')
  | name {e e' : Name × List Char} {s s' : List Char} : e ∈ g.entries → e' ∈ g'.entries →
    g.sense e = g'.sense e' → Aligned g g' s s' → Aligned g g' (e.1.text ++ s) (e'.1.text ++ s')

namespace Renamed

theorem nil : Renamed g g' [] [] := rfl

theorem symm (h : Renamed g g' s s') : Renamed g' g s' s := Eq.symm h

theorem aligned (h : Renamed g g' s s') : Aligned g g' s s' := by
  induction s using Entries.scan_induction g.entries generalizing s' with
  | nil =>
    induction s' using Entries.scan_induction g'.entries with
    | nil => exact .nil
    | char c s' hx' _ =>
      rw [Renamed, Glossary.reveal, Glossary.reveal, hx'] at h
      simp at h
    | name e' he' s' hx' _ =>
      rw [Renamed, Glossary.reveal, Glossary.reveal, hx'] at h
      simp at h
  | char c s hx ih =>
    rw [Renamed, Glossary.reveal, hx] at h
    obtain ⟨fs, hfs, hrest⟩ := Text.exists_of_map_char h.symm
    obtain ⟨t, rfl, -, rfl⟩ := Text.scan_eq_char_cons hfs
    exact .char c (ih hrest.symm)
  | name e he s hx ih =>
    rw [Renamed, Glossary.reveal, hx] at h
    obtain ⟨e', fs, hfs, hsense, hrest⟩ := Text.exists_of_map_value h.symm
    cases s' using Entries.scan_induction g'.entries with
    | nil => simp at hfs
    | char c s' hx' _ =>
      rw [hx'] at hfs
      simp at hfs
    | name e'' he'' s' hx' _ =>
      rw [hx'] at hfs
      obtain ⟨hvalue, rfl⟩ := List.cons.inj hfs
      obtain rfl := Found.value.inj hvalue
      exact .name he he'' hsense.symm (ih hrest.symm)

end Renamed

theorem Aligned.like (h : Aligned g g' s s') : Like s s' := by
  induction h with
  | nil => exact .nil
  | char c _ ih => exact .cons (.inl rfl) ih
  | name _ _ _ _ ih => exact (like_text _ _).append ih

namespace Renamed

theorem like (h : Renamed g g' s s') : Like s s' := h.aligned.like

theorem eq_of_short (h : Renamed g g' s s') (hs : s.length < Name.size) : s' = s := by
  have ha := h.aligned
  clear h
  induction ha with
  | nil => rfl
  | char c _ ih => exact congrArg _ (ih (Nat.lt_of_succ_lt hs))
  | name he he' hsense hrest ih =>
    rw [List.length_append, Name.length_text] at hs
    omega

theorem append {a a' b b' : List Char} (ha : Renamed g g' a a') (hb : Renamed g g' b b')
    (hseam : LastFree a ∨ HeadFree b) : Renamed g g' (a ++ b) (a' ++ b') := by
  have hseam' : LastFree a' ∨ HeadFree b' := hseam.imp (ha.like.reverse.headFree ·) hb.like.headFree
  rw [Renamed, Glossary.reveal_append (seam_of_free hseam),
    Glossary.reveal_append (seam_of_free hseam'), ha, hb]

theorem cons {c : Char} (hc : isNameChar c = false) (h : Renamed g g' s s') :
    Renamed g g' (c :: s) (c :: s') := by
  rw [Renamed, Glossary.reveal_cons hc, Glossary.reveal_cons hc, h]

theorem of_free (hs : Free s) : Renamed g g' s s := by
  induction s with
  | nil => exact nil
  | cons c s ih =>
    exact cons (hs c List.mem_cons_self) (ih fun d hd => hs d (List.mem_cons_of_mem c hd))

section Cut

variable {u' v' : List Char} (h : Renamed g g' (u ++ v) (u' ++ v'))
variable (hlen : u.length = u'.length)
include h hlen

/-- Texts that are renamed to each other may be cut at the same places. -/
theorem cut_of_seam (hseam : Seam u v) (hseam' : Seam u' v') :
    Renamed g g' u u' ∧ Renamed g g' v v' := by
  rw [Renamed, Glossary.reveal_append hseam, Glossary.reveal_append hseam'] at h
  exact Text.append_inj_of_weight Glossary.weight_pos h (by
    rw [Glossary.sum_weight_reveal, Glossary.sum_weight_reveal, hlen])

theorem cut (hseam : LastFree u ∨ HeadFree v) : Renamed g g' u u' ∧ Renamed g g' v v' := by
  have hu : Like _ _ := List.forall₂_take u.length h.like
  have hv : Like _ _ := List.forall₂_drop u.length h.like
  rw [List.take_left, hlen, List.take_left] at hu
  rw [List.drop_left, hlen, List.drop_left] at hv
  have hseam' : LastFree u' ∨ HeadFree v' := hseam.imp (hu.reverse.headFree ·) hv.headFree
  exact h.cut_of_seam hlen (seam_of_free hseam) (seam_of_free hseam')

end Cut

/-- Texts that are renamed to each other are so before and behind a place where no name goes on. -/
theorem halves {n : Nat} (h : Renamed g g' s s') (hseam : HeadFree (s.drop n)) :
    Renamed g g' (s.take n) (s'.take n) ∧ Renamed g g' (s.drop n) (s'.drop n) := by
  have htake := List.forall₂_take n h.like
  rw [← List.take_append_drop n s, ← List.take_append_drop n s'] at h
  exact h.cut htake.length_eq (.inr hseam)

theorem split (h : Renamed g g' (u ++ v) s') (hseam : LastFree u ∨ HeadFree v) :
    ∃ u' v', s' = u' ++ v' ∧ Renamed g g' u u' ∧ Renamed g g' v v' := by
  obtain ⟨u', v', rfl, hu, -⟩ := h.like.split
  obtain ⟨hu', hv'⟩ := h.cut hu.length_eq hseam
  exact ⟨u', v', rfl, hu', hv'⟩

theorem split_cons {c : Char} (hc : isNameChar c = false)
    (h : Renamed g g' (u ++ c :: v) s') :
    ∃ u' v', s' = u' ++ c :: v' ∧ Renamed g g' u u' ∧ Renamed g g' v v' := by
  obtain ⟨u', w', rfl, hu, hw⟩ := h.split (.inr (headFree_cons hc v))
  obtain ⟨x, v', rfl, hx, hv⟩ :=
    split (u := [c]) hw (.inl (lastFree_concat [] hc))
  obtain rfl := hx.eq_of_short (by simp [Name.size])
  exact ⟨u', v', rfl, hu, hv⟩

theorem uncons {c : Char} (hc : isNameChar c = false) (h : Renamed g g' (c :: v) s') :
    ∃ v', s' = c :: v' ∧ Renamed g g' v v' := by
  obtain ⟨u', v', rfl, hu, hv⟩ := split_cons (u := []) hc h
  obtain rfl := hu.like.eq_nil_iff.1 rfl
  exact ⟨v', rfl, hv⟩

section Tests

variable {p : Char → Bool} (hp : Blind p)
include hp

theorem span (h : Renamed g g' s s') :
    Renamed g g' (s.takeWhile p) (s'.takeWhile p) ∧
      Renamed g g' (s.dropWhile p) (s'.dropWhile p) := by
  have htake : ∀ c ∈ s.takeWhile p, p c = true := fun c hc => List.mem_takeWhile_imp hc
  have hdrop := head_dropWhile p s
  rw [← List.takeWhile_append_dropWhile (p := p) (l := s)] at h
  obtain ⟨u', v', rfl, hu, hv⟩ := h.split (hp.seam htake hdrop)
  obtain ⟨hu', hv'⟩ := span_append (hu.like.forall_of_forall hp htake)
    (hv.like.head_of_head hp hdrop)
  rw [hu', hv']
  exact ⟨hu, hv⟩

theorem reverse_span (h : Renamed g g' s s') :
    Renamed g g' (s.reverse.dropWhile p).reverse (s'.reverse.dropWhile p).reverse ∧
      Renamed g g' (s.reverse.takeWhile p).reverse (s'.reverse.takeWhile p).reverse := by
  have htake : ∀ c ∈ s.reverse.takeWhile p, p c = true := fun c hc => List.mem_takeWhile_imp hc
  have hdrop := head_dropWhile p s.reverse
  have hs : s = (s.reverse.dropWhile p).reverse ++ (s.reverse.takeWhile p).reverse := by
    rw [← List.reverse_append, List.takeWhile_append_dropWhile, List.reverse_reverse]
  have hseam := hp.seam htake hdrop
  rw [hs] at h
  obtain ⟨u', v', rfl, hu, hv⟩ := h.split (by
    rw [LastFree, List.reverse_reverse]
    exact hseam.symm)
  have hu₀ := hu.like.reverse
  have hv₀ := hv.like.reverse
  rw [List.reverse_reverse] at hu₀ hv₀
  obtain ⟨hv', hu'⟩ := span_append (hv₀.forall_of_forall hp htake) (hu₀.head_of_head hp hdrop)
  rw [List.reverse_append, hu', hv', List.reverse_reverse, List.reverse_reverse]
  exact ⟨hu, hv⟩

end Tests

theorem trimLeft (h : Renamed g g' s s') : Renamed g g' (Text.trimLeft s) (Text.trimLeft s') :=
  (h.span blind_isBlank).2

theorem trimRight (h : Renamed g g' s s') : Renamed g g' (Text.trimRight s) (Text.trimRight s') :=
  (h.reverse_span blind_isBlank).1

theorem trim (h : Renamed g g' s s') : Renamed g g' (Text.trim s) (Text.trim s') :=
  h.trimLeft.trimRight

theorem firstLine (h : Renamed g g' s s') : Renamed g g' (Text.firstLine s) (Text.firstLine s') :=
  (h.span (blind_ne (by decide))).1

theorem lastLine (h : Renamed g g' s s') : Renamed g g' (Text.lastLine s) (Text.lastLine s') :=
  (h.reverse_span (blind_ne (by decide))).2

theorem words (h : Renamed g g' s s') :
    List.Forall₂ (Renamed g g') (Text.words s) (Text.words s') := by
  induction hn : s.length using Nat.strong_induction_on generalizing s s' with
  | _ n ih =>
    by_cases hb : allBlank s = true
    · rw [Text.words_of_allBlank hb, Text.words_of_allBlank (h.like.allBlank ▸ hb)]
      exact .nil
    · obtain ⟨b, w, t, rfl, hbb, hw, ht⟩ := Text.exists_first_word (by simpa using hb)
      obtain ⟨b', r', rfl, hb', hr⟩ := h.split (.inl (free_of_allBlank hbb).lastFree)
      have hfree : HeadFree t := by
        intro c hc
        rcases ht with rfl | ht
        · simp at hc
        · cases t with
          | nil => simp at hc
          | cons d t =>
            obtain rfl := Option.some.inj hc
            exact isNameChar_of_isBlank ht
      obtain ⟨w', t', rfl, hw', ht'⟩ := hr.split (.inr hfree)
      have hshort : t.length < n := by
        have hpos := List.length_pos_iff.2 hw.ne_nil
        simp only [List.length_append] at hn
        omega
      rw [Text.words_of_first hbb hw ht, Text.words_of_first (hb'.like.allBlank ▸ hbb)
        (hw'.like.word hw) (ht.imp ht'.like.eq_nil_iff.1 (ht'.like.startsBlank ▸ ·))]
      exact .cons hw' (ih t.length hshort ht' rfl)

theorem joinWords {ws ws' : List (List Char)} (h : List.Forall₂ (Renamed g g') ws ws') :
    Renamed g g' (Text.joinWords ws) (Text.joinWords ws') := by
  induction h with
  | nil => exact nil
  | cons hw hws ih =>
    cases hws with
    | nil => exact hw
    | cons hv hvs =>
      rw [Text.joinWords_cons_cons, Text.joinWords_cons_cons]
      exact hw.append (cons (by decide) ih) (.inr (headFree_cons (by decide) _))

theorem normalize (h : Renamed g g' s s') : Renamed g g' (Text.normalize s) (Text.normalize s') :=
  joinWords h.words

theorem eq_of_namesIn_nil (h : Renamed g g' s s') (hs : g.entries.namesIn s = []) : s' = s := by
  have hs' : g'.entries.namesIn s' = [] := by
    have hvalues := congrArg Found.values h
    rw [Glossary.values_reveal, Glossary.values_reveal, hs, List.map_nil] at hvalues
    exact List.map_eq_nil_iff.1 hvalues.symm
  rw [Renamed, Glossary.reveal_of_namesIn_nil hs, Glossary.reveal_of_namesIn_nil hs'] at h
  exact (List.map_injective_iff.2 (fun _ _ => Found.char.inj) h).symm

theorem of_namesIn_nil (hs : g.entries.namesIn s = []) (hs' : g'.entries.namesIn s = []) :
    Renamed g g' s s := by
  rw [Renamed, Glossary.reveal_of_namesIn_nil hs, Glossary.reveal_of_namesIn_nil hs']

end Renamed

end ErbLayout.Placeholder
