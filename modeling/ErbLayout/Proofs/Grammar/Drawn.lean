import Mathlib.Data.List.Basic
import ErbLayout.Grammar.State
/-!
What is left of the productions of a state comes from the productions of the table, whatever symbols
have been read.
-/

namespace ErbLayout.Grammar

theorem mem_of_addOpening {p q : Production} {os : Openings} {o : Nat × List Production}
    (ho : o ∈ addOpening p os) (hq : q ∈ o.2) : q = p ∨ ∃ o' ∈ os, q ∈ o'.2 := by
  induction os with
  | nil =>
    obtain rfl := List.mem_singleton.1 ho
    exact .inl (List.mem_singleton.1 hq)
  | cons o₀ os ih =>
    obtain ⟨n, ps⟩ := o₀
    rw [addOpening] at ho
    split at ho
    · rcases List.mem_cons.1 ho with rfl | ho
      · rcases List.mem_append.1 hq with hq | hq
        · exact .inr ⟨(n, ps), List.mem_cons_self, hq⟩
        · exact .inl (List.mem_singleton.1 hq)
      · exact .inr ⟨o, List.mem_cons_of_mem _ ho, hq⟩
    · rcases List.mem_cons.1 ho with rfl | ho
      · exact .inr ⟨(n, ps), List.mem_cons_self, hq⟩
      · rcases ih ho with h | ⟨o', ho', hq'⟩
        · exact .inl h
        · exact .inr ⟨o', List.mem_cons_of_mem _ ho', hq'⟩

theorem mem_of_openings {productions : List Production} {size : Nat} {number : Symbol → Option Nat}
    {i : Nat} {o : Nat × List Production} {q : Production}
    (ho : o ∈ (openings productions size number).getD i []) (hq : q ∈ o.2) : q ∈ productions := by
  suffices h : ∀ i, ∀ o ∈ (openings productions size number).getD i [], ∀ q ∈ o.2,
      q ∈ productions from h i o ho q hq
  refine List.foldlRecOn (motive := fun found : Array Openings => ∀ i, ∀ o ∈ found.getD i [],
    ∀ q ∈ o.2, q ∈ productions) productions _ ?_ fun found hfound p hp => ?_
  · intro i o ho
    rw [Array.getD_eq_getD_getElem?, Array.getElem?_replicate] at ho
    split at ho <;> simp at ho
  · intro i o ho q hq
    split at ho
    · rename_i n hn
      rw [Array.getD_eq_getD_getElem?, Array.getElem?_modify] at ho
      split at ho
      · rename_i hni
        subst hni
        cases hfind : found[n]? with
        | none => simp [hfind] at ho
        | some os =>
          rw [hfind] at ho
          rcases mem_of_addOpening ho hq with rfl | ⟨o', ho', hq'⟩
          · exact hp
          · exact hfound n o' (by rwa [Array.getD_eq_getD_getElem?, hfind]) q hq'
      · exact hfound i o (by rwa [Array.getD_eq_getD_getElem?]) q hq
    · exact hfound i o ho q hq

/-- What holds of the productions of a table, each with its head and its size, and of what is left of
one after its first symbol. -/
structure Table.Lasts (table : Table) (P : Nat → Nat → List Step → Prop) : Prop where
  tail : ∀ {head size step rest}, P head size (step :: rest) → P head size rest
  production : ∀ {n p}, p ∈ table.productionsOf n → P p.head p.steps.length p.steps
  token : ∀ {t o p}, o ∈ table.byToken.getD t [] → p ∈ o.2 → P p.head p.steps.length p.steps
  phrase : ∀ {n o p}, o ∈ table.byPhrase.getD n [] → p ∈ o.2 → P p.head p.steps.length p.steps

theorem Table.lasts_ofRules {τ ν : Type} [DecidableEq τ] [DecidableEq ν] {tokenNumber : τ → Nat}
    {tokens : Nat} {phraseNumber : ν → Nat} {rules : List (Rule τ ν)}
    {P : Nat → Nat → List Step → Prop}
    (htail : ∀ {head size step rest}, P head size (step :: rest) → P head size rest)
    (h : ∀ ps ∈ (Table.ofRules tokenNumber tokens phraseNumber rules).productions.toList,
      ∀ p ∈ ps, P p.head p.steps.length p.steps) :
    (Table.ofRules tokenNumber tokens phraseNumber rules).Lasts P := by
  have hflat {p : Production} (hp : p ∈
      (Table.ofRules tokenNumber tokens phraseNumber rules).productions.toList.flatten) :
      P p.head p.steps.length p.steps := by
    obtain ⟨ps, hps, hp⟩ := List.mem_flatten.1 hp
    exact h ps hps p hp
  refine ⟨htail, fun {n p} hp => ?_, fun ho hp => hflat (mem_of_openings ho hp),
    fun ho hp => hflat (mem_of_openings ho hp)⟩
  rw [Table.productionsOf, Array.getD_eq_getD_getElem?] at hp
  cases hfind : (Table.ofRules tokenNumber tokens phraseNumber rules).productions[n]? with
  | none => simp [hfind] at hp
  | some ps =>
    rw [hfind] at hp
    exact h ps (Array.mem_toList_iff.2 (Array.mem_of_getElem? hfind)) p hp

/-- Something holds of what is left of a production. -/
def Item.Drawn (P : Nat → Nat → List Step → Prop) (i : Item) : Prop := P i.head i.size i.rest

/-- An item after a symbol stood before that symbol. -/
theorem Item.Drawn.exists_step {P : Nat → Nat → List Step → Prop} {i j : Item} {symbol : Symbol}
    (hi : i.Drawn P) (h : i.advance symbol = some j) :
    ∃ step, step.symbol = symbol ∧ P j.head j.size (step :: j.rest) := by
  unfold Item.advance at h
  split at h
  · simp at h
  · rename_i step rest hrest
    split at h
    · rename_i hstep
      rw [Item.Drawn, hrest] at hi
      exact ⟨step, hstep, Option.some.inj h ▸ hi⟩
    · simp at h

namespace State

/-- Something holds of what is left of the productions of a state. -/
def Drawn (P : Nat → Nat → List Step → Prop) (s : State) : Prop := ∀ i ∈ s.items, i.Drawn P

theorem strongest_mem (i : Item) (is : List Item) : strongest i is ∈ i :: is := by
  refine List.foldlRecOn (motive := fun best => best ∈ i :: is) is _ List.mem_cons_self
    fun best hbest j hj => ?_
  split
  · exact List.mem_cons_of_mem i hj
  · exact hbest

theorem choose_eq (i : Item) (others : List Item) :
    choose i others = .reduce i.head i.size ∨ choose i others = .shift := by
  unfold choose
  exact ite_eq_or_eq _ _ _

/-- What is put in the place of some symbols is the head of a whole production of the state. -/
theorem exists_of_reduce {table : Table} {s : State} {t head size : Nat}
    (h : s.action table t = .reduce head size) :
    ∃ i ∈ s.items, i.isWhole = true ∧ i.head = head ∧ i.size = size := by
  have hfound {i : Item} (hi : i ∈ s.ended t) (hreduce : Action.reduce i.head i.size =
      .reduce head size) : ∃ i ∈ s.items, i.isWhole = true ∧ i.head = head ∧ i.size = size := by
    obtain ⟨hmem, hwhole⟩ := List.mem_filter.1 hi
    obtain ⟨hhead, hsize⟩ := Action.reduce.inj hreduce
    exact ⟨i, hmem, (Bool.and_eq_true_iff.1 hwhole).1, hhead, hsize⟩
  unfold action at h
  split at h
  · simp at h
  · simp at h
  · rename_i i is hended _
    exact hfound (hended ▸ strongest_mem i is) h
  · rename_i i is o os hended _
    split at h
    · exact hfound (hended ▸ List.mem_cons_self) h
    · rcases choose_eq (strongest i is) (o :: os) with hchoose | hchoose
      · exact hfound (hended ▸ strongest_mem i is) (hchoose.symm.trans h)
      · simp [hchoose] at h

variable {table : Table} {P : Nat → Nat → List Step → Prop} (hP : table.Lasts P)

theorem drawn_ofItems {first : Array TokenSet} {items : List Item} (h : ∀ i ∈ items, i.Drawn P) :
    (ofItems first items).Drawn P := h

include hP

theorem exists_step_of_begun {symbol : Symbol} {s : State} {j : Item}
    (hj : j ∈ s.begun table symbol) :
    ∃ step, step.symbol = symbol ∧ P j.head j.size (step :: j.rest) := by
  obtain ⟨⟨n, ps⟩, ho, hj⟩ := List.mem_flatMap.1 hj
  dsimp only at hj
  split at hj
  · simp at hj
  · rename_i follow hfollow
    obtain ⟨p, hp, hadvance⟩ := List.mem_filterMap.1 hj
    have hbeginning : (Item.beginning p follow).Drawn P := by
      cases symbol with
      | token t => exact hP.token ho hp
      | phrase n => exact hP.phrase ho hp
    exact hbeginning.exists_step hadvance

/-- What is left of a production after a symbol stood behind that symbol in it. -/
theorem exists_step_of_after {s : State} (hs : s.Drawn P) {symbol : Symbol} {j : Item}
    (hj : j ∈ (s.after table symbol).items) :
    ∃ step, step.symbol = symbol ∧ P j.head j.size (step :: j.rest) := by
  rcases List.mem_append.1 hj with hj | hj
  · obtain ⟨i, hi, hadvance⟩ := List.mem_filterMap.1 hj
    exact (hs i hi).exists_step hadvance
  · exact exists_step_of_begun hP hj

theorem drawn_after {s : State} (hs : s.Drawn P) (symbol : Symbol) :
    (s.after table symbol).Drawn P := by
  intro j hj
  obtain ⟨step, -, hstep⟩ := exists_step_of_after hP hs hj
  exact hP.tail hstep

end State

end ErbLayout.Grammar
