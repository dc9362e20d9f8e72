import ErbLayout.Proofs.Grammar.Drawn
import ErbLayout.Ruby.Syntax
/-!
What the frames of a reader of code hold comes from the productions of Ruby, and a reader goes on to
the end of the code. Code cannot end in a minus sign: whatever has been read before the sign,
something else than the end has to come behind it.
-/

namespace ErbLayout.Ruby

open Grammar

section Drawn

variable {P : Nat → Nat → List Step → Prop} (hP : table.Lasts P)
include hP

theorem drawn_beforeCode : beforeCode.Drawn P := by
  refine State.drawn_ofItems fun i hi => ?_
  obtain ⟨p, hp, rfl⟩ := List.mem_map.1 hi
  exact hP.production hp

theorem drawn_beforeBody : beforeBody.Drawn P := by
  refine State.drawn_ofItems fun i hi => ?_
  obtain ⟨p, hp, hadvance⟩ := List.mem_filterMap.1 hi
  have hbeginning : (Item.beginning p 0).Drawn P := hP.production hp
  obtain ⟨step, -, hstep⟩ := hbeginning.exists_step hadvance
  exact hP.tail hstep

theorem drawn_reduce {frames next : List Frame} {head size : Nat}
    (hframes : ∀ f ∈ frames, f.state.Drawn P) (h : reduce frames head size = some next) :
    ∀ f ∈ next, f.state.Drawn P := by
  unfold reduce at h
  split at h
  · rename_i blockWord top below hmark hdrop
    have hbelow : ∀ f ∈ top :: below, f.state.Drawn P :=
      fun f hf => hframes f (List.mem_of_mem_drop (hdrop ▸ hf))
    rw [← Option.some.inj h]
    exact List.forall_mem_cons.2
      ⟨State.drawn_after hP (hbelow top List.mem_cons_self) _, hbelow⟩
  · simp at h

theorem drawn_settle {t : Token} {n : Nat} {frames ready : List Frame}
    (hframes : ∀ f ∈ frames, f.state.Drawn P) (h : settle t n frames = .ready ready) :
    ∀ f ∈ ready, f.state.Drawn P := by
  induction n generalizing frames with
  | zero => simp [settle] at h
  | succ n ih =>
    cases frames with
    | nil => simp [settle] at h
    | cons top below =>
      rw [settle] at h
      cases haction : actionOn top.state t with
      | fail => simp [haction] at h
      | shift =>
        rw [haction] at h
        dsimp only at h
        split at h
        · simp at h
        · exact Settled.ready.inj h ▸ hframes
      | reduce head size =>
        rw [haction] at h
        dsimp only at h
        split at h
        · split at h <;> simp at h
        · cases hreduce : reduce (top :: below) head size with
          | none => simp [hreduce] at h
          | some next =>
            rw [hreduce] at h
            exact ih (drawn_reduce hP hframes hreduce) h

theorem drawn_shift {frames : List Frame} (r : Read) (hframes : ∀ f ∈ frames, f.state.Drawn P) :
    ∀ f ∈ shift frames r, f.state.Drawn P := by
  cases frames with
  | nil => simp [shift]
  | cons top below =>
    have hafter := State.drawn_after hP (hframes top List.mem_cons_self) (.token r.token.number)
    have hcons {s : State} (hs : s.Drawn P) (blockWord : Bool) :
        ∀ f ∈ ⟨s, blockWord⟩ :: top :: below, f.state.Drawn P :=
      List.forall_mem_cons.2 ⟨hs, hframes⟩
    simp only [shift]
    split
    · exact hcons (drawn_beforeBody hP) false
    · split
      · exact fun f hf => hcons hafter r.blockWord f (List.mem_of_mem_drop hf)
      · exact hcons hafter r.blockWord

end Drawn

theorem settle_program {t : Token} {n : Nat} {frames : List Frame}
    (h : settle t n frames = .program) : t = .endOfCode := by
  induction n generalizing frames with
  | zero => simp [settle] at h
  | succ n ih =>
    cases frames with
    | nil => simp [settle] at h
    | cons top below =>
      rw [settle] at h
      cases haction : actionOn top.state t with
      | fail => simp [haction] at h
      | shift =>
        rw [haction] at h
        dsimp only at h
        split at h <;> simp at h
      | reduce head size =>
        rw [haction] at h
        dsimp only at h
        split at h
        · split at h
          · assumption
          · simp at h
        · cases hreduce : reduce (top :: below) head size with
          | none => simp [hreduce] at h
          | some next =>
            rw [hreduce] at h
            exact ih h

theorem accepts_of_fail {top : Frame} {below : List Frame} {r : Read}
    (h : actionOn top.state r.token = .fail) (n : Nat) : accepts n (top :: below) r = false := by
  cases n with
  | zero => rfl
  | succ n =>
    rw [accepts, show 64 * ((top :: below).length + 1) = 64 * below.length + 127 + 1 by simp; omega,
      settle, h]

theorem settle_endOfCode (n : Nat) (frames ready : List Frame) :
    settle .endOfCode n frames ≠ .ready ready := by
  induction n generalizing frames with
  | zero => simp [settle]
  | succ n ih =>
    cases frames with
    | nil => simp [settle]
    | cons top below =>
      rw [settle]
      cases actionOn top.state .endOfCode with
      | fail => simp
      | shift => simp
      | reduce head size =>
        dsimp only
        split
        · simp
        · cases reduce (top :: below) head size with
          | none => simp
          | some frames => exact ih frames

/-- Whether something else than the end of the code comes behind each minus sign. -/
def minusGoesOn : List Step → Bool
  | [] => true
  | step :: rest =>
    (!(step.symbol == .token Token.unaryMinus.number || step.symbol == .token Token.binaryMinus.number)
      || rest.head?.any fun next =>
        !(Table.firstOf table.first next.symbol).has Token.endOfCode.number) && minusGoesOn rest

theorem lasts_minusGoesOn : table.Lasts fun _ _ steps => minusGoesOn steps = true := by
  have hall : ∀ ps ∈ table.productions.toList, ∀ p ∈ ps, minusGoesOn p.steps = true := by
    decide +kernel
  exact Table.lasts_ofRules (fun h => (Bool.and_eq_true_iff.1 h).2) hall

/-- Nothing ends behind a minus sign, nor can the end of the code go on with it. -/
theorem actionOn_after_minus {s : State}
    (hs : s.Drawn fun _ _ steps => minusGoesOn steps = true) {t : Token}
    (ht : t = .unaryMinus ∨ t = .binaryMinus) :
    actionOn (s.after table (.token t.number)) .endOfCode = .fail := by
  set s' := s.after table (.token t.number) with hs'
  have hnext {i : Item} (hi : i ∈ s'.items) :
      i.isWhole = false ∧ (i.next table.first).has Token.endOfCode.number = false := by
    obtain ⟨step, hstep, hrest⟩ := State.exists_step_of_after lasts_minusGoesOn hs hi
    have hminus : (step.symbol == .token Token.unaryMinus.number ||
        step.symbol == .token Token.binaryMinus.number) = true := by
      rcases ht with rfl | rfl <;> simp [hstep]
    rw [minusGoesOn, hminus, Bool.not_true, Bool.false_or, Bool.and_eq_true] at hrest
    cases h : i.rest with
    | nil => simp [h] at hrest
    | cons next rest => simpa [Item.isWhole, Item.next, h] using hrest.1
  have hended : s'.ended Token.endOfCode.number = [] := by
    refine List.filter_eq_nil_iff.2 fun i hi => ?_
    simp [(hnext hi).1]
  have hcontinued : s'.continued table.first Token.endOfCode.number = [] := by
    refine List.filter_eq_nil_iff.2 fun i hi => ?_
    simp [(hnext hi).2]
  rw [actionOn, if_neg (by simp), State.action, hended, hcontinued]

/-- A reader that finds the end of the code behind a minus sign gives up. -/
theorem accepts_minus {frames : List Frame} {r : Read}
    (hframes : ∀ f ∈ frames, f.state.Drawn fun _ _ steps => minusGoesOn steps = true)
    (hr : r.token = .unaryMinus ∨ r.token = .binaryMinus)
    (hend : ∀ ready top below r', settle r.token (64 * (frames.length + 1)) frames = .ready ready →
      shift ready r = top :: below → read (expected top.state) r.source = some r' →
      r'.token = .endOfCode) (n : Nat) : accepts n frames r = false := by
  cases n with
  | zero => rfl
  | succ n =>
    rw [accepts]
    cases hsettle : settle r.token (64 * (frames.length + 1)) frames with
    | fail => rfl
    | program =>
      have hcode := settle_program hsettle
      rcases hr with h | h <;> simp [h] at hcode
    | ready ready =>
      have hready := drawn_settle lasts_minusGoesOn hframes hsettle
      dsimp only
      cases ready with
      | nil => rfl
      | cons top below =>
        have hshift : shift (top :: below) r =
            ⟨top.state.after table (.token r.token.number), r.blockWord⟩ :: top :: below := by
          rcases hr with h | h <;> simp [shift, h]
        have hfail := actionOn_after_minus (hready top List.mem_cons_self) hr
        rw [hshift]
        dsimp only
        cases hread : read (expected (top.state.after table (.token r.token.number))) r.source with
        | none => rfl
        | some r' =>
          rw [Option.any_some]
          exact accepts_of_fail (hend _ _ _ r' hsettle hshift hread ▸ hfail) n

end ErbLayout.Ruby
