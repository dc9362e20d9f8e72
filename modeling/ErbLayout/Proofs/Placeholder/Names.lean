import Mathlib.Tactic.NormNum
import ErbLayout.Placeholder.Name
/-!
Where names stand in a text. A name is read exactly where its text stands, and the texts of two
names never overlap: an `r` is found in them behind the first `e` only.
-/

namespace ErbLayout.Text

theorem length_hexDigits (width n : Nat) : (hexDigits width n).length = width := by
  induction width generalizing n with
  | zero => rfl
  | succ width ih => simp [hexDigits, ih]

theorem mem_hexDigits {width n : Nat} {c : Char} (h : c ∈ hexDigits width n) :
    ∃ d < 16, c = hexDigit d := by
  induction width generalizing n with
  | zero => simp [hexDigits] at h
  | succ width ih =>
    rw [hexDigits, List.mem_append, List.mem_singleton] at h
    rcases h with h | h
    · exact ih h
    · exact ⟨n % 16, Nat.mod_lt _ (by decide), h⟩

end ErbLayout.Text

namespace ErbLayout.Placeholder

open Text

theorem hexValue_hexDigit : ∀ d < 16, hexValue (hexDigit d) = some d := by decide

theorem isNameChar_hexDigit : ∀ d < 16, isNameChar (hexDigit d) = true := by decide

theorem hexDigit_ne_r : ∀ d < 16, hexDigit d ≠ 'r' := by decide

theorem hexValue_eq_some {c : Char} {d : Nat} (h : hexValue c = some d) :
    d < 16 ∧ c = hexDigit d := by
  have hc := Char.ofNat_toNat c
  unfold hexValue at h
  split at h
  · rename_i hr
    simp only [Bool.and_eq_true, decide_eq_true_eq, Char.le_def, UInt32.le_iff_toNat_le] at hr
    change 48 ≤ c.toNat ∧ c.toNat ≤ 57 at hr
    cases h
    refine ⟨by omega, ?_⟩
    rw [hexDigit, if_pos (by omega), show 48 + (c.toNat - 48) = c.toNat by omega, hc]
  · split at h
    · rename_i hr
      simp only [Bool.and_eq_true, decide_eq_true_eq, Char.le_def, UInt32.le_iff_toNat_le] at hr
      change 97 ≤ c.toNat ∧ c.toNat ≤ 102 at hr
      cases h
      refine ⟨by omega, ?_⟩
      rw [hexDigit, if_neg (by omega), show 87 + (c.toNat - 87) = c.toNat by omega, hc]
    · simp at h

theorem readDigits_succ (count n : Nat) (s : List Char) :
    readDigits (count + 1) n s =
      match readDigits count n s with
      | some (m, c :: t) => (hexValue c).map fun d => (16 * m + d, t)
      | _ => none := by
  induction count generalizing n s with
  | zero =>
    cases s with
    | nil => simp [readDigits]
    | cons c s => cases h : hexValue c <;> simp [readDigits, h]
  | succ count ih =>
    cases s with
    | nil => simp [readDigits]
    | cons c s =>
      rw [readDigits, readDigits]
      cases h : hexValue c with
      | none => rfl
      | some d => exact ih _ _

theorem readDigits_eq_some {count n m : Nat} {s t : List Char} :
    readDigits count n s = some (m, t) ↔
      ∃ v < 16 ^ count, m = 16 ^ count * n + v ∧ s = hexDigits count v ++ t := by
  induction count generalizing m t with
  | zero =>
    simp only [readDigits, Option.some.injEq, Prod.mk.injEq, Nat.pow_zero, Nat.lt_one_iff]
    constructor
    · rintro ⟨rfl, rfl⟩
      exact ⟨0, rfl, by simp, rfl⟩
    · rintro ⟨v, rfl, rfl, rfl⟩
      simp
  | succ count ih =>
    have hpow : 16 ^ (count + 1) = 16 * 16 ^ count := by rw [Nat.pow_succ, Nat.mul_comm]
    rw [readDigits_succ]
    constructor
    · intro h
      split at h
      · rename_i m' c t' hm
        obtain ⟨d, hd, he⟩ := Option.map_eq_some_iff.1 h
        simp only [Prod.mk.injEq] at he
        obtain ⟨rfl, rfl⟩ := he
        obtain ⟨v, hv, rfl, rfl⟩ := ih.1 hm
        obtain ⟨hlt, rfl⟩ := hexValue_eq_some hd
        refine ⟨16 * v + d, by omega, ?_, ?_⟩
        · rw [hpow, Nat.mul_add, Nat.mul_assoc, Nat.add_assoc]
        · rw [hexDigits, show (16 * v + d) / 16 = v by omega, show (16 * v + d) % 16 = d by omega]
          simp
      · simp at h
    · rintro ⟨v, hv, rfl, rfl⟩
      have hread : readDigits count n (hexDigits (count + 1) v ++ t) =
          some (16 ^ count * n + v / 16, hexDigit (v % 16) :: t) := by
        rw [ih]
        exact ⟨v / 16, by omega, rfl, by simp [hexDigits]⟩
      rw [hread]
      simp only [hexValue_hexDigit (v % 16) (Nat.mod_lt _ (by decide)), Option.map_some,
        Option.some.injEq, Prod.mk.injEq, and_true]
      rw [hpow, Nat.mul_add, Nat.mul_assoc]
      omega

theorem readDigits_zero_eq_some {count m : Nat} {s t : List Char} :
    readDigits count 0 s = some (m, t) ↔ m < 16 ^ count ∧ s = hexDigits count m ++ t := by
  rw [readDigits_eq_some]
  constructor
  · rintro ⟨v, hv, rfl, rfl⟩
    rw [Nat.mul_zero, Nat.zero_add]
    exact ⟨hv, rfl⟩
  · rintro ⟨hm, rfl⟩
    exact ⟨m, hm, by rw [Nat.mul_zero, Nat.zero_add], rfl⟩

namespace Name

variable {m n : Name}

theorem toNat_ofNat {v : Nat} (h : v < 16 ^ 32) : (BitVec.ofNat 128 v).toNat = v := by
  have hpow : (16 : Nat) ^ 32 = 2 ^ 128 := by norm_num
  rw [hpow] at h
  rw [BitVec.toNat_ofNat, Nat.mod_eq_of_lt h]

theorem toNat_lt (n : Name) : n.toNat < 16 ^ 32 := by
  have hpow : (16 : Nat) ^ 32 = 2 ^ 128 := by norm_num
  rw [hpow]
  exact n.isLt

@[simp] theorem length_text (n : Name) : n.text.length = size := by
  simp [text, size, length_hexDigits, opening, ending]

theorem isNameChar_of_mem {c : Char} (h : c ∈ n.text) : isNameChar c = true := by
  simp only [text, List.mem_append] at h
  have hopening : opening.all Placeholder.isNameChar = true := by decide
  have hending : ending.all Placeholder.isNameChar = true := by decide
  rcases h with (h | h) | h
  · exact List.all_eq_true.1 hopening c h
  · obtain ⟨d, hd, rfl⟩ := mem_hexDigits h
    exact isNameChar_hexDigit d hd
  · exact List.all_eq_true.1 hending c h

theorem read_eq_some {s : List Char} {k : Nat} :
    read s = some (n, k) ↔ k = size ∧ n.text <+: s := by
  constructor
  · intro h
    unfold read at h
    split at h
    · rename_i s
      split at h
      · rename_i v t hv
        simp only [Option.some.injEq, Prod.mk.injEq] at h
        obtain ⟨rfl, rfl⟩ := h
        obtain ⟨hlt, hs⟩ := readDigits_zero_eq_some.1 hv
        refine ⟨rfl, t, ?_⟩
        rw [text, toNat_ofNat hlt, hs]
        simp [opening, ending]
      · simp at h
    · simp at h
  · rintro ⟨rfl, t, rfl⟩
    have hdigits : readDigits 32 0 (hexDigits 32 n.toNat ++ ('t' :: 'a' :: 'g' :: t)) =
        some (n.toNat, 't' :: 'a' :: 'g' :: t) :=
      readDigits_zero_eq_some.2 ⟨toNat_lt n, rfl⟩
    simp [text, opening, ending, read, hdigits]

theorem text_injective (h : m.text = n.text) : m = n := by
  have hm : read n.text = some (m, size) := by
    rw [read_eq_some, h]
    exact ⟨rfl, List.prefix_rfl⟩
  have hn : read n.text = some (n, size) := by
    rw [read_eq_some]
    exact ⟨rfl, List.prefix_rfl⟩
  rw [hm] at hn
  simp only [Option.some.injEq, Prod.mk.injEq] at hn
  exact hn.1

theorem text_shape (n : Name) : ∃ u, n.text = 'e' :: 'r' :: (u ++ ['g']) ∧ 'r' ∉ u := by
  refine ⟨'b' :: hexDigits 32 n.toNat ++ ['t', 'a'], by simp [text, opening, ending], ?_⟩
  simp only [List.cons_append, List.mem_cons, List.mem_append, List.not_mem_nil, or_false, not_or]
  refine ⟨by decide, ?_, by decide, by decide⟩
  intro h
  obtain ⟨d, hd, he⟩ := mem_hexDigits h
  exact hexDigit_ne_r d hd he.symm

theorem not_overlap {u v : List Char} (hm : m.text = u ++ v) (hu : u ≠ []) (hv : v ≠ []) :
    ¬ v <+: n.text := by
  rintro ⟨w, hw⟩
  obtain ⟨x, hx, hrx⟩ := text_shape m
  obtain ⟨y, hy, -⟩ := text_shape n
  rw [hx] at hm
  rw [hy] at hw
  rcases v with _ | ⟨a, v⟩
  · exact hv rfl
  simp only [List.cons_append, List.cons.injEq] at hw
  obtain ⟨rfl, hw⟩ := hw
  rcases u with _ | ⟨b, u⟩
  · exact hu rfl
  simp only [List.cons_append, List.cons.injEq] at hm
  obtain ⟨-, hm⟩ := hm
  rcases u with _ | ⟨b, u⟩
  · simp at hm
  simp only [List.cons_append, List.cons.injEq] at hm
  obtain ⟨-, hm⟩ := hm
  rcases v with _ | ⟨a, v⟩
  · have hlast := congrArg List.getLast? hm
    simp at hlast
  · simp only [List.cons_append, List.cons.injEq] at hw
    obtain ⟨rfl, -⟩ := hw
    have hmem : 'r' ∈ x ++ ['g'] := by rw [hm]; simp
    simp [hrx] at hmem

theorem mem_occurrences {s : List Char} : n ∈ occurrences s ↔ n.text <:+: s := by
  induction s with
  | nil =>
    have hne : n.text ≠ [] := List.ne_nil_of_length_pos (by simp [size])
    simp [occurrences, hne]
  | cons c s ih =>
    rw [occurrences, List.infix_cons_iff, ← ih]
    split
    · rename_i m k hr
      obtain ⟨-, hm⟩ := read_eq_some.1 hr
      rw [List.mem_cons]
      refine or_congr_left ⟨fun h => h ▸ hm, fun h => ?_⟩
      have hn : read (c :: s) = some (n, size) := read_eq_some.2 ⟨rfl, h⟩
      rw [hr] at hn
      simp only [Option.some.injEq, Prod.mk.injEq] at hn
      exact hn.1.symm
    · rename_i hr
      have hn : ¬ n.text <+: c :: s := by
        intro h
        rw [read_eq_some.2 ⟨rfl, h⟩] at hr
        exact absurd hr (by simp)
      simp [hn]

end Name

end ErbLayout.Placeholder
