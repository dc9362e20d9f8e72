import ErbLayout.Files.Node
import Mathlib.Tactic.ByContra
import Mathlib.Tactic.Set
/-!
What a tree holds after something has been put into it. A tree into which a file is put below a
directory keeps its directories, and its other files.
-/

namespace ErbLayout.Files.Node

open Text (Bytes)

/-- Whether a directory stands at a location. -/
def directoryAt (n : Node) (l : Location) : Bool := (n.get? l).any isDirectory

/-- That a file with the given content stands at a location. -/
def Holds (n : Node) (l : Location) (content : Bytes) : Prop := n.get? l = some (.file content)

/-- No link stands anywhere in the tree. -/
def LinkFree (n : Node) : Prop := ∀ l target, n.get? l ≠ some (.link target)

section Lookup

theorem get?_append (n : Node) (l k : Location) :
    n.get? (l ++ k) = (n.get? l).bind fun m => m.get? k := by
  induction l generalizing n with
  | nil => rfl
  | cons name l ih =>
    simp only [List.cons_append, get?]
    cases n.entries.lookup name with
    | none => rfl
    | some c => exact ih c

theorem entries_of_not_directory {n : Node} (h : n.isDirectory = false) : n.entries = [] := by
  cases n with
  | directory es => simp [isDirectory] at h
  | _ => rfl

/-- Nothing stands below what is no directory. -/
theorem get?_below {n : Node} (h : n.isDirectory = false) {l : Location} (hl : l ≠ []) :
    n.get? l = none := by
  cases l with
  | nil => exact absurd rfl hl
  | cons name l => rw [get?, entries_of_not_directory h, List.lookup_nil]

/-- What has something below it is a directory. -/
theorem directoryAt_of_get? {n m : Node} {l k : Location} (h : n.get? (l ++ k) = some m)
    (hk : k ≠ []) : n.directoryAt l = true := by
  rw [get?_append] at h
  obtain ⟨c, hc, hm⟩ := Option.bind_eq_some_iff.1 h
  by_contra hd
  have hd : c.isDirectory = false := by simpa [directoryAt, hc] using hd
  rw [get?_below hd hk] at hm
  cases hm

theorem not_directoryAt_of_holds {n : Node} {l : Location} {c : Bytes} (h : n.Holds l c) :
    n.directoryAt l = false := by
  rw [Holds] at h
  simp [directoryAt, h, isDirectory]

theorem isSome_of_directoryAt {n : Node} {l : Location} (h : n.directoryAt l = true) :
    (n.get? l).isSome = true := by
  cases hg : n.get? l with
  | none => simp [directoryAt, hg] at h
  | some m => rfl

/-- Without links, what stands somewhere is a directory or a file. -/
theorem isSome_get?_iff {n : Node} (hn : n.LinkFree) {l : Location} :
    (n.get? l).isSome = true ↔ n.directoryAt l = true ∨ ∃ c, n.Holds l c := by
  constructor
  · intro h
    obtain ⟨m, hm⟩ := Option.isSome_iff_exists.1 h
    cases m with
    | file c => exact .inr ⟨c, hm⟩
    | link t => exact absurd hm (hn l t)
    | directory es => exact .inl (by simp [directoryAt, hm, isDirectory])
  · rintro (h | ⟨c, h⟩)
    · exact isSome_of_directoryAt h
    · rw [Holds] at h
      rw [h]
      rfl

end Lookup

section Links

theorem linkCount_le_of_mem {name : Name} {c : Node} {es : List (Name × Node)}
    (h : (name, c) ∈ es) : c.linkCount ≤ linkCountIn es := by
  induction es with
  | nil => cases h
  | cons e es ih =>
    rw [linkCountIn]
    rcases List.mem_cons.1 h with rfl | h
    · exact Nat.le_add_right _ _
    · exact Nat.le_trans (ih h) (Nat.le_add_left _ _)

theorem linkCount_of_lookup {n c : Node} {name : Name} (h : n.entries.lookup name = some c) :
    c.linkCount ≤ n.linkCount := by
  obtain ⟨es, fs, he, -⟩ := List.lookup_eq_some_iff.1 h
  cases n with
  | directory ds =>
    rw [linkCount]
    have hmem : (name, c) ∈ ds := by
      rw [show ds = es ++ (name, c) :: fs from he]
      simp
    exact linkCount_le_of_mem hmem
  | file _ => simp [entries] at he
  | link _ => simp [entries] at he

theorem linkFree_of_linkCount {n : Node} (h : n.linkCount = 0) : n.LinkFree := by
  intro l target hl
  induction l generalizing n with
  | nil =>
    cases hl
    simp [linkCount] at h
  | cons name l ih =>
    rw [get?] at hl
    cases hc : n.entries.lookup name with
    | none => simp [hc] at hl
    | some c =>
      have hle := linkCount_of_lookup hc
      rw [hc] at hl
      exact ih (by omega) hl

end Links

section Put

/-- Below where a node was put, there is what the node holds. -/
theorem get?_put_append (n new : Node) (l k : Location) :
    (n.put l new).get? (l ++ k) = new.get? k := by
  rw [get?_append, get?_put_self]
  rfl

/-- Above where a node was put, there are directories. -/
theorem directoryAt_put_above (n new : Node) (l : Location) {k : Location} (hk : k ≠ []) :
    (n.put (l ++ k) new).directoryAt l = true :=
  directoryAt_of_get? (get?_put_self n new (l ++ k)) hk

/-- Where neither lies on the way to the other, all is as it was. -/
theorem get?_put_apart (n new : Node) {l k : Location} (hl : ¬ l <+: k) (hk : ¬ k <+: l) :
    (n.put l new).get? k = n.get? k := by
  induction l generalizing n k with
  | nil => exact absurd List.nil_prefix hl
  | cons a l ih =>
    cases k with
    | nil => exact absurd List.nil_prefix hk
    | cons b k =>
      rw [put, get?, get?, entries, lookup_set]
      by_cases hb : b = a
      · subst hb
        have hl : ¬ l <+: k := fun h => hl (List.cons_prefix_cons.2 ⟨rfl, h⟩)
        have hk : ¬ k <+: l := fun h => hk (List.cons_prefix_cons.2 ⟨rfl, h⟩)
        rw [if_pos rfl]
        refine (ih _ hl hk).trans ?_
        cases n.entries.lookup b with
        | none =>
          cases k with
          | nil => exact absurd List.nil_prefix hk
          | cons c k => rfl
        | some c => rfl
      · rw [if_neg hb]

end Put

/-- A tree without links that has the directories of another, and its files except at some
locations, where it has other files. -/
structure SameBut (places : Location → Prop) (a b : Node) : Prop where
  linkFree : b.LinkFree
  directory : ∀ l, b.directoryAt l = a.directoryAt l
  kept : ∀ l, (a.get? l).isSome = true → (b.get? l).isSome = true
  file : ∀ l c, ¬ places l → (b.Holds l c ↔ a.Holds l c)

theorem SameBut.refl {n : Node} (h : n.LinkFree) (places : Location → Prop) :
    n.SameBut places n :=
  ⟨h, fun _ => rfl, fun _ h => h, fun _ _ _ => .rfl⟩

theorem SameBut.trans {p q : Location → Prop} {a b c : Node} (h : a.SameBut p b)
    (h' : b.SameBut q c) : a.SameBut (fun l => p l ∨ q l) c where
  linkFree := h'.linkFree
  directory l := (h'.directory l).trans (h.directory l)
  kept l hl := h'.kept l (h.kept l hl)
  file l c hl := (h'.file l c fun hq => hl (.inr hq)).trans (h.file l c fun hp => hl (.inl hp))

theorem SameBut.mono {p q : Location → Prop} {a b : Node} (h : a.SameBut p b)
    (hq : ∀ l, p l → q l) : a.SameBut q b :=
  { h with file := fun l c hl => h.file l c fun hp => hl (hq l hp) }

/-- A file that is put into a directory, not in the place of one, changes nothing else. -/
theorem sameBut_put {n : Node} (hn : n.LinkFree) {d : Location} {name : Name} (c : Bytes)
    (hd : n.directoryAt d = true) (hp : n.directoryAt (d ++ [name]) = false) :
    n.SameBut (· = d ++ [name]) (n.put (d ++ [name]) (.file c)) := by
  set l := d ++ [name] with hl
  -- Where the tree differs is split by how a location lies to that of the file.
  have below (k : Location) (hk : k ≠ []) :
      (n.put l (.file c)).get? (l ++ k) = none ∧ n.get? (l ++ k) = none := by
    refine ⟨(get?_put_append n _ l k).trans (get?_below rfl hk), ?_⟩
    by_contra h
    obtain ⟨m, hm⟩ := Option.ne_none_iff_exists'.1 h
    rw [directoryAt_of_get? hm hk] at hp
    cases hp
  have above (k r : Location) (hr : r ≠ []) (hk : k ++ r = l) :
      (n.put l (.file c)).directoryAt k = true ∧ n.directoryAt k = true := by
    refine ⟨hk ▸ directoryAt_put_above n (.file c) k hr, ?_⟩
    obtain ⟨s, rfl⟩ : k <+: d := by
      refine List.prefix_of_prefix_length_le ⟨r, hk⟩ ⟨[name], hl.symm⟩ ?_
      have := congrArg List.length (hk.trans hl)
      have := List.length_pos_iff.2 hr
      simp only [List.length_append, List.length_singleton] at *
      omega
    by_cases hs : s = []
    · simpa [hs] using hd
    · obtain ⟨m, hm⟩ := Option.isSome_iff_exists.1 (isSome_of_directoryAt hd)
      exact directoryAt_of_get? hm hs
  have cases' (k : Location) : k = l ∨ (∃ r, r ≠ [] ∧ k = l ++ r) ∨ (∃ r, r ≠ [] ∧ k ++ r = l) ∨
      (n.put l (.file c)).get? k = n.get? k := by
    by_cases h₁ : l <+: k
    · obtain ⟨r, rfl⟩ := h₁
      by_cases hr : r = []
      · exact .inl (by simp [hr])
      · exact .inr (.inl ⟨r, hr, rfl⟩)
    · by_cases h₂ : k <+: l
      · obtain ⟨r, hr⟩ := h₂
        refine .inr (.inr (.inl ⟨r, ?_, hr⟩))
        rintro rfl
        exact h₁ ⟨[], by simpa using hr.symm⟩
      · exact .inr (.inr (.inr (get?_put_apart n _ h₁ h₂)))
  refine ⟨fun k t hk => ?_, fun k => ?_, fun k hk => ?_, fun k e hk => ?_⟩
  · rcases cases' k with rfl | ⟨r, hr, rfl⟩ | ⟨r, hr, h⟩ | h
    · rw [get?_put_self] at hk
      cases hk
    · rw [(below r hr).1] at hk
      cases hk
    · have := (above k r hr h).1
      simp [directoryAt, hk, isDirectory] at this
    · exact hn k t (h ▸ hk)
  · rcases cases' k with rfl | ⟨r, hr, rfl⟩ | ⟨r, hr, h⟩ | h
    · rw [hp, directoryAt, get?_put_self]
      rfl
    · simp [directoryAt, below r hr]
    · rw [(above k r hr h).1, (above k r hr h).2]
    · rw [directoryAt, directoryAt, h]
  · rcases cases' k with rfl | ⟨r, hr, rfl⟩ | ⟨r, hr, h⟩ | h
    · rw [get?_put_self]
      rfl
    · rw [(below r hr).2] at hk
      cases hk
    · exact isSome_of_directoryAt (above k r hr h).1
    · rw [h]
      exact hk
  · rcases cases' k with rfl | ⟨r, hr, rfl⟩ | ⟨r, hr, h⟩ | h
    · exact absurd rfl hk
    · simp [Holds, below r hr]
    · have h₁ := (above k r hr h).1
      have h₂ := (above k r hr h).2
      constructor
      · intro hc
        rw [not_directoryAt_of_holds hc] at h₁
        cases h₁
      · intro hc
        rw [not_directoryAt_of_holds hc] at h₂
        cases h₂
    · rw [Holds, Holds, h]

end ErbLayout.Files.Node
