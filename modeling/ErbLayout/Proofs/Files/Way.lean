import ErbLayout.Files.Workspace
import ErbLayout.Proofs.Files.Tree
import Mathlib.Tactic.Tauto
/-!
Paths in a workspace without links. A path leads to one location, whatever stands there; reading
and replacing a file come down to what stands on the way and at that location.
-/

namespace ErbLayout.Files

open Text (Bytes)

namespace Location

/-- Where names lead from a location on. -/
def along : Location → List Name → Location
  | l, [] => l
  | l, n :: ns => if n = up then along l.dropLast ns else along (l ++ [n]) ns

theorem along_append (l : Location) (ns ms : List Name) :
    l.along (ns ++ ms) = (l.along ns).along ms := by
  induction ns generalizing l with
  | nil => rfl
  | cons n ns ih =>
    simp only [List.cons_append, along]
    split <;> exact ih _

/-- The location with a suffix at the end of its last name. -/
def suffixed (l : Location) (suffix : List Char) : Location :=
  l.dropLast ++ [l.getLastD [] ++ suffix]

@[simp] theorem suffixed_append (l : Location) (n : Name) (suffix : List Char) :
    suffixed (l ++ [n]) suffix = l ++ [n ++ suffix] := by simp [suffixed]

theorem suffixed_inj {l k : Location} {suffix : List Char} (hl : l ≠ []) (hk : k ≠ [])
    (h : l.suffixed suffix = k.suffixed suffix) : l = k := by
  obtain ⟨l', n, rfl⟩ := (List.eq_nil_or_concat l).resolve_left hl
  obtain ⟨k', m, rfl⟩ := (List.eq_nil_or_concat k).resolve_left hk
  simpa using h

end Location

namespace Node

/-- That names can be followed from a location on: there are directories on the way, and something
stands where it ends. -/
def Way (root : Node) : Location → List Name → Prop
  | _, [] => True
  | l, n :: ns =>
    root.directoryAt l = true ∧
      if n = up then root.Way l.dropLast ns
      else (root.get? (l ++ [n])).isSome = true ∧ root.Way (l ++ [n]) ns

theorem way_append (root : Node) (l : Location) (ns ms : List Name) :
    root.Way l (ns ++ ms) ↔ root.Way l ns ∧ root.Way (l.along ns) ms := by
  induction ns generalizing l with
  | nil => simp [Way, Location.along]
  | cons n ns ih =>
    simp only [List.cons_append, Way, Location.along]
    split <;> rw [ih] <;> tauto

theorem walk_eq_ok_iff {root : Node} (hr : root.LinkFree)
    {follow : Location → List Char → Except FileError.Cause Location} {followLast : Bool}
    {l k : Location} {ns : List Name} :
    root.walk follow followLast l ns = .ok k ↔ root.Way l ns ∧ k = l.along ns := by
  induction ns generalizing l with
  | nil =>
    rw [walk, Except.ok.injEq]
    exact ⟨fun h => ⟨trivial, h.symm⟩, fun h => h.2.symm⟩
  | cons n ns ih =>
    rw [walk, Way, Location.along]
    cases hd : root.directoryAt l with
    | false =>
      rw [directoryAt] at hd
      simp [hd]
    | true =>
      rw [directoryAt] at hd
      simp only [hd, Bool.not_true, Bool.false_eq_true, if_false, true_and]
      by_cases hn : n = up
      · simp only [if_pos hn]
        exact ih
      · simp only [if_neg hn]
        cases hg : root.get? (l ++ [n]) with
        | none => simp
        | some m =>
          cases m with
          | link t => exact absurd hg (hr _ t)
          | file c => simpa using ih
          | directory es => simpa using ih

/-- A way stays open when files are put beside what stands on it. -/
theorem SameBut.way {places : Location → Prop} {a b : Node} (h : a.SameBut places b)
    (ha : a.LinkFree) {l : Location} {ns : List Name} (hp : ¬ places (l.along ns)) :
    b.Way l ns ↔ a.Way l ns := by
  induction ns generalizing l with
  | nil => exact .rfl
  | cons n ns ih =>
    simp only [Way, h.directory]
    refine and_congr_right fun _ => ?_
    rw [Location.along] at hp
    split
    · rename_i hn
      rw [if_pos hn] at hp
      exact ih hp
    · rename_i hn
      rw [if_neg hn] at hp
      rw [ih hp]
      refine and_congr_left fun hw => ⟨fun hb => ?_, h.kept _⟩
      -- Where the way goes on there is a directory; where it ends nothing was put.
      cases ns with
      | nil =>
        rcases (isSome_get?_iff h.linkFree).1 hb with hd | ⟨c, hc⟩
        · exact isSome_of_directoryAt (h.directory _ ▸ hd)
        · exact (isSome_get?_iff ha).2 (.inr ⟨c, (h.file _ c hp).1 hc⟩)
      | cons m ns => exact isSome_of_directoryAt hw.1

/-- Where a way goes on there is a directory. -/
theorem Way.directoryAt_along {root : Node} {l : Location} {ns : List Name} {n : Name}
    (h : root.Way l (ns ++ [n])) : root.directoryAt (l.along ns) = true :=
  ((way_append root l ns [n]).1 h).2.1

end Node

namespace Workspace

/-- Where a path leads when there are no links. -/
def place (w : Workspace) (p : Pathname) : Location := (Node.origin w.location p).along p.names

/-- The files of a workspace as a run finds them: there are no links, and the run stands in a
directory. -/
structure Plain (w : Workspace) : Prop where
  linkFree : w.tree.LinkFree
  directory : w.tree.directoryAt w.location = true

/-- That the names of a path can be followed. -/
def Reaches (w : Workspace) (p : Pathname) : Prop :=
  p.names.any (·.contains '\x00') = false ∧ w.tree.Way (Node.origin w.location p) p.names

theorem locate_eq_ok_iff {w : Workspace} (h : w.tree.LinkFree) {p : Pathname} {followLast : Bool}
    {l : Location} : w.locate p followLast = .ok l ↔ w.Reaches p ∧ l = w.place p := by
  rw [locate, Reaches]
  cases hn : p.names.any (·.contains '\x00') with
  | true => simp
  | false =>
    simp only [Bool.false_eq_true, if_false, true_and]
    exact Node.walk_eq_ok_iff h

theorem locate_of_reaches {w : Workspace} (h : w.tree.LinkFree) {p : Pathname} (hp : w.Reaches p)
    (followLast : Bool) : w.locate p followLast = .ok (w.place p) :=
  (locate_eq_ok_iff h).2 ⟨hp, rfl⟩

theorem read_eq_ok_iff {w : Workspace} (h : w.tree.LinkFree) {p : Pathname} {c : Bytes} :
    w.read p = .ok c ↔ w.Reaches p ∧ w.tree.Holds (w.place p) c := by
  rw [read]
  constructor
  · intro hr
    cases hl : w.locate p true with
    | error e => simp [hl] at hr
    | ok l =>
      obtain ⟨hp, rfl⟩ := (locate_eq_ok_iff h).1 hl
      refine ⟨hp, ?_⟩
      rw [hl] at hr
      cases hg : w.tree.get? (w.place p) with
      | none => simp [hg] at hr
      | some m =>
        cases m with
        | file d =>
          simp only [hg, Except.ok.injEq] at hr
          rw [Node.Holds, hg, hr]
        | link t => simp [hg] at hr
        | directory es => simp [hg] at hr
  · rintro ⟨hp, hc⟩
    rw [Node.Holds] at hc
    rw [locate_of_reaches h hp]
    simp only [hc]

/-- A path reads as before when other files have changed. -/
theorem read_of_sameBut {w : Workspace} (hw : w.tree.LinkFree) {places : Location → Prop}
    {tree : Node} (h : w.tree.SameBut places tree) {p : Pathname} (hp : ¬ places (w.place p))
    {c : Bytes} : Workspace.read { w with tree } p = .ok c ↔ w.read p = .ok c := by
  rw [read_eq_ok_iff hw, read_eq_ok_iff h.linkFree]
  exact and_congr (and_congr_right fun _ => h.way hw hp) (h.file _ c hp)

/-- Making the directories above a file that is there changes nothing. -/
theorem makeDirectoriesFrom_of_reaches {w : Workspace} (h : w.tree.LinkFree) {root : List Char}
    {names : List Name} (hp : w.Reaches ⟨root, names.reverse⟩)
    (hd : w.tree.directoryAt (w.place ⟨root, names.reverse⟩) = true) :
    makeDirectoriesFrom root names w = .ok w := by
  cases names with
  | nil => rfl
  | cons n ns =>
    have hm : w.makeDirectory ⟨root, (n :: ns).reverse⟩ =
        .error ⟨.exists_, (Pathname.mk root (n :: ns).reverse).text⟩ := by
      rw [makeDirectory, locate_of_reaches h hp]
    have hi : w.isDirectory ⟨root, (n :: ns).reverse⟩ = true := by
      rw [isDirectory, node?, locate_of_reaches h hp]
      exact hd
    simp only [makeDirectoriesFrom, hm, hi]
    rfl

/-- A file that can be read stands in a directory under its own name. -/
theorem place_of_holds {w : Workspace} (hw : w.Plain) {p : Pathname} {c : Bytes}
    (hp : w.Reaches p) (hc : w.tree.Holds (w.place p) c) :
    p.names ≠ [] ∧ p.name ≠ up ∧ w.Reaches p.parent ∧
      w.tree.directoryAt (w.place p.parent) = true ∧ w.place p = w.place p.parent ++ [p.name] := by
  have origin_parent : Node.origin w.location p.parent = Node.origin w.location p := rfl
  have nil_directory : w.tree.directoryAt (Node.origin w.location p) = true := by
    rw [Node.origin]
    split
    · by_cases hl : w.location = []
      · exact hl ▸ hw.directory
      · obtain ⟨m, hm⟩ := Option.isSome_iff_exists.1 (Node.isSome_of_directoryAt hw.directory)
        exact Node.directoryAt_of_get? (l := []) hm hl
    · exact hw.directory
  have not_directory := Node.not_directoryAt_of_holds hc
  obtain ⟨hn, hway⟩ := hp
  rcases List.eq_nil_or_concat p.names with hnames | ⟨ns, n, hnames⟩
  · -- No name at all leads to a directory, not to a file.
    rw [place, hnames, Location.along] at not_directory
    rw [nil_directory] at not_directory
    cases not_directory
  · rw [List.concat_eq_append] at hnames
    have hname : p.name = n := by simp [Pathname.name, hnames]
    have hparent : p.parent.names = ns := by simp [Pathname.parent, hnames]
    rw [hnames] at hway
    have hd := hway.directoryAt_along
    have hup : n ≠ up := by
      rintro rfl
      rw [place, hnames, Location.along_append, Location.along, if_pos rfl, Location.along]
        at not_directory
      generalize (Node.origin w.location p).along ns = l at hd not_directory
      rcases List.eq_nil_or_concat l with rfl | ⟨k, m, rfl⟩
      · simp [hd] at not_directory
      · rw [List.concat_eq_append] at hd not_directory
        obtain ⟨d, hd⟩ := Option.isSome_iff_exists.1 (Node.isSome_of_directoryAt hd)
        rw [List.dropLast_concat, Node.directoryAt_of_get? hd (by simp)] at not_directory
        cases not_directory
    refine ⟨by simp [hnames], hname ▸ hup, ⟨?_, ?_⟩, ?_, ?_⟩
    · rw [hparent]
      rw [hnames, List.any_append] at hn
      exact (Bool.or_eq_false_iff.1 hn).1
    · rw [hparent, origin_parent]
      exact ((Node.way_append _ _ ns [n]).1 hway).1
    · rw [place, hparent, origin_parent]
      exact hd
    · rw [place, place, hparent, origin_parent, hname, hnames, Location.along_append]
      simp [Location.along, hup]

/-- The tree in which a file has new content, and what it held stands under the name with the
suffix. -/
def replaced (w : Workspace) (p : Pathname) (old new : Bytes) (backup : Option (List Char)) :
    Node :=
  let tree := match backup with
    | some suffix => w.tree.put ((w.place p).suffixed suffix) (.file old)
    | none => w.tree
  tree.put (w.place p) (.file new)

/-- A file that can be read can be replaced. -/
theorem replace_of_holds {w : Workspace} (hw : w.Plain) {p : Pathname} {old : Bytes}
    (hp : w.Reaches p) (hc : w.tree.Holds (w.place p) old) (new : Bytes)
    (backup : Option (List Char)) (makeParents : Bool) :
    w.replace p new backup makeParents =
      .ok { w with tree := w.replaced p old new backup } := by
  obtain ⟨hne, hup, hparent, hd, hplace⟩ := place_of_holds hw hp hc
  have hmake : w.makeDirectories p.parent = .ok w :=
    makeDirectoriesFrom_of_reaches hw.linkFree (by rw [List.reverse_reverse]; exact hparent)
      (by rw [List.reverse_reverse]; exact hd)
  have hempty : p.names.isEmpty = false := by simpa using hne
  have hlocate := locate_of_reaches hw.linkFree hparent true
  rw [Node.Holds, hplace] at hc
  rw [Node.directoryAt] at hd
  rw [replace]
  cases makeParents <;> cases backup <;>
    simp [hmake, hlocate, hd, hempty, hup, replaced, hplace, hc, bind, Except.bind]

theorem holds_replaced (w : Workspace) (p : Pathname) (old new : Bytes)
    (backup : Option (List Char)) : (w.replaced p old new backup).Holds (w.place p) new :=
  Node.get?_put_self _ _ _

/-- Replacing a file without a backup changes that file alone. -/
theorem sameBut_replaced_none {w : Workspace} (hw : w.Plain) {p : Pathname} {old : Bytes}
    (hp : w.Reaches p) (hc : w.tree.Holds (w.place p) old) (new : Bytes) :
    w.tree.SameBut (· = w.place p) (w.replaced p old new none) := by
  obtain ⟨-, -, -, hd, hplace⟩ := place_of_holds hw hp hc
  have hn := Node.not_directoryAt_of_holds hc
  rw [replaced]
  rw [hplace] at hn ⊢
  exact Node.sameBut_put hw.linkFree new hd hn

/-- Replacing a file changes that file and its backup alone, and the backup holds what the file
held. -/
theorem sameBut_replaced_some {w : Workspace} (hw : w.Plain) {p : Pathname} {old : Bytes}
    (hp : w.Reaches p) (hc : w.tree.Holds (w.place p) old) (new : Bytes) {suffix : List Char}
    (hs : suffix ≠ []) (hb : w.tree.directoryAt ((w.place p).suffixed suffix) = false) :
    w.tree.SameBut (fun l => l = w.place p ∨ l = (w.place p).suffixed suffix)
        (w.replaced p old new (some suffix)) ∧
      (w.replaced p old new (some suffix)).Holds ((w.place p).suffixed suffix) old := by
  obtain ⟨-, -, -, hd, hplace⟩ := place_of_holds hw hp hc
  have hn := Node.not_directoryAt_of_holds hc
  rw [replaced]
  rw [hplace, Location.suffixed_append] at hb ⊢
  rw [hplace] at hn
  have first := Node.sameBut_put hw.linkFree old hd hb
  have second := Node.sameBut_put first.linkFree new (first.directory _ ▸ hd)
    ((first.directory _).trans hn)
  refine ⟨(first.trans second).mono fun l h => h.symm, ?_⟩
  exact (second.file _ old fun h => hs (by simpa using h)).2 (Node.get?_put_self _ _ _)

end Workspace

end ErbLayout.Files
