import ErbLayout.Proofs.Batch.Ledger
/-!
Files that are rewritten in place, one after another. Each holds its layout in the end, with a backup
of what it held, and no other file changes, as long as they are different files and none of them is
the backup of another.
-/

namespace ErbLayout.Batch

open Files Text
open Placeholder (Names)

/-- Where the file at a path stands. -/
def placeOf (w : Workspace) (path : List Char) : Location := w.place (Pathname.ofText path)

/-- Where the backup of the file at a path stands. -/
def backupOf (w : Workspace) (path : List Char) : Location :=
  (placeOf w path).suffixed backupSuffix

/-- The files of a batch: the paths lead to different places, none of which is that of a backup, and
a backup has no directory in its place. -/
structure Orderly (w : Workspace) (m : Mode) (paths : List (List Char)) : Prop where
  plain : w.Plain
  named : marker ∉ paths
  apart : paths.Pairwise fun p q => placeOf w p ≠ placeOf w q
  noBackup : ∀ p ∈ paths, ∀ q ∈ paths, placeOf w p ≠ backupOf w q
  free : m.nobackup = false → ∀ p ∈ paths, w.tree.directoryAt (backupOf w p) = false

theorem Orderly.tail {w : Workspace} {m : Mode} {path : List Char} {paths : List (List Char)}
    (h : Orderly w m (path :: paths)) : Orderly w m paths where
  plain := h.plain
  named := fun hm => h.named (List.mem_cons_of_mem _ hm)
  apart := (List.pairwise_cons.1 h.apart).2
  noBackup p hp q hq := h.noBackup p (List.mem_cons_of_mem _ hp) q (List.mem_cons_of_mem _ hq)
  free hb p hp := h.free hb p (List.mem_cons_of_mem _ hp)

/-- No file comes twice. -/
theorem Orderly.not_mem {w : Workspace} {m : Mode} {path : List Char}
    {before behind : List (List Char)} (h : Orderly w m (before ++ path :: behind)) :
    path ∉ before ∧ path ∉ behind := by
  obtain ⟨-, hpath, hbefore⟩ := List.pairwise_append.1 h.apart
  exact ⟨fun hp => hbefore path hp path List.mem_cons_self rfl,
    fun hp => (List.pairwise_cons.1 hpath).1 path hp rfl⟩

namespace Mode

/-- The locations that change when the file at a path is rewritten. -/
def Touches (m : Mode) (w : Workspace) (path : List Char) (l : Location) : Prop :=
  l = placeOf w path ∨ m.nobackup = false ∧ l = backupOf w path

variable {m : Mode} {w₀ w : Workspace} {names : Names} {path : List Char}
  {paths : List (List Char)} {content : Bytes} {text layout : List Char}

theorem read_of_laidOut (h : (m.verdict w names path).1 = .laidOut content text layout) :
    w.read (Pathname.ofText path) = .ok content := by
  rw [verdict] at h
  split at h
  · cases h
  · rename_i c hc
    split at h
    · cases h
    · dsimp only at h
      split at h
      · cases h
      · cases h
      · split at h
        · cases h
        · cases h
          exact hc

section Inplace

variable (hi : m.inplace = true) (hc : m.check = false)

include hi hc

/-- Rewriting a file changes it and its backup, and nothing else. -/
theorem written_of_change (hw : w.Plain) (hr : w.read (Pathname.ofText path) = .ok content)
    (hb : m.nobackup = false → w.tree.directoryAt (backupOf w path) = false)
    (layout : List Char) :
    ∃ tree, m.written w path layout true = .ok { w with tree } ∧
      w.tree.SameBut (m.Touches w path) tree ∧ tree.Holds (placeOf w path) (encode layout) ∧
      (m.nobackup = false → tree.Holds (backupOf w path) content) := by
  obtain ⟨hp, hh⟩ := (Workspace.read_eq_ok_iff hw.linkFree).1 hr
  have hwritten := Workspace.replace_of_holds hw hp hh (encode layout)
    (if m.nobackup = true then none else some backupSuffix) m.makeParents
  refine ⟨w.replaced (Pathname.ofText path) content (encode layout)
    (if m.nobackup = true then none else some backupSuffix), ?_, ?_⟩
  · rw [written, target?]
    simpa [hi, hc] using hwritten
  cases hn : m.nobackup with
  | true =>
    simp only [if_true, Bool.true_eq_false, false_implies, and_true]
    exact ⟨(Workspace.sameBut_replaced_none hw hp hh _).mono fun l hl => .inl hl,
      Workspace.holds_replaced _ _ _ _ _⟩
  | false =>
    simp only [Bool.false_eq_true, if_false, true_implies]
    have hne : backupSuffix ≠ [] := by decide
    obtain ⟨hsame, hbackup⟩ :=
      Workspace.sameBut_replaced_some hw hp hh (encode layout) hne (hb hn)
    exact ⟨hsame.mono fun l hl => hl.imp_right fun h => ⟨hn, h⟩,
      Workspace.holds_replaced _ _ _ _ _, hbackup⟩

theorem written_of_same : m.written w path layout false = .ok w := by
  rw [written, target?]
  simp [hi, hc]

end Inplace

/-- Where a batch stands that has rewritten files other than those to come. -/
structure Under (m : Mode) (w₀ : Workspace) (paths : List (List Char)) (w : Workspace) : Prop where
  orderly : Orderly w₀ m paths
  location : w.location = w₀.location
  untouched : ∃ places, w₀.tree.SameBut places w.tree ∧ ∀ p ∈ paths, ¬ places (placeOf w₀ p)

namespace Under

theorem start (h : Orderly w₀ m paths) : m.Under w₀ paths w₀ :=
  ⟨h, rfl, fun _ => False, .refl h.plain.linkFree _, fun _ _ => id⟩

theorem placeOf_eq (h : m.Under w₀ paths w) (path : List Char) :
    placeOf w path = placeOf w₀ path := by
  simp only [placeOf, Workspace.place, h.location]

theorem backupOf_eq (h : m.Under w₀ paths w) (path : List Char) :
    backupOf w path = backupOf w₀ path := by
  rw [backupOf, backupOf, h.placeOf_eq]

theorem plain (h : m.Under w₀ paths w) : w.Plain := by
  obtain ⟨places, hs, -⟩ := h.untouched
  refine ⟨hs.linkFree, ?_⟩
  rw [hs.directory, h.location]
  exact h.orderly.plain.directory

theorem read_iff (h : m.Under w₀ (path :: paths) w) :
    w.read (Pathname.ofText path) = .ok content ↔
      w₀.read (Pathname.ofText path) = .ok content := by
  obtain ⟨places, hs, hp⟩ := h.untouched
  have hw : w = { w₀ with tree := w.tree } := by
    rw [← h.location]
  rw [hw]
  exact Workspace.read_of_sameBut h.orderly.plain.linkFree hs (hp path List.mem_cons_self)

theorem free (h : m.Under w₀ (path :: paths) w) (hn : m.nobackup = false) :
    w.tree.directoryAt (backupOf w path) = false := by
  obtain ⟨places, hs, -⟩ := h.untouched
  rw [hs.directory, h.backupOf_eq]
  exact h.orderly.free hn path List.mem_cons_self

theorem tail (h : m.Under w₀ (path :: paths) w) : m.Under w₀ paths w where
  orderly := h.orderly.tail
  location := h.location
  untouched := by
    obtain ⟨places, hs, hp⟩ := h.untouched
    exact ⟨places, hs, fun p hmem => hp p (List.mem_cons_of_mem _ hmem)⟩

/-- The files to come are none of those that a rewriting touches. -/
theorem not_touches (h : m.Under w₀ (path :: paths) w) {p : List Char} (hp : p ∈ paths) :
    ¬ m.Touches w₀ path (placeOf w₀ p) := by
  rintro (heq | ⟨-, heq⟩)
  · exact (List.pairwise_cons.1 h.orderly.apart).1 p hp heq.symm
  · exact h.orderly.noBackup p (List.mem_cons_of_mem _ hp) path List.mem_cons_self heq

/-- What a rewriting touches is touched by none of those to come. -/
theorem not_touched (h : m.Under w₀ (path :: paths) w) {e : List Char × Verdict}
    (he : e ∈ m.ledger w₀ names paths) (hch : e.2.changes = true)
    (hr : w₀.read (Pathname.ofText path) = .ok content) {l : Location}
    (hl : m.Touches w₀ path l) : ¬ m.Touches w₀ e.1 l := by
  obtain ⟨hmem, names', hv⟩ := mem_ledger he
  have hne := (List.pairwise_cons.1 h.orderly.apart).1 e.1 hmem
  have hmem' := List.mem_cons_of_mem path hmem
  have stands {p : List Char} {c : Bytes} (hp : w₀.read (Pathname.ofText p) = .ok c) :
      placeOf w₀ p ≠ [] := by
    obtain ⟨hreach, hholds⟩ := (Workspace.read_eq_ok_iff h.orderly.plain.linkFree).1 hp
    rw [placeOf, (Workspace.place_of_holds h.orderly.plain hreach hholds).2.2.2.2]
    simp
  have other : placeOf w₀ e.1 ≠ [] := by
    cases hlaid : e.2 with
    | laidOut c text layout => exact stands (read_of_laidOut (hv.trans hlaid))
    | stopped => simp [hlaid, Verdict.changes] at hch
    | faulty f => simp [hlaid, Verdict.changes] at hch
  rintro (rfl | ⟨-, rfl⟩) <;> rcases hl with heq | ⟨-, heq⟩
  · exact hne heq.symm
  · exact h.orderly.noBackup e.1 hmem' path List.mem_cons_self heq
  · exact h.orderly.noBackup path List.mem_cons_self e.1 hmem' heq.symm
  · exact hne (Location.suffixed_inj other (stands hr) heq).symm

section Inplace

variable (hi : m.inplace = true) (hc : m.check = false)

include hi hc

/-- Other files do not matter to a verdict. -/
theorem verdict_eq (h : m.Under w₀ (path :: paths) w) (names : Names) :
    m.verdict w names path = m.verdict w₀ names path := by
  have h₀ : m.Under w₀ (path :: paths) w₀ := start h.orderly
  have writes {v : Workspace} {content : Bytes} (hv : m.Under w₀ (path :: paths) v)
      (hr : v.read (Pathname.ofText path) = .ok content) (layout : List Char) (changed : Bool) :
      ∃ v', m.written v path layout changed = .ok v' := by
    cases changed with
    | true =>
      obtain ⟨tree, ht, -⟩ := written_of_change hi hc hv.plain hr hv.free layout
      exact ⟨_, ht⟩
    | false => exact ⟨v, written_of_same hi hc⟩
  cases hr : w₀.read (Pathname.ofText path) with
  | error e =>
    have hr' : ∃ e, w.read (Pathname.ofText path) = .error e := by
      cases hw : w.read (Pathname.ofText path) with
      | error e => exact ⟨e, rfl⟩
      | ok content =>
        rw [h.read_iff.1 hw] at hr
        cases hr
    obtain ⟨e', hr'⟩ := hr'
    rw [verdict, verdict, hr, hr']
  | ok content =>
    have hr' := h.read_iff.2 hr
    rw [verdict, verdict, hr, hr']
    dsimp only
    cases Session.textOf content with
    | error e => rfl
    | ok text =>
      dsimp only
      cases (Template.report (m.style path) names text).result with
      | error f => cases f <;> rfl
      | ok layout =>
        obtain ⟨v, hv⟩ := writes h hr' layout (layout != text)
        obtain ⟨v₀, hv₀⟩ := writes h₀ hr layout (layout != text)
        dsimp only
        rw [hv, hv₀]

/-- A verdict that changes a file rewrites it; any other leaves the files as they are. -/
theorem record_spec (h : m.Under w₀ (path :: paths) w) {names : Names} {v : Verdict}
    (hv : (m.verdict w₀ names path).1 = v) :
    m.Under w₀ paths (m.record w (path, v)) ∧
      w.tree.SameBut (fun l => v.changes = true ∧ m.Touches w₀ path l)
        (m.record w (path, v)).tree ∧
      ∀ content text layout, v = .laidOut content text layout → layout ≠ text →
        (m.record w (path, v)).tree.Holds (placeOf w₀ path) (encode layout) ∧
          (m.nobackup = false →
            (m.record w (path, v)).tree.Holds (backupOf w₀ path) content) := by
  have hrefl := Node.SameBut.refl h.plain.linkFree
    fun l => v.changes = true ∧ m.Touches w₀ path l
  cases v with
  | stopped => exact ⟨h.tail, hrefl, by simp⟩
  | faulty f => exact ⟨h.tail, hrefl, by simp⟩
  | laidOut content text layout =>
    have hr := h.read_iff.2 (read_of_laidOut hv)
    by_cases hne : layout = text
    · have hrec : m.record w (path, .laidOut content text layout) = w := by
        rw [record]
        simp [hne, written_of_same hi hc]
      rw [hrec]
      refine ⟨h.tail, hrefl, fun _ _ _ heq hne' => ?_⟩
      cases heq
      exact absurd hne hne'
    · have hch : (layout != text) = true := by simpa using hne
      obtain ⟨tree, ht, hs, hholds, hbackup⟩ :=
        written_of_change hi hc h.plain hr h.free layout
      have hrec : m.record w (path, .laidOut content text layout) = { w with tree } := by
        rw [record, hch, ht]
      have htouch : m.Touches w path = m.Touches w₀ path := by
        funext l
        rw [Touches, Touches, h.placeOf_eq, h.backupOf_eq]
      rw [htouch] at hs
      rw [h.placeOf_eq] at hholds
      rw [h.backupOf_eq] at hbackup
      rw [hrec]
      obtain ⟨places, hp, hnot⟩ := h.untouched
      refine ⟨⟨h.orderly.tail, h.location, _, hp.trans hs, fun p hmem => ?_⟩,
        hs.mono fun l hl => ⟨hch, hl⟩, fun _ _ _ heq _ => ?_⟩
      · rintro (hpl | htl)
        · exact hnot p (List.mem_cons_of_mem _ hmem) hpl
        · exact h.not_touches hmem htl
      · cases heq
        exact ⟨hholds, hbackup⟩

/-- The files after a batch: those that change hold their layouts, with backups, and no other
file is touched. -/
theorem foldl_record (h : m.Under w₀ paths w) (names : Names) :
    let entries := m.ledger w₀ names paths
    w.tree.SameBut (fun l => ∃ e ∈ entries, e.2.changes = true ∧ m.Touches w₀ e.1 l)
        (entries.foldl m.record w).tree ∧
      ∀ path content text layout, (path, .laidOut content text layout) ∈ entries →
        layout ≠ text →
        (entries.foldl m.record w).tree.Holds (placeOf w₀ path) (encode layout) ∧
          (m.nobackup = false →
            (entries.foldl m.record w).tree.Holds (backupOf w₀ path) content) := by
  induction paths generalizing w names with
  | nil => exact ⟨.refl h.plain.linkFree _, by simp [ledger]⟩
  | cons path paths ih =>
    obtain ⟨v, hv⟩ : ∃ v, (m.verdict w₀ names path).1 = v := ⟨_, rfl⟩
    obtain ⟨hunder, hsame, hholds⟩ := h.record_spec hi hc hv
    rw [ledger_cons, hv]
    cases hstop : v.isStop with
    | true =>
      obtain rfl := Verdict.eq_stopped hstop
      refine ⟨.refl h.plain.linkFree _, fun p content text layout hmem => ?_⟩
      simp at hmem
    | false =>
      obtain ⟨hsame', hholds'⟩ := ih hunder (m.verdict w₀ names path).2
      simp only [Bool.false_eq_true, if_false, List.foldl_cons]
      refine ⟨(hsame.trans hsame').mono ?_, ?_⟩
      · rintro l (⟨hch, hl⟩ | ⟨e, he, hch, hl⟩)
        · exact ⟨_, List.mem_cons_self, hch, hl⟩
        · exact ⟨e, List.mem_cons_of_mem _ he, hch, hl⟩
      · intro p content text layout hmem hne
        rcases List.mem_cons.1 hmem with heq | hmem
        · cases heq
          obtain ⟨hplace, hbackup⟩ := hholds content text layout rfl hne
          have kept {l : Location} (hl : m.Touches w₀ path l) {c : Bytes}
              (hold : (m.record w (path, .laidOut content text layout)).tree.Holds l c) :
              ((m.ledger w₀ (m.verdict w₀ names path).2 paths).foldl m.record
                (m.record w (path, .laidOut content text layout))).tree.Holds l c := by
            refine (hsame'.file l c ?_).2 hold
            rintro ⟨e, he, hch, htouch⟩
            exact h.not_touched he hch (read_of_laidOut hv) hl htouch
          exact ⟨kept (.inl rfl) hplace, fun hn => kept (.inr ⟨hn, rfl⟩) (hbackup hn)⟩
        · exact hholds' p content text layout hmem hne

end Inplace

end Under

end Mode

end ErbLayout.Batch
