import Mathlib.Data.List.Pairwise
import Mathlib.Tactic.Common
import ErbLayout.Settings.Config
/-!
The search for a config file. Its places are numbered: how many directories up a place lies, and
which of the names it has; they are looked at from the nearest directory on, and in a directory by
their names. The search ends at the first place whose file counts, or at a project file before that
with which it cannot go on: one that is no text, or whose table of tools is no table.
-/

namespace ErbLayout.Config

open Files Text
open Toml (Table Value)

/-- A number of directories to go up, and one of the names of config files. -/
abbrev Site := Nat × Fin names.length

namespace Site

/-- The place of a site, seen from a location. -/
def place (l : Location) (s : Site) : Pathname :=
  (Location.path (l.take (l.length - s.1))).child names[s.2]

/-- One site is nearer than another, or it has an earlier name in the same directory. -/
def Sooner (s t : Site) : Prop := s.1 < t.1 ∨ s.1 = t.1 ∧ s.2 < t.2

theorem Sooner.asymm {s t : Site} (h : s.Sooner t) : ¬ t.Sooner s := by
  rw [Sooner] at h ⊢
  omega

theorem sooner_or_eq_or_sooner (s t : Site) : s.Sooner t ∨ s = t ∨ t.Sooner s := by
  obtain ⟨i, j⟩ := s
  obtain ⟨i', j'⟩ := t
  simp only [Sooner, Prod.mk.injEq]
  omega

/-- The sites up to a number of directories, in the order in which they are looked at. -/
def upTo (n : Nat) : List Site :=
  (List.range (n + 1)).flatMap fun i => (List.finRange names.length).map fun j => (i, j)

theorem mem_upTo {n : Nat} {s : Site} : s ∈ upTo n ↔ s.1 ≤ n := by
  obtain ⟨i, j⟩ := s
  simp [upTo, Nat.lt_succ_iff]

theorem pairwise_upTo (n : Nat) : (upTo n).Pairwise Sooner := by
  rw [upTo, List.pairwise_flatMap]
  refine ⟨fun i _ => ?_, ?_⟩
  · rw [List.pairwise_map]
    exact (List.pairwise_lt_finRange _).imp fun h => .inr ⟨rfl, h⟩
  · refine List.pairwise_lt_range.imp fun {i i'} hlt s hs t ht => ?_
    obtain ⟨j, -, rfl⟩ := List.mem_map.1 hs
    obtain ⟨j', -, rfl⟩ := List.mem_map.1 ht
    exact .inl hlt

end Site

theorem ancestorsFrom_eq (ns : List Name) : Location.ancestorsFrom ns =
    (List.range (ns.length + 1)).map fun i => (ns.drop i).reverse := by
  induction ns with
  | nil => rfl
  | cons n ns ih =>
    rw [Location.ancestorsFrom, ih, List.length_cons, List.range_succ_eq_map (n := ns.length + 1),
      List.map_cons, List.map_map]
    rfl

theorem ancestors_eq (l : Location) : l.ancestors =
    (List.range (l.length + 1)).map fun i => l.take (l.length - i) := by
  rw [Location.ancestors, ancestorsFrom_eq, List.length_reverse]
  refine List.map_congr_left fun i _ => ?_
  rw [List.drop_reverse, List.reverse_reverse]

theorem places_eq (l : Location) : places l = (Site.upTo l.length).map (Site.place l) := by
  rw [places, ancestors_eq, List.flatMap_map, Site.upTo, List.map_flatMap]
  rfl

theorem mem_places {l : Location} {p : Pathname} :
    p ∈ places l ↔ ∃ s : Site, s.1 ≤ l.length ∧ s.place l = p := by
  simp only [places_eq, List.mem_map, Site.mem_upTo]

/-- A place for which something holds, and for none that is looked at before it. -/
def First (l : Location) (P : Pathname → Prop) (p : Pathname) : Prop :=
  ∃ s : Site, s.1 ≤ l.length ∧ s.place l = p ∧ P p ∧ ∀ t : Site, t.Sooner s → ¬ P (t.place l)

namespace First

variable {l : Location} {P : Pathname → Prop} {p q : Pathname}

theorem holds (h : First l P p) : P p := by
  obtain ⟨-, -, -, hp, -⟩ := h
  exact hp

theorem unique (hp : First l P p) (hq : First l P q) : p = q := by
  obtain ⟨s, -, rfl, hs, hbefore⟩ := hp
  obtain ⟨t, -, rfl, ht, hbefore'⟩ := hq
  rcases s.sooner_or_eq_or_sooner t with h | rfl | h
  · exact absurd hs (hbefore' s h)
  · rfl
  · exact absurd ht (hbefore t h)

theorem of_split {pre post : List Pathname} (h : places l = pre ++ p :: post) (hp : P p)
    (hpre : ∀ q ∈ pre, ¬ P q) : First l P p := by
  have hsorted := Site.pairwise_upTo l.length
  rw [places_eq] at h
  obtain ⟨ss, ts, hsites, rfl, hts⟩ := List.map_eq_append_iff.1 h
  obtain ⟨s, ts, rfl, rfl, rfl⟩ := List.map_eq_cons_iff.1 hts
  rw [hsites, List.pairwise_append, List.pairwise_cons] at hsorted
  have hs : s.1 ≤ l.length := Site.mem_upTo.1 (by simp [hsites])
  refine ⟨s, hs, rfl, hp, fun t ht => hpre _ (List.mem_map_of_mem ?_)⟩
  -- A sooner site stands in the list as well, and not behind this one, since the list is sorted.
  have hmem : t ∈ ss ++ s :: ts := hsites ▸ Site.mem_upTo.2 (by rcases ht with h | h <;> omega)
  rcases List.mem_append.1 hmem with hmem | hmem
  · exact hmem
  · rcases List.mem_cons.1 hmem with rfl | hmem
    · exact absurd ht ht.asymm
    · exact absurd ht (hsorted.2.1.1 t hmem).asymm

theorem mem (h : First l P p) : p ∈ places l := by
  obtain ⟨s, hs, hplace, -, -⟩ := h
  exact mem_places.2 ⟨s, hs, hplace⟩

theorem congr {Q : Pathname → Prop} (h : ∀ p ∈ places l, P p ↔ Q p) :
    First l P p ↔ First l Q p := by
  have hsite (s : Site) (hs : s.1 ≤ l.length) : P (s.place l) ↔ Q (s.place l) :=
    h _ (mem_places.2 ⟨s, hs, rfl⟩)
  refine exists_congr fun s => and_congr_right fun hs => and_congr_right ?_
  rintro rfl
  refine and_congr (hsite s hs) (forall₂_congr fun t ht => not_congr (hsite t ?_))
  rcases ht with ht | ht <;> omega

end First

section Candidates

variable {w : Workspace} {p : Pathname}

/-- The document that a file holds. -/
def Describes (w : Workspace) (p : Pathname) (t : Table) : Prop :=
  ∃ content text, w.read p = .ok content ∧ decode content = .ok text ∧
    Toml.read (unifyNewlines text) = some t

/-- What a project file says of this tool. -/
def Says (w : Workspace) (p : Pathname) (v : Value) : Prop :=
  ∃ t u, Describes w p t ∧ t.get? "tool".toList = some (.table u) ∧ Table.get? u toolName = some v

/-- A config file counts as soon as it is there; a project file also has to say something of this
tool. -/
def Counts (w : Workspace) (p : Pathname) : Prop :=
  w.isFile p = true ∧ (p.name = projectName → ∃ v, Says w p v)

/-- The ways in which a project file ends the search with a fault. -/
inductive Breaks (w : Workspace) (p : Pathname) : Fault → Prop
  | text {content : Bytes} {e : DecodeError} : w.isFile p = true → p.name = projectName →
    w.read p = .ok content → decode content = .error e → Breaks w p (.undecodable e)
  | tool {t : Table} {v : Value} : w.isFile p = true → p.name = projectName → Describes w p t →
    t.get? "tool".toList = some v → (∀ u, v ≠ .table u) →
    Breaks w p (.mismatch (.noAttribute v.kind "get"))

/-- The search ends at the place. -/
def Stops (w : Workspace) (p : Pathname) : Prop := Counts w p ∨ ∃ e, Breaks w p e

theorem Describes.unique {t t' : Table} (h : Describes w p t) (h' : Describes w p t') :
    t = t' := by
  obtain ⟨content, text, hread, hdecode, htoml⟩ := h
  obtain ⟨content', text', hread', hdecode', htoml'⟩ := h'
  obtain rfl := Except.ok.inj (hread.symm.trans hread')
  obtain rfl := Except.ok.inj (hdecode.symm.trans hdecode')
  exact Option.some.inj (htoml.symm.trans htoml')

theorem Describes.decode_ne {t : Table} (h : Describes w p t) {content : Bytes}
    (hread : w.read p = .ok content) (e : DecodeError) : decode content ≠ .error e := by
  obtain ⟨content', text, hread', hdecode, -⟩ := h
  obtain rfl := Except.ok.inj (hread.symm.trans hread')
  simp [hdecode]

theorem Says.unique {v v' : Value} (h : Says w p v) (h' : Says w p v') : v = v' := by
  obtain ⟨t, u, ht, hu, hv⟩ := h
  obtain ⟨t', u', ht', hu', hv'⟩ := h'
  obtain rfl := ht.unique ht'
  obtain rfl : u = u' := by simpa using hu.symm.trans hu'
  exact Option.some.inj (hv.symm.trans hv')

theorem Breaks.unique {e e' : Fault} (h : Breaks w p e) (h' : Breaks w p e') : e = e' := by
  cases h with
  | text hfile hname hread hdecode =>
    cases h' with
    | text _ _ hread' hdecode' =>
      obtain rfl := Except.ok.inj (hread.symm.trans hread')
      exact congrArg Fault.undecodable (Except.error.inj (hdecode.symm.trans hdecode'))
    | tool _ _ ht _ _ => exact absurd hdecode (ht.decode_ne hread _)
  | tool hfile hname ht hv hkind =>
    cases h' with
    | text _ _ hread' hdecode' => exact absurd hdecode' (ht.decode_ne hread' _)
    | tool _ _ ht' hv' _ =>
      obtain rfl := ht.unique ht'
      rw [Option.some.inj (hv.symm.trans hv')]

theorem Counts.not_breaks (h : Counts w p) (e : Fault) : ¬ Breaks w p e := by
  rintro (⟨-, hname, hread, hdecode⟩ | ⟨-, hname, ht, hv, hkind⟩)
  · obtain ⟨v, t, u, ht, -⟩ := h.2 hname
    exact ht.decode_ne hread _ hdecode
  · obtain ⟨v, t, u, ht', hu, -⟩ := h.2 hname
    obtain rfl := ht.unique ht'
    exact hkind u (Option.some.inj (hv.symm.trans hu))

theorem exists_read (h : w.isFile p = true) : ∃ content, w.read p = .ok content := by
  rw [Workspace.isFile, Option.any_eq_true] at h
  obtain ⟨n, hn, hfile⟩ := h
  unfold Workspace.node? at hn
  split at hn
  · rename_i l hl
    cases n with
    | file content => exact ⟨content, by simp [Workspace.read, hl, hn]⟩
    | link target => simp [Node.isFile] at hfile
    | directory es => simp [Node.isFile] at hfile
  · simp at hn

theorem document_eq_ok_iff {t : Table} : document w p = .ok t ↔ Describes w p t := by
  unfold document Describes
  cases w.read p with
  | error e => simp
  | ok content =>
    cases hd : decode content with
    | error e => simp [hd]
    | ok text => cases ht : Toml.read (unifyNewlines text) <;> simp [hd, ht]

theorem toolEntry_eq_ok_some_iff {t : Table} {v : Value} : toolEntry t = .ok (some v) ↔
    ∃ u, t.get? "tool".toList = some (.table u) ∧ Table.get? u toolName = some v := by
  unfold toolEntry
  split <;> simp_all

theorem toolEntry_eq_error_iff {t : Table} {e : Fault} : toolEntry t = .error e ↔
    ∃ v, t.get? "tool".toList = some v ∧ (∀ u, v ≠ .table u) ∧
      e = .mismatch (.noAttribute v.kind "get") := by
  unfold toolEntry
  split
  · simp_all
  · simp_all
  · rename_i v hkind hv
    simp only [hv, Option.some.injEq, exists_eq_left', Except.error.injEq]
    exact ⟨fun h => ⟨hkind, h.symm⟩, fun h => h.2.symm⟩

theorem toolEntry_eq_ok_none {t : Table} (h : toolEntry t = .ok none) :
    (∀ v, t.get? "tool".toList = some v → ∃ u, v = .table u) ∧
      ∀ u, t.get? "tool".toList = some (.table u) → Table.get? u toolName = none := by
  refine ⟨fun v hv => ?_, fun u hu => ?_⟩
  · by_contra hkind
    have he := toolEntry_eq_error_iff.2 ⟨v, hv, fun u hu => hkind ⟨u, hu⟩, rfl⟩
    simp [h] at he
  · cases hv : Table.get? u toolName with
    | none => rfl
    | some v =>
      have hs := toolEntry_eq_ok_some_iff.2 ⟨u, hu, hv⟩
      simp [h] at hs

/-- A project file that is no TOML document is passed over. -/
theorem not_stops_of_notToml {content : Bytes} {text : List Char} (hname : p.name = projectName)
    (hread : w.read p = .ok content) (hdecode : decode content = .ok text)
    (htoml : Toml.read (unifyNewlines text) = none) : ¬ Stops w p := by
  have hnone (t : Table) : ¬ Describes w p t := by
    rintro ⟨content', text', hread', hdecode', htoml'⟩
    obtain rfl := Except.ok.inj (hread.symm.trans hread')
    obtain rfl := Except.ok.inj (hdecode.symm.trans hdecode')
    simp [htoml] at htoml'
  rintro (h | ⟨e, h⟩)
  · obtain ⟨v, t, u, ht, -⟩ := h.2 hname
    exact hnone t ht
  · cases h with
    | text _ _ hread' hdecode' =>
      obtain rfl := Except.ok.inj (hread.symm.trans hread')
      simp [hdecode] at hdecode'
    | tool _ _ ht _ _ => exact hnone _ ht

/-- A project file that says nothing of this tool is passed over. -/
theorem not_stops_of_silent {t : Table} (hname : p.name = projectName) (ht : Describes w p t)
    (htool : toolEntry t = .ok none) : ¬ Stops w p := by
  obtain ⟨htable, hsilent⟩ := toolEntry_eq_ok_none htool
  rintro (h | ⟨e, h⟩)
  · obtain ⟨v, t', u, ht', hu, hv⟩ := h.2 hname
    obtain rfl := ht.unique ht'
    simp [hsilent u hu] at hv
  · cases h with
    | text _ _ hread hdecode => exact ht.decode_ne hread _ hdecode
    | tool _ _ ht' hv hkind =>
      obtain rfl := ht.unique ht'
      obtain ⟨u, hu⟩ := htable _ hv
      exact hkind u hu

theorem not_stops_of_not_isFile (h : ¬ w.isFile p = true) : ¬ Stops w p := by
  rintro (hc | ⟨e, hb⟩)
  · exact h hc.1
  · cases hb <;> contradiction

/-- What the search makes of a place. -/
theorem candidate_cases (w : Workspace) (p : Pathname) :
    (candidate w p = .counts ∧ Counts w p) ∨
    (∃ e, candidate w p = .failed e ∧ Breaks w p e) ∨
    (∃ log, candidate w p = .passedOver log ∧ ¬ Stops w p) := by
  unfold candidate
  by_cases hfile : w.isFile p = true
  swap
  · exact .inr (.inr ⟨[], by simp [hfile], not_stops_of_not_isFile hfile⟩)
  by_cases hname : p.name = projectName
  swap
  · exact .inl ⟨by simp [hfile, hname], hfile, fun h => absurd h hname⟩
  obtain ⟨content, hread⟩ := exists_read hfile
  cases hdecode : decode content with
  | error e =>
    refine .inr (.inl ⟨.undecodable e, ?_, .text hfile hname hread hdecode⟩)
    simp [hfile, hname, document, hread, hdecode]
  | ok text =>
    cases htoml : Toml.read (unifyNewlines text) with
    | none =>
      have hdoc : document w p = .error .notToml := by simp [document, hread, hdecode, htoml]
      simp only [hfile, hname, hdoc, Bool.not_true, Bool.false_eq_true, if_false, bne_self_eq_false]
      exact .inr (.inr ⟨_, rfl, not_stops_of_notToml hname hread hdecode htoml⟩)
    | some t =>
      have ht : Describes w p t := ⟨content, text, hread, hdecode, htoml⟩
      have hdoc : document w p = .ok t := document_eq_ok_iff.2 ht
      simp only [hfile, hname, hdoc, Bool.not_true, Bool.false_eq_true, if_false, bne_self_eq_false]
      cases htool : toolEntry t with
      | error e =>
        obtain ⟨v, hv, hkind, rfl⟩ := toolEntry_eq_error_iff.1 htool
        exact .inr (.inl ⟨_, rfl, .tool hfile hname ht hv hkind⟩)
      | ok found =>
        cases found with
        | none => exact .inr (.inr ⟨_, rfl, not_stops_of_silent hname ht htool⟩)
        | some v =>
          obtain ⟨u, hu, hv⟩ := toolEntry_eq_ok_some_iff.1 htool
          exact .inl ⟨rfl, hfile, fun _ => ⟨v, t, u, ht, hu, hv⟩⟩

end Candidates

section Search

variable (w : Workspace)

/-- Where the search ends among places, and with what. -/
theorem searchFrom_cases (ps : List Pathname) :
    ((searchFrom w ps).result = .ok none ∧ ∀ p ∈ ps, ¬ Stops w p) ∨
    ∃ pre p post, ps = pre ++ p :: post ∧ (∀ q ∈ pre, ¬ Stops w q) ∧
      ((searchFrom w ps).result = .ok (some p) ∧ Counts w p ∨
        ∃ e, (searchFrom w ps).result = .error e ∧ Breaks w p e) := by
  induction ps with
  | nil => exact .inl ⟨rfl, by simp⟩
  | cons p ps ih =>
    rw [searchFrom]
    rcases candidate_cases w p with ⟨hc, h⟩ | ⟨e, hc, h⟩ | ⟨log, hc, h⟩
    · exact .inr ⟨[], p, ps, rfl, by simp, .inl ⟨by rw [hc], h⟩⟩
    · exact .inr ⟨[], p, ps, rfl, by simp, .inr ⟨e, by rw [hc], h⟩⟩
    · rw [hc]
      rcases ih with ⟨hnone, hps⟩ | ⟨pre, q, post, rfl, hpre, hends⟩
      · exact .inl ⟨hnone, by simpa [h] using hps⟩
      · exact .inr ⟨p :: pre, q, post, rfl, by simpa [h] using hpre, hends⟩

variable (l : Location)

/-- The search finds nothing, or it ends at the first place where it has to. -/
theorem search_cases :
    ((search w l).result = .ok none ∧ ∀ p ∈ places l, ¬ Stops w p) ∨
    ∃ p, First l (Stops w) p ∧ ((search w l).result = .ok (some p) ∧ Counts w p ∨
      ∃ e, (search w l).result = .error e ∧ Breaks w p e) := by
  rcases searchFrom_cases w (places l) with h | ⟨pre, p, post, hsplit, hpre, hends⟩
  · exact .inl h
  · have hp : Stops w p := hends.imp (·.2) fun ⟨e, _, h⟩ => ⟨e, h⟩
    exact .inr ⟨p, .of_split hsplit hp hpre, hends⟩

theorem search_eq_some_iff (p : Pathname) :
    (search w l).result = .ok (some p) ↔ First l (Stops w) p ∧ Counts w p := by
  rcases search_cases w l with ⟨hr, hnone⟩ | ⟨q, hq, ⟨hr, hc⟩ | ⟨e, hr, hb⟩⟩
  · simp only [hr, Except.ok.injEq, reduceCtorEq, false_iff]
    exact fun h => hnone p h.1.mem h.1.holds
  · simp only [hr, Except.ok.injEq, Option.some.injEq]
    exact ⟨fun h => h ▸ ⟨hq, hc⟩, fun h => hq.unique h.1⟩
  · simp only [hr, reduceCtorEq, false_iff]
    rintro ⟨hp, hc⟩
    exact hc.not_breaks e (hq.unique hp ▸ hb)

theorem search_eq_error_iff (e : Fault) :
    (search w l).result = .error e ↔ ∃ p, First l (Stops w) p ∧ Breaks w p e := by
  rcases search_cases w l with ⟨hr, hnone⟩ | ⟨q, hq, ⟨hr, hc⟩ | ⟨e', hr, hb⟩⟩
  · simp only [hr, reduceCtorEq, false_iff]
    rintro ⟨p, hp, -⟩
    exact hnone p hp.mem hp.holds
  · simp only [hr, reduceCtorEq, false_iff]
    rintro ⟨p, hp, hb⟩
    exact hc.not_breaks e (hq.unique hp ▸ hb)
  · simp only [hr, Except.error.injEq]
    refine ⟨fun h => ⟨q, hq, h ▸ hb⟩, ?_⟩
    rintro ⟨p, hp, hb'⟩
    exact hb.unique (hq.unique hp ▸ hb')

end Search

end ErbLayout.Config
