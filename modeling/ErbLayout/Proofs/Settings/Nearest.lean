import Mathlib.Logic.Basic
import ErbLayout.Proofs.Settings.Search
/-!
The nearest config file that counts. As long as every project file on the way is text, and what it
says of tools and of this tool are tables, the search finds it, and it can be loaded.
-/

namespace ErbLayout.Config

open Files Text
open Toml (Value)

section Loading

variable {w : Workspace} {p : Pathname}

theorem toolEntry_of_saying {v : Value} (h : Says w p v) :
    ∃ t, document w p = .ok t ∧ toolEntry t = .ok (some v) := by
  obtain ⟨t, u, ht, hu, hv⟩ := h
  exact ⟨t, document_eq_ok_iff.2 ht, toolEntry_eq_ok_some_iff.2 ⟨u, hu, hv⟩⟩

theorem exists_load_iff : (∃ c, (load w p).result = .ok c) ↔ ∃ t, table w p = .ok t := by
  rw [load]
  cases table w p <;> simp

theorem load_eq_error_iff {e : Fault} :
    (load w p).result = .error e ↔ ((table w p).map fun _ => ()) = .error e := by
  rw [load]
  cases table w p <;> simp [Except.map]

/-- A project file can be loaded if what it says of this tool is a table, or nothing to speak of. -/
theorem exists_load_iff_of_saying (hname : p.name = projectName) {v : Value} (h : Says w p v) :
    (∃ c, (load w p).result = .ok c) ↔ (∃ u, v = .table u) ∨ v.isGiven = false := by
  obtain ⟨t, hdoc, htool⟩ := toolEntry_of_saying h
  rw [exists_load_iff]
  simp only [table, hdoc, hname, bne_self_eq_false, Bool.false_eq_true, if_false, htool]
  cases hgiven : v.isGiven <;> cases v <;> simp_all

end Loading

/-- A project file as it is meant to be: it is text, and if it is a document, its table of tools and
what it says of this tool are tables. -/
structure Fair (w : Workspace) (p : Pathname) : Prop where
  text : ∀ content, w.read p = .ok content → ∃ text, decode content = .ok text
  tools : ∀ t v, Describes w p t → t.get? "tool".toList = some v → ∃ u, v = .table u
  tool : ∀ v, Says w p v → ∃ u, v = .table u

/-- A config file counts as it is meant to: it is there, and a project file has a table for this
tool. -/
def Settles (w : Workspace) (p : Pathname) : Prop :=
  w.isFile p = true ∧ (p.name = projectName → ∃ u, Says w p (.table u))

section Fair

variable {w : Workspace} {p : Pathname}

theorem Fair.not_breaks (h : Fair w p) (e : Fault) : ¬ Breaks w p e := by
  rintro (⟨-, -, hread, hdecode⟩ | ⟨-, -, ht, hv, hkind⟩)
  · obtain ⟨text, htext⟩ := h.text _ hread
    simp [hdecode] at htext
  · obtain ⟨u, hu⟩ := h.tools _ _ ht hv
    exact hkind u hu

theorem stops_iff_settles (h : p.name = projectName → Fair w p) : Stops w p ↔ Settles w p := by
  refine ⟨?_, fun hs => .inl ⟨hs.1, fun hname => (hs.2 hname).imp' Value.table fun _ hu => hu⟩⟩
  rintro (⟨hfile, hsaid⟩ | ⟨e, hb⟩)
  · refine ⟨hfile, fun hname => ?_⟩
    obtain ⟨v, hv⟩ := hsaid hname
    obtain ⟨u, rfl⟩ := (h hname).tool v hv
    exact ⟨u, hv⟩
  · have hname : p.name = projectName := by cases hb <;> assumption
    exact absurd hb ((h hname).not_breaks e)

/-- What makes a project file fair, as the reading of it shows. -/
def isFair (w : Workspace) (p : Pathname) : Bool :=
  match document w p with
  | .error (.undecodable _) => false
  | .error _ => true
  | .ok t =>
    match toolEntry t with
    | .error _ => false
    | .ok none => true
    | .ok (some (.table _)) => true
    | .ok (some _) => false

theorem fair_of_isFair (h : isFair w p = true) : Fair w p := by
  have htext (content : Bytes) (hread : w.read p = .ok content) :
      ∃ text, decode content = .ok text := by
    cases hdecode : decode content with
    | ok text => exact ⟨text, rfl⟩
    | error e => simp [isFair, document, hread, hdecode] at h
  refine ⟨htext, fun t v ht hv => ?_, fun v hv => ?_⟩
  · rw [isFair, document_eq_ok_iff.2 ht] at h
    by_contra hkind
    have he := toolEntry_eq_error_iff.2 ⟨v, hv, fun u hu => hkind ⟨u, hu⟩, rfl⟩
    simp [he] at h
  · obtain ⟨t, hdoc, htool⟩ := toolEntry_of_saying hv
    cases v with
    | table u => exact ⟨u, rfl⟩
    | _ => simp [isFair, hdoc, htool] at h

end Fair

/-- A directory in another, each with a project file of its own: the one that is nearest is no
document, the next is silent about this tool. -/
def nested : Workspace where
  tree := .directory [
    ("a".toList, .directory [
      ("b".toList, .directory [(projectName, .file (encode "x = [".toList))]),
      (projectName, .file (encode "[tool.other]\n".toList))]),
    (projectName, .file (encode "[tool.erbmark]\nwidth = 100\n".toList))]

/-- A directory with a project file, below a config file of this tool. -/
def below (project : Bytes) : Workspace where
  tree := .directory [
    ("a".toList, .directory [(projectName, .file project)]),
    ("erbmark.toml".toList, .file [])]

end ErbLayout.Config
