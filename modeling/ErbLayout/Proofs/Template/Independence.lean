import ErbLayout.Proofs.Template.Counterparts
/-!
A layout does not depend on the names that are drawn for its code tags: whatever they are, the text
is the same, or the fault is, but for the names that its message and its labels show.
-/

namespace ErbLayout.Placeholder

open Text (quoteChar quoteMark quoted)

variable {α : Type} {g g' : Glossary α} {s s' t t' : List Char}

theorem Aligned.append (hs : Aligned g g' s s') (ht : Aligned g g' t t') :
    Aligned g g' (s ++ t) (s' ++ t') := by
  induction hs with
  | nil => exact ht
  | char c _ ih => exact .char c ih
  | name he he' hsense _ ih =>
    rw [List.append_assoc, List.append_assoc]
    exact .name he he' hsense ih

theorem aligned_refl (s : List Char) : Aligned g g' s s := by
  induction s with
  | nil => exact .nil
  | cons c s ih => exact .char c ih

/-- Letters and digits are quoted as they are. -/
theorem quoteChar_of_isNameChar {q c : Char} (hq : isNameChar q = false)
    (hc : isNameChar c = true) : quoteChar q c = [c] := by
  have hne {d : Char} (hd : isNameChar d = false) : c ≠ d := by
    rintro rfl
    rw [hc] at hd
    exact absurd hd (by simp)
  have hprint : isPrintable c = true := by
    have hbounds := toNat_of_isNameChar hc
    rw [isPrintable, if_pos (by omega)]
    simp only [Bool.and_eq_true, decide_eq_true_eq]
    omega
  simp [quoteChar, hne hq, hne (d := '\\') (by decide), hne (d := '\n') (by decide),
    hne (d := '\r') (by decide), hne (d := '\t') (by decide), hprint]

theorem flatMap_quoteChar {q : Char} (hq : isNameChar q = false) {w : List Char}
    (hw : ∀ c ∈ w, isNameChar c = true) : w.flatMap (quoteChar q) = w := by
  induction w with
  | nil => rfl
  | cons c w ih =>
    obtain ⟨hc, hw⟩ := List.forall_mem_cons.1 hw
    rw [List.flatMap_cons, quoteChar_of_isNameChar hq hc, ih hw]
    rfl

theorem Aligned.flatMap_quoteChar {q : Char} (hq : isNameChar q = false) (h : Aligned g g' s s') :
    Aligned g g' (s.flatMap (quoteChar q)) (s'.flatMap (quoteChar q)) := by
  induction h with
  | nil => exact .nil
  | char c _ ih =>
    rw [List.flatMap_cons, List.flatMap_cons]
    exact (aligned_refl (quoteChar q c)).append ih
  | @name e e' s s' he he' hsense _ ih =>
    rw [List.flatMap_append, List.flatMap_append,
      Placeholder.flatMap_quoteChar hq fun c hc => Name.isNameChar_of_mem hc,
      Placeholder.flatMap_quoteChar hq fun c hc => Name.isNameChar_of_mem hc]
    exact .name he he' hsense ih

theorem Like.contains {c : Char} (hc : isNameChar c = false) (h : Like s s') :
    s.contains c = s'.contains c :=
  Bool.eq_iff_iff.2 (by
    rw [List.contains_iff_mem, List.contains_iff_mem]
    exact ⟨h.mem hc, h.symm.mem hc⟩)

theorem Aligned.quoted (h : Aligned g g' s s') : Aligned g g' (quoted s) (quoted s') := by
  have hmark : quoteMark s = quoteMark s' := by
    rw [quoteMark, quoteMark, h.like.contains (by decide), h.like.contains (c := '"') (by decide)]
  have hname : isNameChar (quoteMark s') = false := by
    unfold quoteMark
    split <;> decide
  unfold Text.quoted
  dsimp only
  rw [hmark]
  exact (Aligned.char _ (h.flatMap_quoteChar hname)).append (aligned_refl _)

end ErbLayout.Placeholder

namespace ErbLayout.Template

open Layout Markup Placeholder

variable {α : Type} {g g' : Glossary α} {j j' : Job} {r r' : Run} {h h' : Halt}

theorem Reframed.describe {f f' : Frame} (hf : Reframed g g' f f') :
    Aligned g g' f.describe f'.describe := by
  cases hf with
  | element raw hm => exact (hm.aligned.append (aligned_refl _)).append (aligned_refl raw)
  | block hcode => exact (aligned_refl _).append hcode.aligned

theorem aligned_dump {n n' : Nesting} (hn : List.Forall₂ (Reframed g g') n n') :
    List.Forall₂ (Aligned g g') n.dump n'.dump := by
  rw [Nesting.dump, Nesting.dump, List.forall₂_map_left_iff, List.forall₂_map_right_iff]
  exact (List.forall₂_reverse_iff.2 hn).imp fun _ _ hf => hf.describe

theorem Cause.Renamed.kind {c c' : Cause} (hc : c.Renamed g g' c') : c.kind = c'.kind := by
  cases hc <;> rfl

theorem Cause.Renamed.message {c c' : Cause} (hc : c.Renamed g g' c') :
    Aligned g g' c.message c'.message := by
  cases hc with
  | spacedAttribute => exact aligned_refl _
  | stray fragment => exact aligned_refl _
  | unknownTag hname => exact (aligned_refl _).append hname.aligned.quoted
  | unmatched hclose htop =>
    refine (((aligned_refl _).append hclose.aligned).append (aligned_refl _)).append ?_
    cases htop with
    | none => exact aligned_refl _
    | some hlabel => exact .char _ (hlabel.aligned.append (aligned_refl _))
  | unclosed hlabel => exact ((aligned_refl _).append hlabel.aligned).append (aligned_refl _)

/-- The same fault, but for the names that its message and its labels show. -/
structure Fault.Renamed (g g' : Glossary α) (f f' : Fault) : Prop where
  kind : f.kind = f'.kind
  filename : f.filename = f'.filename
  line : f.line = f'.line
  formatted : f.formatted = f'.formatted
  message : Aligned g g' f.message f'.message
  frame : Option.Rel (Aligned g g') f.frame f'.frame
  stack : List.Forall₂ (Aligned g g') f.stack f'.stack

theorem InStep.renamed (hr : InStep j j' r r') :
    Renamed j.numbering j'.numbering r.buffer.text r'.buffer.text := by
  obtain ⟨pre, x, x', ⟨-, hpre⟩, hfollows, -⟩ := hr.buffer
  rw [hfollows.text, hfollows.text', hpre rfl]
  exact hfollows.renamed

namespace Counterparts

variable (hj : Counterparts j j')
include hj

theorem finish (hr : InStep j j' r r') : j.finish r = j'.finish r' := by
  rw [Job.finish, Job.finish, hj.restoring _ _ (InStep.renamed hr)]

theorem failure (hh : Halted j j' h h') :
    ∃ f f', j.failure h = .fault f ∧ j'.failure h' = .fault f' ∧
      f.Renamed j.numbering j'.numbering f' := by
  cases hh with
  | @structural r r' cause cause' o hr hcause hplace =>
    refine ⟨j.fault r cause o, j'.fault r' cause' o, rfl, rfl, hcause.kind, ?_, ?_, ?_,
      hcause.message, ?_, aligned_dump hr.nesting⟩
    · exact congrArg Style.filename hj.style.symm
    · change ((j.lineAt o : Nat) : Int) = (j'.lineAt o : Nat)
      rw [Job.lineAt, Job.lineAt, hj.restoring _ _ hplace]
    · exact hj.restoring _ _ (InStep.renamed hr)
    · have htop := renamed_top hr.nesting
      change Option.Rel _ (r.nesting.top?.map Frame.label) (r'.nesting.top?.map Frame.label)
      generalize r.nesting.top?.map Frame.label = l at htop ⊢
      generalize r'.nesting.top?.map Frame.label = l' at htop ⊢
      cases htop with
      | none => exact .none
      | some hlabel => exact .some hlabel.aligned

end Counterparts

theorem counterparts_protect {style : Style} {names names' : Names} {source : List Char}
    (ha : names.Ample (3 * source.length)) (ha' : names'.Ample (3 * source.length))
    (ht : Total style.reformatter) (hc : style.checker.Alike) (hr : style.reformatter.Alike) :
    Counterparts ⟨style, protect names source⟩ ⟨style, protect names' source⟩ := by
  obtain ⟨htables, hworking⟩ := matches_protect ha ha'
  exact ⟨rfl, htables, hworking, fun e he => split?_of_mem_codeTags he, ht, hc, hr⟩

/-- The names that are drawn for a template do not show in its layout, and only as themselves in
its fault. -/
theorem format_ignores_names (style : Style) (names names' : Names) (source : List Char)
    (ha : names.Ample (3 * source.length)) (ha' : names'.Ample (3 * source.length))
    (ht : Total style.reformatter) (hc : style.checker.Alike) (hr : style.reformatter.Alike) :
    let t := (protect names source).table
    let t' := (protect names' source).table
    t.Matches t' ∧
      ((∃ text, format style names source = .ok text ∧ format style names' source = .ok text) ∨
        ∃ f f', format style names source = .error (.fault f) ∧
          format style names' source = .error (.fault f') ∧
          f.Renamed t.numbering t'.numbering f') := by
  intro t t'
  have hj := counterparts_protect ha ha' ht hc hr
  refine ⟨hj.tables, ?_⟩
  have hrun := hj.run
  unfold format report
  dsimp only
  generalize Job.run ⟨style, protect names source⟩ = x at hrun ⊢
  generalize Job.run ⟨style, protect names' source⟩ = x' at hrun ⊢
  cases hrun with
  | goes hlevel _ => exact .inl ⟨_, rfl, congrArg Except.ok (hj.finish hlevel).symm⟩
  | stops hh =>
    obtain ⟨f, f', hf, hf', hrenamed⟩ := hj.failure hh
    exact .inr ⟨f, f', congrArg Except.error hf, congrArg Except.error hf', hrenamed⟩

-- Both names stand for the one word that looks like a name.
theorem format_ignores_names_fault :
    let style : Style :=
      { width := 40, checker := fun s => s.countP (· == '\x7b') == s.countP (· == '\x7d') }
    let names := Names.counting 128
    let names' : Names := ⟨fun i => BitVec.ofNat 128 (i + 4096), 1, 128⟩
    let source := "<p><% a \x7b %> erb0tag</erb0tag>".toList
    let f (name : String) : Fault :=
      { kind := .unmatchedClose,
        message := "Unmatched close tag, tried with </".toList ++ name.toList ++
          ">, but `%erb%' was on the stack".toList,
        frame := some "%erb%".toList, formatted := "<p>\n  <% a \x7b %>\n    erb0tag".toList,
        stack := ["p: <p>".toList, "%erb%: a \x7b".toList] }
    let name := "erb00000000000000000000000000000002tag"
    let name' := "erb00000000000000000000000000001002tag"
    style.checker.Alike ∧ format style names source = .error (.fault (f name)) ∧
      format style names' source = .error (.fault (f name')) ∧
      (f name).Renamed (protect names source).table.numbering
        (protect names' source).table.numbering (f name') := by
  intro style names names' source f name name'
  have hbrace : Blind (· == '\x7b') := blind_eq (by decide)
  have hbrace' : Blind (· == '\x7d') := blind_eq (by decide)
  have hc : style.checker.Alike := Ruby.alike_of_like fun s s' hs => by
    change (s.countP _ == s.countP _) = (s'.countP _ == s'.countP _)
    rw [hs.countP hbrace, hs.countP hbrace']
  have ha : names.Ample (3 * source.length) := Names.ample_counting (by decide) (by decide)
  have ha' : names'.Ample (3 * source.length) := by
    unfold Names.Ample
    decide +kernel
  have hf : format style names source = .error (.fault (f name)) := by decide +kernel
  have hf' : format style names' source = .error (.fault (f name')) := by decide +kernel
  refine ⟨hc, hf, hf', ?_⟩
  obtain ⟨-, ⟨text, hok, -⟩ | ⟨d, d', hd, hd', hrenamed⟩⟩ := format_ignores_names style names names'
    source ha ha' total_passThrough hc Ruby.alike_passThrough
  · exact absurd (hf.symm.trans hok) (by simp)
  · obtain rfl := Failure.fault.inj (Except.error.inj (hf.symm.trans hd))
    obtain rfl := Failure.fault.inj (Except.error.inj (hf'.symm.trans hd'))
    exact hrenamed

end ErbLayout.Template
