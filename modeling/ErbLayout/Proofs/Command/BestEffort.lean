import ErbLayout.Command.Process
import ErbLayout.Proofs.Template.Failing
/-!
What a reformatter makes of how its command ended. Two things are let through as failures instead of
leaving the code as it is: words that the system cannot be given, and output that is no text. A
layout with such a reformatter fails by them alone, or has the verdict that it has without one.
-/

namespace ErbLayout.Command

open Text (allBlank decode encode unifyNewlines)
open Template (Style SameVerdict format report)

/-- The words of a command can be given to the system, which ends each with a null. -/
def Passable (args : List Word) : Prop := ∀ arg ∈ args, '\x00' ∉ arg

instance (args : List Word) : Decidable (Passable args) :=
  inferInstanceAs (Decidable (∀ arg ∈ args, _))

/-- A failure of a command that is let through: a word with a null, or bytes that are no text, where
the output is read before the errors. -/
inductive LetThrough (host : Host) (args : List Word) (code : List Char) : Ruby.ReformatError → Prop
  | nul : ¬ Passable args → LetThrough host args code .nulArgument
  | output {exit : Exit} {e : Text.DecodeError} : Passable args →
      host args (encode code) = .ok exit → decode exit.output = .error e →
      LetThrough host args code (.undecodable e)
  | errors {exit : Exit} {output : List Char} {e : Text.DecodeError} : Passable args →
      host args (encode code) = .ok exit → decode exit.output = .ok output →
      decode exit.errors = .error e → LetThrough host args code (.undecodable e)

/-- A command ended well and wrote a text that is not blank; its line ends are read as line feeds. -/
def Wrote (host : Host) (args : List Word) (code text : List Char) : Prop :=
  ∃ exit output, host args (encode code) = .ok exit ∧ exit.status = 0 ∧
    decode exit.output = .ok output ∧ text = unifyNewlines output ∧ allBlank text = false

section Reply

variable {host : Host} {args : List Word} {code : List Char}

theorem LetThrough.unique {e e' : Ruby.ReformatError} (h : LetThrough host args code e)
    (h' : LetThrough host args code e') : e = e' := by
  cases h <;> cases h' <;> simp_all

theorem Wrote.unique {text text' : List Char} (h : Wrote host args code text)
    (h' : Wrote host args code text') : text = text' := by
  obtain ⟨exit, output, hrun, -, hout, rfl, -⟩ := h
  obtain ⟨exit', output', hrun', -, hout', rfl, -⟩ := h'
  obtain rfl := Except.ok.inj (hrun.symm.trans hrun')
  rw [Except.ok.inj (hout.symm.trans hout')]

theorem not_letThrough_of_error (hargs : Passable args) {e : StartError}
    (hrun : host args (encode code) = .error e) (e' : Ruby.ReformatError) :
    ¬ LetThrough host args code e' := by
  rintro (h | ⟨-, h, -⟩ | ⟨-, h, -, -⟩)
  · exact h hargs
  all_goals simp [hrun] at h

theorem not_letThrough_of_text (hargs : Passable args) {exit : Exit} {output errors : List Char}
    (hrun : host args (encode code) = .ok exit) (hout : decode exit.output = .ok output)
    (herr : decode exit.errors = .ok errors) (e : Ruby.ReformatError) :
    ¬ LetThrough host args code e := by
  rintro (h | ⟨-, hrun', h⟩ | ⟨-, hrun', -, h⟩)
  · exact h hargs
  · rw [← Except.ok.inj (hrun.symm.trans hrun'), hout] at h
    simp at h
  · rw [← Except.ok.inj (hrun.symm.trans hrun'), herr] at h
    simp at h

theorem ofExit_eq (program : Word) (code : List Char) (status : Int) (output errors : List Char) :
    (ofExit program code status output errors).1 =
      if status = 0 ∧ allBlank output = false then output else code := by
  unfold ofExit
  by_cases hstatus : status = 0
  · cases hblank : allBlank output <;> simp [hstatus]
  · simp [hstatus]

/-- All that a call of a command can come to. -/
theorem reply_cases (host : Host) (command : List Word) (code : List Char) (width : Int) :
    let args := arguments command width
    let reply := (reformatter host command code width).result
    (∃ e, LetThrough host args code e ∧ reply = .error e) ∨
      ((∀ e, ¬ LetThrough host args code e) ∧
        ((∃ text, Wrote host args code text ∧ reply = .ok text) ∨
          ((∀ text, ¬ Wrote host args code text) ∧ reply = .ok code))) := by
  unfold reformatter
  generalize arguments command width = args
  dsimp only
  by_cases hargs : Passable args
  case neg =>
    have hany : args.any (·.contains '\x00') = true := by simpa [Passable] using hargs
    exact .inl ⟨_, .nul hargs, by rw [if_pos hany]⟩
  have hany : ¬ args.any (·.contains '\x00') = true := by simpa [Passable] using hargs
  rw [if_neg hany]
  cases hrun : host args (encode code) with
  | error e =>
    refine .inr ⟨not_letThrough_of_error hargs hrun, .inr ⟨?_, rfl⟩⟩
    rintro text ⟨exit, output, hrun', -⟩
    simp [hrun] at hrun'
  | ok exit =>
    dsimp only
    cases hout : decode exit.output with
    | error e => exact .inl ⟨_, .output hargs hrun hout, rfl⟩
    | ok output =>
      cases herr : decode exit.errors with
      | error e => exact .inl ⟨_, .errors hargs hrun hout herr, rfl⟩
      | ok errors =>
        refine .inr ⟨not_letThrough_of_text hargs hrun hout herr, ?_⟩
        dsimp only
        rw [ofExit_eq]
        split
        · rename_i h
          exact .inl ⟨_, ⟨exit, output, hrun, h.1, hout, rfl, h.2⟩, rfl⟩
        · rename_i h
          refine .inr ⟨?_, rfl⟩
          rintro text ⟨exit', output', hrun', hstatus, hout', rfl, hblank⟩
          obtain rfl := Except.ok.inj (hrun.symm.trans hrun')
          obtain rfl := Except.ok.inj (hout.symm.trans hout')
          exact h ⟨hstatus, hblank⟩

theorem reply_eq_error_iff (host : Host) (command : List Word) (code : List Char) (width : Int)
    (e : Ruby.ReformatError) :
    (reformatter host command code width).result = .error e ↔
      LetThrough host (arguments command width) code e := by
  rcases reply_cases host command code width with ⟨e', he', hreply⟩ | ⟨hnone, h⟩
  · rw [hreply]
    exact ⟨fun h => Except.error.inj h ▸ he', fun h => by rw [he'.unique h]⟩
  · refine ⟨fun hfail => ?_, fun h => absurd h (hnone e)⟩
    rcases h with ⟨text, -, hreply⟩ | ⟨-, hreply⟩
    · rw [hreply] at hfail
      simp at hfail
    · rw [hreply] at hfail
      simp at hfail

end Reply

/-- A call of a command gives what the command wrote, when it ended well with a text that is not
blank, and else the code as it is, unless it fails in one of the ways that are let through. A layout
fails by such a call, its last one, or it has the verdict that it has without a reformatter. -/
theorem reformatter_lets_through (host : Host) (command : List Word) :
    (∀ code width,
      let args := arguments command width
      let reply := (reformatter host command code width).result
      (∀ e, reply = .error e ↔ LetThrough host args code e) ∧
      ((∀ e, ¬ LetThrough host args code e) →
        (∀ text, Wrote host args code text → reply = .ok text) ∧
        ((∀ text, ¬ Wrote host args code text) → reply = .ok code))) ∧
    (∀ (style : Style) (names : Placeholder.Names) (source : List Char),
      let style' := { style with reformatter := reformatter host command }
      (∃ code width e, (report style' names source).calls.getLast? = some (code, width) ∧
          LetThrough host (arguments command width) code e ∧
          format style' names source = .error (.reformatter e)) ∨
        SameVerdict (format style' names source)
          (format { style with reformatter := Ruby.passThrough } names source)) := by
  refine ⟨fun code width => ⟨reply_eq_error_iff host command code width, fun hnone => ?_⟩,
    fun style names source => ?_⟩
  · rcases reply_cases host command code width with ⟨e, he, -⟩ | ⟨-, h⟩
    · exact absurd he (hnone e)
    rcases h with ⟨text, hw, hreply⟩ | ⟨hw, hreply⟩
    · exact ⟨fun text' hw' => hw.unique hw' ▸ hreply, fun h => absurd hw (h text)⟩
    · exact ⟨fun text hw' => absurd hw' (hw text), fun _ => hreply⟩
  · rcases Template.format_blames_or_same { style with reformatter := reformatter host command }
      names source with ⟨code, width, e, hcall, hfail, hformat⟩ | hsame
    · exact .inl ⟨code, width, e, hcall, (reply_eq_error_iff host command code width e).1 hfail,
        hformat⟩
    · exact .inr hsame

/-- A command that writes text and ends well, and one that ends badly. -/
theorem reformatter_lets_through_text :
    let host : Host := fun args _ => .ok (if args = ["up".toList] then
      { output := encode "A\r\n".toList } else { status := 3, errors := encode "boom".toList })
    (reformatter host ["up".toList] "a".toList 80).result = .ok "A\n".toList ∧
      (reformatter host ["down".toList] "a".toList 80).result = .ok "a".toList := by
  intro host
  have hup := ((reformatter_lets_through host ["up".toList]).1 "a".toList 80).2
    (not_letThrough_of_text (by decide) rfl rfl rfl)
  have hdown := ((reformatter_lets_through host ["down".toList]).1 "a".toList 80).2
    (not_letThrough_of_text (by decide) rfl rfl rfl)
  refine ⟨hup.1 "A\n".toList ⟨_, "A\r\n".toList, rfl, rfl, rfl, rfl, rfl⟩, hdown.2 ?_⟩
  rintro text ⟨exit, output, hrun, hstatus, -⟩
  rw [← Except.ok.inj hrun] at hstatus
  exact absurd hstatus (by decide)

/-- A command that writes a byte that is no text: the layout fails, and without the command it does
not. -/
theorem reformatter_passes_undecodable :
    let host : Host := fun _ _ => .ok { output := [0xFF] }
    let command : List Word := ["rufo".toList]
    let style : Style := { checker := fun _ => true, reformatter := reformatter host command }
    let e : Ruby.ReformatError := .undecodable ⟨0, 0xFF, 1, .startByte⟩
    (reformatter host command "a".toList 80).result = .error e ∧
      format style (Placeholder.Names.counting 8) "<% a %>".toList = .error (.reformatter e) ∧
      format { style with reformatter := Ruby.passThrough } (Placeholder.Names.counting 8)
        "<% a %>".toList = .ok "<% a %>\n".toList := by
  refine ⟨?_, ?_, ?_⟩
  · rfl
  · decide +kernel
  · decide +kernel

end ErbLayout.Command
