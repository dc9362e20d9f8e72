import Mathlib.Data.List.Induction
import ErbLayout.Proofs.CommandLine.Given
/-!
Which value a setting has. What the arguments give goes before the config file, and the config file
before the defaults. Whether the arguments give a setting shows when they are read a second time
with marks in the place of the defaults; the options say the same without that reading.
-/

namespace ErbLayout.CommandLine

open Toml (Value)

/-- The uses of flags that give a setting, in their order. -/
def usesOf (s : Setting) (us : List Use) : List Use :=
  us.filter fun u => u.flag.setting? = some s

/-- The value that the uses of flags give a setting: all values, one after another, where it may be
given more than once, and else that of the last use. -/
def givenValue (s : Setting) (us : List Use) : Option Value :=
  if s.repeats then
    if usesOf s us = [] then none
    else some (.array ((usesOf s us).map fun u => .string u.value))
  else (usesOf s us).getLast?.bind Use.value?

section Given

variable {s : Setting} {us : List Use}

theorem usesOf_concat (s : Setting) (us : List Use) (u : Use) :
    usesOf s (us ++ [u]) = usesOf s us ++ if u.flag.setting? = some s then [u] else [] := by
  rw [usesOf, List.filter_append, List.filter_singleton]
  by_cases h : u.flag.setting? = some s <;> simp [usesOf, h]

theorem givenValue_eq_none_iff (hvalid : ∀ u ∈ us, ∃ v, u.value? = some v) :
    givenValue s us = none ↔ usesOf s us = [] := by
  rw [givenValue]
  cases hlast : (usesOf s us).getLast? with
  | none =>
    rw [List.getLast?_eq_none_iff] at hlast
    simp [hlast]
  | some u =>
    obtain ⟨v, hv⟩ := hvalid u (List.mem_filter.1 (List.mem_of_getLast? hlast)).1
    have hne : usesOf s us ≠ [] := by
      rintro hnil
      simp [hnil] at hlast
    cases s.repeats <;> simp [hv, hne]

/-- The arguments give a setting a value if one of them uses a flag of it. -/
theorem exists_givenValue_iff (hvalid : ∀ u ∈ us, ∃ v, u.value? = some v) :
    (∃ v, givenValue s us = some v) ↔ ∃ u ∈ us, u.flag.setting? = some s := by
  rw [← Option.ne_none_iff_exists', ne_eq, givenValue_eq_none_iff hvalid, usesOf,
    List.filter_eq_nil_iff]
  simp

/-- What a reader holds in the end: what the arguments give, or what it began with. -/
theorem foldl_store (hvalid : ∀ u ∈ us, ∃ v, u.value? = some v) {start : Held}
    (hstart : s.repeats = true → start.items = []) :
    us.foldl (Use.store s) start =
      match givenValue s us with
      | none => start
      | some v => .value v := by
  induction us using List.reverseRecOn with
  | nil => simp [givenValue, usesOf]
  | append_singleton us u ih =>
    have hbefore : ∀ v ∈ us, ∃ w, v.value? = some w := fun v hv => hvalid v (by simp [hv])
    obtain ⟨v, hv⟩ := hvalid u (by simp)
    rw [List.foldl_append, List.foldl_cons, List.foldl_nil, ih hbefore, Use.store]
    by_cases hu : u.flag.setting? = some s
    · have huses : usesOf s (us ++ [u]) = usesOf s us ++ [u] := by rw [usesOf_concat, if_pos hu]
      rw [if_pos hu]
      cases hrep : s.repeats with
      | false => simp [givenValue, huses, hrep, hv, Held.ofOption]
      | true =>
        have hitems : (match givenValue s us with
            | none => start
            | some v => Held.value v).items = (usesOf s us).map fun u => .string u.value := by
          rw [givenValue, hrep]
          by_cases hnil : usesOf s us = []
          · simp [hnil, hstart hrep]
          · simp [hnil, Held.items]
        rw [hitems]
        simp [givenValue, huses, hrep]
    · have huses : usesOf s (us ++ [u]) = usesOf s us := by rw [usesOf_concat, if_neg hu]; simp
      rw [if_neg hu]
      simp [givenValue, huses]

end Given

section Readings

/-- What a reader that begins with the defaults holds for a setting in the end. -/
def readWithDefaults (us : List Use) (s : Setting) : Held :=
  us.foldl (Use.store s) (Held.ofOption s.default?)

/-- What a reader that begins with marks holds for a setting in the end; values that are added up it
begins with nothing. -/
def readWithMarks (us : List Use) (s : Setting) : Held :=
  us.foldl (Use.store s) (if s.repeats then .nothing else .mark)

/-- What the two readings and a config file come to: the first reading where the second one has found
a value, else the config file where it has the setting. -/
def merged (c : Option Config) (us : List Use) (s : Setting) : Held :=
  match readWithMarks us s, c.bind (·.get? s) with
  | .value _, _ => readWithDefaults us s
  | _, some v => .value v
  | _, none => readWithDefaults us s

variable {s : Setting} {us : List Use}

theorem readWithDefaults_eq (hvalid : ∀ u ∈ us, ∃ v, u.value? = some v) :
    readWithDefaults us s =
      Held.ofOption ((givenValue s us).orElse fun _ => s.default?) := by
  rw [readWithDefaults, foldl_store hvalid (by cases s <;> simp [Setting.repeats] <;> rfl)]
  cases givenValue s us <;> rfl

theorem merged_eq (hvalid : ∀ u ∈ us, ∃ v, u.value? = some v) (c : Option Config) :
    merged c us s = Held.ofOption
      (((givenValue s us).orElse fun _ => c.bind (·.get? s)).orElse fun _ => s.default?) := by
  rw [merged, readWithDefaults_eq hvalid, readWithMarks,
    foldl_store hvalid (by rintro h; rw [if_pos h]; rfl)]
  cases givenValue s us with
  | some v => rfl
  | none =>
    cases c.bind (·.get? s) <;> cases s.repeats <;> rfl

/-- The second reading tells which settings the arguments give. -/
theorem exists_readWithMarks_iff (hvalid : ∀ u ∈ us, ∃ v, u.value? = some v) :
    (∃ v, readWithMarks us s = .value v) ↔ ∃ u ∈ us, u.flag.setting? = some s := by
  rw [← exists_givenValue_iff hvalid, readWithMarks,
    foldl_store hvalid (by rintro h; rw [if_pos h]; rfl)]
  cases givenValue s us with
  | some v => simp
  | none => cases s.repeats <;> simp

end Readings

theorem value?_of_gives {us : List Use} {o : Options} (h : Gives {} us o) (c : Option Config)
    (s : Setting) : (c.elim o o.withConfig).value? s =
      ((givenValue s us).orElse fun _ => c.bind (·.get? s)).orElse fun _ => s.default? := by
  have hgiven : o.given.get? s = givenValue s us := by
    refine Held.ofOption_injective ?_
    rw [h.given, foldl_store h.valid fun _ => rfl]
    cases givenValue s us <;> rfl
  have hconfig : (c.elim o o.withConfig).config.get? s = c.bind (·.get? s) := by
    cases c with
    | none => rw [Option.elim_none, h.config]; rfl
    | some c => rfl
  have hsame : (c.elim o o.withConfig).given = o.given := by cases c <;> rfl
  rw [Options.value?, hsame, hgiven, hconfig]

/-- A line of arguments that is read spells its uses of flags in one way. With or without a config
file, a setting then has the value that these uses give it if there is one among them, else that of
the config file, else its default; so it is with two readings, of which the second shows what is
given. A config file changes nothing but settings. -/
theorem parse_prefers {args : List Argument} {o : Options} (h : parse args = .ok o)
    (c : Option Config) :
    ∃ us, Line args us ∧ (∀ us', Line args us' → us' = us) ∧
      let o' := c.elim o o.withConfig
      (∀ s, ((∃ v, givenValue s us = some v) ↔ ∃ u ∈ us, u.flag.setting? = some s) ∧
        ((∃ v, readWithMarks us s = .value v) ↔ ∃ u ∈ us, u.flag.setting? = some s) ∧
        o'.value? s =
          (((givenValue s us).orElse fun _ => c.bind (·.get? s)).orElse fun _ => s.default?) ∧
        merged c us s = Held.ofOption (o'.value? s)) ∧
      { o' with config := o.config } = o := by
  obtain ⟨us, hline, hgives⟩ := exists_line_of_parse h
  refine ⟨us, hline, fun us' hline' => hline'.unique hline, fun s => ?_, by cases c <;> rfl⟩
  have hvalue := value?_of_gives hgives c s
  exact ⟨exists_givenValue_iff hgives.valid, exists_readWithMarks_iff hgives.valid, hvalue,
    hvalue ▸ merged_eq hgives.valid c⟩

/-- Arguments with letters together, names cut short, values attached and apart, one of them the
default and one empty. -/
def mingled : List Argument :=
  ["-iw80", "--exclu", "x", "--exclude=", "--no-r", "a.erb"].map String.toList

def mingledUses : List Use :=
  [⟨.inplace, []⟩, ⟨.width, ['8', '0']⟩, ⟨.exclude, ['x']⟩, ⟨.exclude, []⟩,
    ⟨.noRespectGitignore, []⟩]

theorem mingled_line : Line mingled mingledUses := by
  have hletters : Spells "-iw80".toList [⟨.inplace, []⟩, ⟨.width, ['8', '0']⟩] none :=
    .letters (.more rfl rfl (.attached rfl rfl (by decide)))
  have hcut : Spells "--exclu".toList [] (some .exclude) :=
    .wanting ⟨"--exclude".toList, by decide, .inr ⟨by decide, by decide +kernel⟩⟩ rfl
  have hempty : Spells "--exclude=".toList [⟨.exclude, []⟩] none :=
    .attached ⟨"--exclude".toList, by decide, .inl rfl⟩ rfl
  have hnegated : Spells "--no-r".toList [⟨.noRespectGitignore, []⟩] none :=
    .bare ⟨"--no-respect-gitignore".toList, by decide, .inr ⟨by decide, by decide +kernel⟩⟩ rfl
  have hplain (a : Argument) (h : a.head? ≠ some '-') : Plain a := .text h
  exact .flags hletters (.value hcut (hplain _ (by decide))
    (.flags hempty (.flags hnegated (.operand (hplain _ (by decide)) .nil))))

def mingledConfig : Config :=
  [(.width, .integer 100), (.exclude, Setting.texts [['y']]), (.respectGitignore, .boolean true),
    (.forceExclude, .boolean true)]

/-- What is given goes before the config file, in the order in which it is given. -/
theorem parse_prefers_mingled : ∃ o, parse mingled = .ok o ∧
    (o.withConfig mingledConfig).value? .width = some (.integer 80) ∧
    (o.withConfig mingledConfig).value? .exclude = some (Setting.texts [['x'], []]) ∧
    (o.withConfig mingledConfig).value? .respectGitignore = some (.boolean false) ∧
    (o.withConfig mingledConfig).value? .forceExclude = some (.boolean true) ∧
    (o.withConfig mingledConfig).value? .filesMaxSize = some (.integer 1048576) := by
  have hok : (parse mingled).toOption.isSome = true := by decide +kernel
  cases hparse : parse mingled with
  | error e => simp [hparse, Except.toOption] at hok
  | ok o =>
    obtain ⟨us, -, hunique, hvalue, -⟩ := parse_prefers hparse (some mingledConfig)
    obtain rfl := hunique _ mingled_line
    exact ⟨o, rfl, (hvalue .width).2.2.1, (hvalue .exclude).2.2.1,
      (hvalue .respectGitignore).2.2.1, (hvalue .forceExclude).2.2.1,
      (hvalue .filesMaxSize).2.2.1⟩

end ErbLayout.CommandLine
