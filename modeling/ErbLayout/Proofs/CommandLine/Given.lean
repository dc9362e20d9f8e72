import Mathlib.Data.List.Basic
import ErbLayout.Proofs.CommandLine.Arguments
import ErbLayout.Proofs.CommandLine.Spelling
/-!
What the arguments give: the uses of flags that a line of arguments spells, put down one after
another over what stood there for each setting before. Where the reading leaves nothing over, the
arguments are such a line, and what has been read gives its uses and no other.
-/

namespace ErbLayout

open Toml (Value)

/-- Whether a setting may be given more than once, each time a further value. -/
def Setting.repeats : Setting → Bool
  | .extendInclude | .exclude | .extendExclude => true
  | _ => false

namespace CommandLine

/-- The setting that a flag gives. -/
def Flag.setting? : Flag → Option Setting
  | .width => some .width
  | .reformatter => some .reformatter
  | .extendInclude => some .extendInclude
  | .exclude => some .exclude
  | .extendExclude => some .extendExclude
  | .noRespectGitignore => some .respectGitignore
  | .forceExclude => some .forceExclude
  | .filesMaxSize => some .filesMaxSize
  | _ => none

/-- The value that one use of a flag gives. -/
def Use.value? (u : Use) : Option Value :=
  match u.flag with
  | .width | .filesMaxSize => (Text.integer? u.value).map .integer
  | .noRespectGitignore => some (.boolean false)
  | .forceExclude => some (.boolean true)
  | _ => some (.string u.value)

/-- What a reader holds for a setting: nothing, the mark that it has not been given, or a value. -/
inductive Held where
  | nothing
  | mark
  | value (v : Value)

namespace Held

def ofOption : Option Value → Held
  | none => .nothing
  | some v => .value v

theorem ofOption_injective : Function.Injective ofOption := by
  rintro (_ | v) (_ | w) h <;> simp_all [ofOption]

/-- The values in a list that is held; anything else holds none. -/
def items : Held → List Value
  | .value (.array vs) => vs
  | _ => []

end Held

/-- What is held for a setting after a use of a flag: a further value in a list, or the value of the
use in the place of what was held. -/
def Use.store (s : Setting) (h : Held) (u : Use) : Held :=
  if u.flag.setting? = some s then
    if s.repeats then .value (.array (h.items ++ [.string u.value])) else .ofOption u.value?
  else h

/-- The uses give the second options what they have beyond the first. -/
structure Gives (o : Options) (us : List Use) (o' : Options) : Prop where
  valid : ∀ u ∈ us, ∃ v, u.value? = some v
  given : ∀ s, Held.ofOption (o'.given.get? s) =
    us.foldl (Use.store s) (Held.ofOption (o.given.get? s))
  config : o'.config = o.config

namespace Gives

variable {o o' o'' : Options} {us vs : List Use}

theorem of_eq (hgiven : o'.given = o.given) (hconfig : o'.config = o.config) : Gives o [] o' :=
  ⟨by simp, fun s => by rw [hgiven]; rfl, hconfig⟩

theorem append (h : Gives o us o') (h' : Gives o' vs o'') : Gives o (us ++ vs) o'' := by
  refine ⟨fun u hu => ?_, fun s => ?_, h'.config.trans h.config⟩
  · exact (List.mem_append.1 hu).elim (h.valid u) (h'.valid u)
  · rw [h'.given, h.given, List.foldl_append]

end Gives

namespace Use

variable {o o' : Options} {u : Use}

theorem number_eq_ok {s : Setting} {a : Argument} (h : number o s a = .ok o') :
    ∃ n, Text.integer? a = some n ∧ o' = { o with given := o.given.set s (.integer n) } := by
  rw [number] at h
  split at h
  · rename_i n hn
    exact ⟨n, hn, (Except.ok.inj h).symm⟩
  · simp at h

/-- What a use of a flag does to what is given. -/
theorem apply_cases (h : u.apply o = .ok o') : o'.config = o.config ∧ ∃ v, u.value? = some v ∧
    (u.flag.setting? = none ∧ o'.given = o.given ∨
      ∃ s, u.flag.setting? = some s ∧
        (s.repeats = false ∧ o'.given = o.given.set s v ∨
          s.repeats = true ∧ v = .string u.value ∧ o' = addTo o s v)) := by
  obtain ⟨flag, value⟩ := u
  cases flag with
  | help => simp [apply] at h
  | output | inplace | nobackup | check | listFiles | verbose | version =>
    obtain rfl := Except.ok.inj h
    exact ⟨rfl, _, rfl, .inl ⟨rfl, rfl⟩⟩
  | width | filesMaxSize =>
    obtain ⟨n, hn, rfl⟩ := number_eq_ok h
    exact ⟨rfl, .integer n, by simp [value?, hn], .inr ⟨_, rfl, .inl ⟨rfl, rfl⟩⟩⟩
  | reformatter | noRespectGitignore | forceExclude =>
    obtain rfl := Except.ok.inj h
    exact ⟨rfl, _, rfl, .inr ⟨_, rfl, .inl ⟨rfl, rfl⟩⟩⟩
  | extendInclude | exclude | extendExclude =>
    obtain rfl := Except.ok.inj h
    exact ⟨rfl, _, rfl, .inr ⟨_, rfl, .inr ⟨rfl, rfl, rfl⟩⟩⟩

theorem items_ofOption (v : Option Value) :
    (Held.ofOption v).items = match v with
      | some (.array vs) => vs
      | _ => [] := by
  cases v with
  | none => rfl
  | some v => cases v <;> rfl

theorem given_addTo (o : Options) (s r : Setting) (v : Value) :
    Held.ofOption ((addTo o s v).given.get? r) =
      if r = s then .value (.array ((Held.ofOption (o.given.get? s)).items ++ [v]))
      else Held.ofOption (o.given.get? r) := by
  rw [addTo, Config.get?_set, items_ofOption]
  split <;> rfl

theorem gives_of_apply (h : u.apply o = .ok o') : Gives o [u] o' := by
  obtain ⟨hconfig, v, hv, hcases⟩ := apply_cases h
  refine ⟨by simpa using ⟨v, hv⟩, fun r => ?_, hconfig⟩
  rw [List.foldl_cons, List.foldl_nil, store]
  rcases hcases with ⟨hnone, hgiven⟩ | ⟨s, hs, ⟨hrep, hgiven⟩ | ⟨hrep, rfl, rfl⟩⟩
  · rw [hnone, if_neg (by simp), hgiven]
  · rw [hs, hgiven, Config.get?_set]
    by_cases hr : r = s
    · subst hr
      simp [hrep, hv]
    · rw [if_neg hr, if_neg (by simpa using fun h => hr h.symm)]
  · rw [hs, given_addTo]
    by_cases hr : r = s
    · subst hr
      simp [hrep]
    · rw [if_neg hr, if_neg (by simpa using fun h => hr h.symm)]

theorem gives_of_foldlM {us : List Use} (h : us.foldlM apply o = .ok o') : Gives o us o' := by
  induction us generalizing o with
  | nil =>
    obtain rfl := Except.ok.inj h
    exact .of_eq rfl rfl
  | cons u us ih =>
    rw [List.foldlM_cons] at h
    cases hu : u.apply o with
    | error e => simp [hu, bind, Except.bind] at h
    | ok o₁ =>
      rw [hu] at h
      exact (gives_of_apply hu).append (ih h)

end Use

section Lines

variable {a : Argument} {us us' : List Use} {want want' : Option Flag}

theorem Spells.unique (h : Spells a us want) (h' : Spells a us' want') :
    us = us' ∧ want = want' := by
  obtain ⟨t, hread, -, huses⟩ := spells_iff.1 h
  obtain ⟨t', hread', -, huses'⟩ := spells_iff.1 h'
  obtain rfl := Option.some.inj (hread.symm.trans hread')
  obtain ⟨rfl, rfl, -⟩ := Uses.mk.inj (Except.ok.inj (huses.symm.trans huses'))
  exact ⟨rfl, rfl⟩

theorem Plain.not_spells (h : Plain a) : ¬ Spells a us want := by
  intro h'
  obtain ⟨t, hread, hflags, -⟩ := spells_iff.1 h'
  obtain rfl := Option.some.inj ((plain_iff.1 h).symm.trans hread)
  exact hflags.1 a rfl

theorem not_plain_terminator : ¬ Plain ['-', '-'] := by
  intro h
  simpa [Token.read] using plain_iff.1 h

theorem not_spells_terminator : ¬ Spells ['-', '-'] us want := by
  intro h
  obtain ⟨t, hread, hflags, -⟩ := spells_iff.1 h
  exact hflags.2 (Option.some.inj hread).symm

/-- A line of arguments spells its uses of flags in one way. -/
theorem Line.unique {as : List Argument} {us us' : List Use} (h : Line as us) (h' : Line as us') :
    us = us' := by
  induction h generalizing us' with
  | nil =>
    cases h'
    rfl
  | operand hplain _ ih =>
    cases h' with
    | operand _ h' => exact ih h'
    | terminator => exact absurd hplain not_plain_terminator
    | flags hspells _ => exact absurd hspells hplain.not_spells
    | value hspells _ _ => exact absurd hspells hplain.not_spells
  | terminator =>
    cases h' with
    | operand hplain _ => exact absurd hplain not_plain_terminator
    | terminator => rfl
    | flags hspells _ => exact absurd hspells not_spells_terminator
    | value hspells _ _ => exact absurd hspells not_spells_terminator
  | flags hspells _ ih =>
    cases h' with
    | operand hplain _ => exact absurd hspells hplain.not_spells
    | terminator => exact absurd hspells not_spells_terminator
    | flags hspells' h' => rw [(hspells.unique hspells').1, ih h']
    | value hspells' _ _ => simpa using (hspells.unique hspells').2
  | value hspells _ _ ih =>
    cases h' with
    | operand hplain _ => exact absurd hspells hplain.not_spells
    | terminator => exact absurd hspells not_spells_terminator
    | flags hspells' _ => simpa using (hspells.unique hspells').2
    | value hspells' _ h' =>
      obtain ⟨rfl, hwant⟩ := hspells.unique hspells'
      rw [Option.some.inj hwant, ih h']

end Lines

namespace Token

variable {args : List Argument} {t : Token} {ts : List Token}

theorem eq_nil_of_readAll (h : readAll args = some []) : args = [] := by
  cases args with
  | nil => rfl
  | cons a as =>
    rw [readAll] at h
    split at h <;> simp at h

theorem exists_of_readAll (h : readAll args = some (t :: ts)) :
    ∃ a as, args = a :: as ∧ read a = some t ∧
      (t = .terminator ∧ ts = as.map .operand ∨ t ≠ .terminator ∧ readAll as = some ts) := by
  cases args with
  | nil => simp [readAll] at h
  | cons a as =>
    refine ⟨a, as, rfl, ?_⟩
    rw [readAll] at h
    split at h
    · simp at h
    · rename_i hread
      obtain ⟨rfl, rfl⟩ := List.cons.inj (Option.some.inj h)
      exact ⟨hread, .inl ⟨rfl, rfl⟩⟩
    · rename_i t' hterm hread
      obtain ⟨ts', hts, hcons⟩ := Option.map_eq_some_iff.1 h
      obtain ⟨rfl, rfl⟩ := List.cons.inj hcons
      exact ⟨hread, .inr ⟨hterm, hts⟩⟩

end Token

namespace Reading

variable {r r' : Reading}

theorem gives_operand (r : Reading) (name : Option Argument) :
    Gives r.options [] (r.operand name).options := by
  rw [operand]
  split <;> exact .of_eq rfl rfl

theorem leftover_of_operand {name : Option Argument} (h : (r.operand name).leftover = false) :
    r.leftover = false := by
  rw [operand] at h
  split at h
  · simp at h
  · exact h

theorem options_atFlag (r : Reading) : r.atFlag.options = r.options := by
  rw [atFlag]
  split <;> rfl

theorem leftover_atFlag (r : Reading) : r.atFlag.leftover = r.leftover := by
  rw [atFlag]
  split <;> rfl

theorem use_eq_ok {us : List Use} {leftover : Bool} (h : r.use us leftover = .ok r') :
    us.foldlM Use.apply r.options = .ok r'.options ∧ r'.leftover = (r.leftover || leftover) := by
  rw [use] at h
  cases hfold : us.foldlM Use.apply r.options with
  | error e => simp [hfold, bind, Except.bind] at h
  | ok o =>
    simp only [hfold, bind, Except.bind, pure, Except.pure, Except.ok.injEq] at h
    subst h
    exact ⟨rfl, rfl⟩

/-- Operands give no flags. -/
theorem run_operands {as : List Argument} (h : run r (as.map .operand) = .ok r')
    (hl : r'.leftover = false) :
    r.leftover = false ∧ Gives r.options [] r'.options := by
  induction as generalizing r with
  | nil =>
    obtain rfl := Except.ok.inj h
    exact ⟨hl, .of_eq rfl rfl⟩
  | cons a as ih =>
    obtain ⟨hrest, hgives⟩ := ih h
    exact ⟨leftover_of_operand hrest, (gives_operand r _).append hgives⟩

theorem gives_of_use {us : List Use} {leftover : Bool} (h : r.atFlag.use us leftover = .ok r')
    (hl : r'.leftover = false) :
    r.leftover = false ∧ leftover = false ∧ Gives r.options us r'.options := by
  obtain ⟨hfold, hleft⟩ := use_eq_ok h
  rw [hleft, leftover_atFlag, Bool.or_eq_false_iff] at hl
  rw [options_atFlag] at hfold
  exact ⟨hl.1, hl.2, Use.gives_of_foldlM hfold⟩

theorem line_of_run {ts : List Token} (h : run r ts = .ok r') {args : List Argument}
    (hread : Token.readAll args = some ts) (hl : r'.leftover = false) :
    r.leftover = false ∧ ∃ us, Line args us ∧ Gives r.options us r'.options := by
  fun_induction run r ts generalizing args with
  | case1 r =>
    obtain rfl := Except.ok.inj h
    obtain rfl := Token.eq_nil_of_readAll hread
    exact ⟨hl, [], .nil, .of_eq rfl rfl⟩
  | case2 r s ts ih =>
    obtain ⟨a, as, rfl, ha, ⟨hterm, -⟩ | ⟨-, has⟩⟩ := Token.exists_of_readAll hread
    · simp at hterm
    · cases Token.reads_of_read ha with
      | plain hplain =>
        obtain ⟨hrest, us, hline, hgives⟩ := ih h has
        exact ⟨leftover_of_operand hrest, us, .operand hplain hline,
          (gives_operand r _).append hgives⟩
  | case3 r ts ih =>
    obtain ⟨a, as, rfl, ha, ⟨-, rfl⟩ | ⟨hterm, -⟩⟩ := Token.exists_of_readAll hread
    · cases Token.reads_of_read ha with
      | terminator =>
        obtain ⟨hrest, hgives⟩ := run_operands h hl
        exact ⟨leftover_of_operand hrest, [], .terminator, (gives_operand r _).append hgives⟩
    · exact absurd rfl hterm
  | case4 r t ts h₁ h₂ e hu => simp at h
  | case5 r t ts h₁ h₂ us hu hw e he => simp at h
  | case6 r t ts h₁ h₂ us hu hw r₁ hr ih =>
    obtain ⟨a, as, rfl, ha, ⟨hterm, -⟩ | ⟨-, has⟩⟩ := Token.exists_of_readAll hread
    · exact absurd hterm h₂
    · obtain ⟨hrest, vs, hline, hgives⟩ := ih h has
      obtain ⟨hleft, hnone, hus⟩ := gives_of_use hr hrest
      have hspells : Spells a us.uses none :=
        spells_iff.2 ⟨t, ha, ⟨h₁, h₂⟩, by rw [hu, ← hw, ← hnone]⟩
      exact ⟨hleft, us.uses ++ vs, .flags hspells hline, hus.append hgives⟩
  | case7 r t h₁ h₂ us hu f hw s ts e he => simp at h
  | case8 r t h₁ h₂ us hu f hw s ts r₁ hr ih =>
    obtain ⟨a, as, rfl, ha, ⟨hterm, -⟩ | ⟨-, has⟩⟩ := Token.exists_of_readAll hread
    · exact absurd hterm h₂
    · obtain ⟨v, as', rfl, hv, ⟨hterm, -⟩ | ⟨-, has'⟩⟩ := Token.exists_of_readAll has
      · simp at hterm
      · cases Token.reads_of_read hv with
        | plain hplain =>
          obtain ⟨hrest, vs, hline, hgives⟩ := ih h has'
          obtain ⟨hleft, hnone, hus⟩ := gives_of_use hr hrest
          have hspells : Spells a us.uses (some f) :=
            spells_iff.2 ⟨t, ha, ⟨h₁, h₂⟩, by rw [hu, ← hw, ← hnone]⟩
          refine ⟨hleft, us.uses ++ ⟨f, s⟩ :: vs, .value hspells hplain hline, ?_⟩
          simpa using hus.append hgives
  | case9 r t ts h₁ h₂ us hu f hw hts => simp at h

end Reading

/-- Arguments that are read are a line, and its uses give the options what they have. -/
theorem exists_line_of_parse {args : List Argument} {o : Options} (h : parse args = .ok o) :
    ∃ us, Line args us ∧ Gives {} us o := by
  rw [parse] at h
  cases hread : Token.readAll args with
  | none => simp [hread] at h
  | some ts =>
    cases hrun : Reading.run {} ts with
    | error e => simp [hread, hrun] at h
    | ok r =>
      cases hl : r.leftover with
      | true => simp [hread, hrun, hl] at h
      | false =>
        obtain rfl : r.options = o := by simpa [hread, hrun, hl] using h
        exact (Reading.line_of_run hrun hread hl).2

end CommandLine

end ErbLayout
