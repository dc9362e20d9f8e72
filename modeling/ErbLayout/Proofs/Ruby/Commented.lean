import ErbLayout.Proofs.Ruby.Frames
import ErbLayout.Proofs.Ruby.TrailingRead
/-!
A comment behind code of one line does not count for whether the code is whole, where it is a comment
to the reader and no sign dangles before it. So it is in code in which nothing opens a literal and no
sign is told by what stands next to it. A name that is spelled like a keyword of a block is no code
by itself: it could only be the name of a variable, and no such name is spelled like that.
-/

namespace ErbLayout.Ruby

/-- What the reader of a code comes to: some frames, and the next token. -/
inductive Comes (code : List Char) : List Frame → Read → Prop
  | start {r : Read} : read (expected beforeCode) ⟨code, [], []⟩ = some r →
    Comes code [{ state := beforeCode }] r
  | next {frames ready below : List Frame} {top : Frame} {r r' : Read} : Comes code frames r →
    settle r.token (64 * (frames.length + 1)) frames = .ready ready → shift ready r = top :: below →
    read (expected top.state) r.source = some r' → Comes code (top :: below) r'

theorem Comes.drawn {P : Nat → Nat → List Grammar.Step → Prop} (hP : table.Lasts P) {code : List Char}
    {frames : List Frame} {r : Read} (h : Comes code frames r) : ∀ f ∈ frames, f.state.Drawn P := by
  induction h with
  | start _ => exact List.forall_mem_singleton.2 (drawn_beforeCode hP)
  | next _ hsettle hshift _ ih => exact hshift ▸ drawn_shift hP _ (drawn_settle hP ih hsettle)

/-- What stands behind a code counts for nothing in it: no literal is open at the end of the code, and
no token takes anything of what is behind it. -/
structure Apart (code t : List Char) : Prop where
  closed : ∀ frames r, Comes code frames r → r.source.rest = [] → r.source.delimited = []
  spared : ∀ frames r, Comes (code ++ t) frames r → r.Spares t

/-- A code does not end in the sign of an argument that is passed on. -/
def Steady (code : List Char) : Prop :=
  ∀ frames r, Comes code frames r → r.source.rest = [] → r.token ∉ danglingSigns

/-- At the end of the code nothing is read any more. -/
theorem accepts_endOfCode {r r' : Read} (hr : r.token = .endOfCode) (hr' : r'.token = .endOfCode)
    {n m : Nat} (hn : 0 < n) (hm : 0 < m) (frames : List Frame) :
    accepts n frames r = accepts m frames r' := by
  obtain ⟨n, rfl⟩ := Nat.exists_eq_succ_of_ne_zero hn.ne'
  obtain ⟨m, rfl⟩ := Nat.exists_eq_succ_of_ne_zero hm.ne'
  rw [accepts, accepts, hr, hr']
  cases h : settle .endOfCode (64 * (frames.length + 1)) frames with
  | program => rfl
  | ready frames' => exact absurd h (settle_endOfCode _ _ _)
  | fail => rfl

theorem read_end {src : Source} (hrest : src.rest = []) (hsane : src.Sane) (expects : Expected) :
    read expects src = some { token := .endOfCode, source := src } := by
  have hnil : src.after [] = src := by
    rw [← hrest]
    rfl
  have hread := readFrom_nil expects hsane (Nat.succ_pos src.rest.length)
  rwa [hnil] at hread

section Lockstep

variable {code t : List Char} {frames : List Frame} {src : Source} (hrest : src.rest = [])
  (hsane : src.Sane) (h : Comes code frames ⟨.unaryMinus, src, false⟩)
include hrest hsane h

/-- Code cannot end in a minus sign. -/
theorem accepts_unaryMinus (n : Nat) : accepts n frames ⟨.unaryMinus, src, false⟩ = false := by
  refine accepts_minus (h.drawn lasts_minusGoesOn) (.inl rfl) (fun ready top below r' _ _ hread => ?_) n
  rw [read_end hrest hsane, Option.some.injEq] at hread
  exact hread ▸ rfl

variable (ht : Remark t) (hapart : Apart code t)
include ht hapart

/-- A comment is no operand. -/
theorem accepts_binaryMinus (h' : Comes (code ++ t) frames ⟨.binaryMinus, src.before t, false⟩)
    (n : Nat) : accepts n frames ⟨.binaryMinus, src.before t, false⟩ = false := by
  refine accepts_minus (h.drawn lasts_minusGoesOn) (.inr rfl)
    (fun ready top below r' hsettle hshift hread => ?_) n
  have hline : OneLine src.rest := fun c hc => by simp [hrest] at hc
  have habreast := abreast_read ht (expected top.state) hsane hline
  rw [read_end hrest hsane, hread] at habreast
  cases habreast with
  | alike hbehind _ => exact absurd hbehind.shorter (Nat.lt_irrefl _)
  | ends _ hr' => exact hr'
  | taken hr => exact absurd (hapart.spared _ _ (h'.next hsettle hshift hread)) hr
  | opened hr _ => exact absurd (hapart.closed _ _ h hrest) hr
  | dangling hr _ => simp [danglingSigns] at hr

end Lockstep

section Lockstep

variable {code t : List Char} (ht : Remark t) (hapart : Apart code t) (hsteady : Steady code)
include ht hapart hsteady

/-- Readers that come to the same frames decide alike about what they read next, if they do when the
comment is still ahead. -/
theorem accepts_abreast {s : List Char} {frames : List Frame} {a b : Option Read}
    (habreast : Abreast t s a b) (ha : ∀ r, a = some r → Comes code frames r)
    (hb : ∀ r, b = some r → Comes (code ++ t) frames r) {f g : Read → Nat} (hf : ∀ r, 0 < f r)
    (hg : ∀ r, 0 < g r)
    (halike : ∀ r, Behind r.source.rest s → r.source.Sane → Comes code frames r →
      Comes (code ++ t) frames (r.before t) →
      accepts (g (r.before t)) frames (r.before t) = accepts (f r) frames r) :
    (b.any fun r => accepts (g r) frames r) = a.any fun r => accepts (f r) frames r := by
  cases habreast with
  | nothing => rfl
  | alike hbehind hsane => exact halike _ hbehind hsane (ha _ rfl) (hb _ rfl)
  | ends hr hr' => exact accepts_endOfCode hr' hr (hg _) (hf _) frames
  | taken hr => exact absurd (hapart.spared _ _ (hb _ rfl)) hr
  | minus hrest hsane =>
    rw [Option.any_some, Option.any_some, accepts_unaryMinus hrest hsane (ha _ rfl),
      accepts_binaryMinus hrest hsane (ha _ rfl) ht hapart (hb _ rfl)]
  | opened hr hrest => exact absurd (hapart.closed _ _ (ha _ rfl) hrest) hr
  | dangling hr hrest => exact absurd hr (hsteady _ _ (ha _ rfl) hrest)

/-- Readers of a code and of the code with a comment behind it stay abreast. -/
theorem accepts_before {n m : Nat} {frames : List Frame} {r : Read} (hsrc : r.source.Sane)
    (hline : OneLine r.source.rest) (h : Comes code frames r)
    (h' : Comes (code ++ t) frames (r.before t)) (hn : r.source.rest.length + 2 ≤ n)
    (hm : r.source.rest.length + 2 ≤ m) : accepts m frames (r.before t) = accepts n frames r := by
  induction n generalizing m frames r with
  | zero => omega
  | succ n ih =>
    obtain ⟨m, rfl⟩ : ∃ k, m = k + 1 := ⟨m - 1, by omega⟩
    have htoken : (r.before t).token = r.token := rfl
    have hshifts (ready : List Frame) : shift ready (r.before t) = shift ready r := rfl
    simp only [accepts, htoken, hshifts]
    cases hsettle : settle r.token (64 * (frames.length + 1)) frames with
    | fail => rfl
    | program => rfl
    | ready ready =>
      dsimp only
      cases hshift : shift ready r with
      | nil => rfl
      | cons top below =>
        refine accepts_abreast ht hapart hsteady (abreast_read ht (expected top.state) hsrc hline)
          (fun _ => h.next hsettle hshift) (fun _ => h'.next hsettle hshift)
          (fun _ => by omega) (fun _ => by omega) fun r' hbehind hsane hr' hbefore => ?_
        have hlen := hbehind.shorter
        exact ih hsane (hline.of_suffix hbehind.suffix) hr' hbefore (by omega) (by omega)

/-- A comment behind code counts for nothing. -/
theorem isComplete_commented (hline : OneLine code) :
    isComplete (code ++ t) = isComplete code := by
  have hsane : Source.Sane ⟨code, [], []⟩ := ⟨by simp, by simp⟩
  exact accepts_abreast ht hapart hsteady (abreast_read ht (expected beforeCode) hsane hline)
    (fun _ => .start) (fun _ => .start) (fun _ => by omega) (fun _ => by omega)
    fun r hbehind hsane hr hbefore => accepts_before ht hapart hsteady hsane
      (hline.of_suffix hbehind.suffix) hr hbefore (by omega)
      (by simp only [Read.before, Source.before, List.length_append]; omega)

end Lockstep

/-- The characters that open literals, escape others, or are told by what stands next to them. -/
def boldSigns : List Char := "&*-:[<\"'`/%\\".toList

/-- Nothing in a line of code opens a literal, and no sign is told by what stands next to it. -/
def Tame (s : List Char) : Prop := OneLine s ∧ ∀ c ∈ s, c ∉ boldSigns

theorem tame_of_all {s : List Char} (h : OneLine s)
    (hs : s.all (!boldSigns.contains ·) = true) : Tame s :=
  ⟨h, fun c hc => by simpa using List.all_eq_true.1 hs c hc⟩

theorem Tame.of_suffix {s r : List Char} (h : Tame s) (hr : r <:+ s) : Tame r :=
  ⟨h.1.of_suffix hr, fun c hc => h.2 c (hr.subset hc)⟩

/-- Only words are told by their place in tame code. -/
theorem readPlaced_of_tame {c : Char} (hc : c ∉ boldSigns) (expects : Expected) (src : Source)
    (spaced : Bool) (s : List Char) : readPlaced expects src spaced (c :: s) =
      if isWordStart c then readSuffixed expects src (c :: s) else none := by
  have hne {e : Char} (he : e ∈ boldSigns) : c ≠ e := fun h => hc (h ▸ he)
  have hampersand : c ≠ '&' := hne (by decide)
  have hstar : c ≠ '*' := hne (by decide)
  have hminus : c ≠ '-' := hne (by decide)
  have hcolon : c ≠ ':' := hne (by decide)
  have hbracket : c ≠ '[' := hne (by decide)
  have hless : c ≠ '<' := hne (by decide)
  have hdouble : c ≠ '"' := hne (by decide)
  have hsingle : c ≠ '\'' := hne (by decide)
  have hback : c ≠ '`' := hne (by decide)
  have hslash : c ≠ '/' := hne (by decide)
  have hpercent : c ≠ '%' := hne (by decide)
  have hopening : readOpening expects src spaced (c :: s) = none := by
    simp [readOpening, openDelimited, hdouble, hsingle, hback, hslash, hpercent]
  rw [readPlaced, hopening] <;> simp [hampersand, hstar, hminus, hcolon, hbracket, hless]

section Tokens

variable {t : List Char} (ht : Remark t) (expects : Expected) {s : List Char} (hs : Tame s)
include ht hs

theorem calm_readContextual : Calm t s ⟨s, [], []⟩ (readContextual expects ⟨s, [], []⟩)
    (readContextual expects ⟨s ++ t, [], []⟩) := by
  have hread (u : List Char) : readContextual expects ⟨u, [], []⟩ =
      readBehind expects ⟨u, [], []⟩ (gapFrom (expects .lineBreak && !expects .noLineBreak) false
        false none u) := by
    rw [readContextual_eq]
    simp [Source.inBody, Source.awaitsBody]
  rw [hread, hread]
  have hlevel := level_gapFrom (expects .lineBreak && !expects .noLineBreak) false ht false s hs.1
  generalize gapFrom _ false false none s = a at hlevel
  generalize gapFrom _ false false none (s ++ t) = b at hlevel
  cases hlevel with
  | idle ha hb =>
    rw [readBehind_of_idle ha, readBehind_of_idle hb]
    exact .nothing
  | @code spaced u hu hsuffix =>
    obtain ⟨c, u, rfl⟩ := List.exists_cons_of_ne_nil hu
    have hc := (hs.of_suffix hsuffix).2 c List.mem_cons_self
    rw [readBehind, readBehind, List.cons_append, readPlaced_of_tame hc, readPlaced_of_tame hc]
    refine .ite Iff.rfl (fun _ => ?_) fun _ => .nothing
    have hsuffixed : Calm t (c :: u) ⟨s, [], []⟩ _ _ := calm_readSuffixed ht expects (c :: u)
    exact hsuffixed.of_suffix hsuffix

omit ht hs in
theorem readEscape_of_head {src : Source} (h : src.rest.head? ≠ some '\\') :
    readEscape expects src = none := by
  unfold readEscape
  split
  · rename_i u hu
    rw [hu] at h
    exact absurd rfl h
  · rfl

theorem calm_read :
    Calm t s ⟨s, [], []⟩ (read expects ⟨s, [], []⟩) (read expects ⟨s ++ t, [], []⟩) := by
  have hsane : Source.Sane ⟨s, [], []⟩ := ⟨by simp, by simp⟩
  have hhead : s.head? ≠ some '\\' :=
    fun h => hs.2 _ (List.mem_of_mem_head? h) (by decide)
  have hhead' : (s ++ t).head? ≠ some '\\' := by
    cases s with
    | nil =>
      obtain ⟨b, u, rfl, hb⟩ := ht.exists_cons
      simpa using ne_of_isBlank hb (by decide)
    | cons c s => exact hhead
  rw [read, read, readFrom_succ, readFrom_succ, readEscape_of_head expects hhead,
    readEscape_of_head expects hhead', Option.or_none, Option.or_none]
  exact (calm_readContextual ht expects hs).or (calm_readAfterGap ht expects hsane hs.1)

end Tokens

section Comes

variable {code : List Char} (hcode : Tame code)
include hcode

theorem tame_of_comes {frames : List Frame} {r : Read} (h : Comes code frames r) :
    r.token ∉ danglingSigns ∧ ∃ u, Tame u ∧ r.source = ⟨u, [], []⟩ := by
  have hremark : Remark [' ', '#'] := .mk (g := []) (k := []) (by decide) (by simp) (by simp) (by simp)
  have hread {expects : Expected} {s : List Char} (hs : Tame s) {r : Read}
      (hr : read expects ⟨s, [], []⟩ = some r) :
      r.token ∉ danglingSigns ∧ ∃ u, Tame u ∧ r.source = ⟨u, [], []⟩ := by
    have hcalm := calm_read hremark expects hs
    rw [hr] at hcalm
    generalize read expects ⟨s ++ [' ', '#'], [], []⟩ = b at hcalm
    cases hcalm with
    | found htoken hrest => exact ⟨htoken, _, hs.of_suffix hrest.suffix, rfl⟩
    | ends => exact ⟨by simp [danglingSigns], [], hs.of_suffix List.nil_suffix, rfl⟩
  induction h with
  | start hr => exact hread hcode hr
  | next _ _ _ hr ih =>
    obtain ⟨-, u, hu, hsource⟩ := ih
    rw [hsource] at hr
    exact hread hu hr

theorem tame_of_comes_commented {t : List Char} (ht : Remark t) {frames : List Frame} {r : Read}
    (h : Comes (code ++ t) frames r) :
    r.token = .endOfCode ∨ ∃ u, Tame u ∧ r.source = ⟨u ++ t, [], []⟩ := by
  have hread {expects : Expected} {s : List Char} (hs : Tame s) {r : Read}
      (hr : read expects ⟨s ++ t, [], []⟩ = some r) :
      r.token = .endOfCode ∨ ∃ u, Tame u ∧ r.source = ⟨u ++ t, [], []⟩ := by
    have hcalm := calm_read ht expects hs
    rw [hr] at hcalm
    generalize read expects ⟨s, [], []⟩ = a at hcalm
    cases hcalm with
    | found htoken hrest => exact .inr ⟨_, hs.of_suffix hrest.suffix, rfl⟩
    | ends => exact .inl rfl
  induction h with
  | start hr => exact hread hcode hr
  | next _ hsettle _ hr ih =>
    rcases ih with hend | ⟨u, hu, hsource⟩
    · rw [hend] at hsettle
      exact absurd hsettle (settle_endOfCode _ _ _)
    · rw [hsource] at hr
      exact hread hu hr

theorem apart_of_tame {t : List Char} (ht : Remark t) : Apart code t := by
  refine ⟨fun frames r h _ => ?_, fun frames r h => ?_⟩
  · obtain ⟨-, u, -, hsource⟩ := tame_of_comes hcode h
    rw [hsource]
  · rcases tame_of_comes_commented hcode ht h with hend | ⟨u, -, hsource⟩
    · exact .inl hend
    · refine .inr ?_
      rw [hsource]
      exact ⟨List.suffix_append u t, by simp⟩

theorem steady_of_tame : Steady code := fun _ _ h _ => (tame_of_comes hcode h).1

end Comes

open Grammar

/-- Some symbols are what is left of a production of Ruby with a head and a size. -/
def Standing (head size : Nat) (rest : List Step) : Prop :=
  ∃ ps ∈ table.productions.toList, ∃ p ∈ ps,
    p.head = head ∧ p.steps.length = size ∧ rest <:+ p.steps

theorem lasts_standing : table.Lasts Standing := by
  have hall : ∀ ps ∈ table.productions.toList, ∀ p ∈ ps,
      Standing p.head p.steps.length p.steps :=
    fun ps hps p hp => ⟨ps, hps, p, hp, rfl, rfl, List.suffix_rfl⟩
  exact Table.lasts_ofRules (fun ⟨ps, hps, p, hp, hhead, hsize, hrest⟩ =>
    ⟨ps, hps, p, hp, hhead, hsize, (List.suffix_cons _ _).trans hrest⟩) hall

section Standing

variable {head size : Nat} {rest : List Step} (h : Standing head size rest)
include h

/-- More than a name stands for a call. -/
theorem Standing.size_ne_one (hcall : calls.any (·.number == head) = true) : size ≠ 1 := by
  have hall : ∀ ps ∈ table.productions.toList, ∀ p ∈ ps,
      calls.any (·.number == p.head) = true → p.steps.length ≠ 1 := by decide +kernel
  obtain ⟨ps, hps, p, hp, rfl, rfl, -⟩ := h
  exact hall ps hps p hp hcall

/-- Nothing but an empty program stands for no symbols. -/
theorem Standing.head_of_size_zero (hsize : size = 0) : head = Phrase.program.number := by
  have hall : ∀ ps ∈ table.productions.toList, ∀ p ∈ ps,
      p.steps.length = 0 → p.head = Phrase.program.number := by decide +kernel
  obtain ⟨ps, hps, p, hp, rfl, rfl, -⟩ := h
  exact hall ps hps p hp hsize

end Standing

/-- The symbols that a name alone comes to. -/
def isName (symbol : Symbol) : Bool :=
  symbol == .token Token.identifier.number || symbol == .phrase Phrase.variableName.number

/-- No program ends in a name that has not become a statement. -/
theorem Standing.not_isName {size : Nat} {step : Step}
    (h : Standing Phrase.program.number size [step]) : isName step.symbol = false := by
  have hall : ∀ ps ∈ table.productions.toList, ∀ p ∈ ps, p.head = Phrase.program.number →
      (p.steps.getLast?.any fun step => isName step.symbol) = false := by decide +kernel
  obtain ⟨ps, hps, p, hp, hhead, -, init, hinit⟩ := h
  have hlast := hall ps hps p hp hhead
  rw [← hinit, List.getLast?_append] at hlast
  simpa using hlast

/-- Nothing stands for a lone name but a name that is marked like it, so the reader never comes to a
program. -/
theorem settle_lone {base : Frame} (hbase : base.state.Drawn Standing) (n : Nat) {symbol : Symbol}
    (hsymbol : isName symbol = true) :
    settle .endOfCode n [⟨base.state.after table symbol, true⟩, base] = .fail := by
  induction n generalizing symbol with
  | zero => rfl
  | succ n ih =>
    set s := base.state.after table symbol with hs
    rw [settle]
    cases haction : actionOn s .endOfCode with
    | fail => rfl
    | shift => rfl
    | reduce head size =>
      rw [actionOn, if_neg (by simp)] at haction
      obtain ⟨i, hi, hwhole, rfl, rfl⟩ := State.exists_of_reduce haction
      obtain ⟨step, hstep, hstanding⟩ := State.exists_step_of_after lasts_standing hbase hi
      rw [List.isEmpty_iff.1 hwhole] at hstanding
      have hprogram : i.head ≠ Phrase.program.number := by
        intro hhead
        rw [hhead] at hstanding
        have hname := hstanding.not_isName
        rw [hstep, hsymbol] at hname
        exact absurd hname (by simp)
      dsimp only
      rw [if_neg hprogram]
      cases hsize : i.size with
      | zero => exact absurd (hstanding.head_of_size_zero hsize) hprogram
      | succ k =>
        cases k with
        | succ k => simp [reduce]
        | zero =>
          by_cases hname : i.head = Phrase.variableName.number
          · have hreduce : reduce [⟨s, true⟩, base] i.head 1 =
                some [⟨base.state.after table (.phrase i.head), true⟩, base] := by
              simp [reduce, markOf, hname]
            rw [hreduce]
            exact ih (by simp [isName, hname])
          · have hcall : calls.any (·.number == i.head) = false :=
              Bool.eq_false_iff.2 fun hcall => hstanding.size_ne_one hcall hsize
            have hreduce : reduce [⟨s, true⟩, base] i.head 1 = none := by
              simp [reduce, markOf, hname, hcall]
            rw [hreduce]
            rfl

/-- Before a first symbol there is nothing that a phrase could stand for. -/
theorem settle_single {base : Frame} (hbase : base.state.Drawn Standing) {t : Token} {n : Nat}
    {ready : List Frame} (h : settle t n [base] = .ready ready) : ready = [base] := by
  cases n with
  | zero => simp [settle] at h
  | succ n =>
    rw [settle] at h
    cases haction : actionOn base.state t with
    | fail => simp [haction] at h
    | shift =>
      rw [haction] at h
      dsimp only at h
      split at h
      · simp at h
      · exact (Settled.ready.inj h).symm
    | reduce head size =>
      rw [haction] at h
      dsimp only at h
      by_cases hhead : head = Phrase.program.number
      · rw [if_pos hhead] at h
        split at h <;> simp at h
      · rw [actionOn] at haction
        split at haction
        · simp at haction
        · obtain ⟨i, hi, -, rfl, rfl⟩ := State.exists_of_reduce haction
          obtain ⟨k, hk⟩ := Nat.exists_eq_succ_of_ne_zero
            fun hsize => hhead ((hbase i hi).head_of_size_zero hsize)
          have hreduce : reduce [base] i.head i.size = none := by
            rw [hk]
            simp [reduce]
          rw [if_neg hhead, hreduce] at h
          simp at h

/-- A reader that finds nothing but such a name gives up. -/
theorem accepts_lone {base : Frame} (hbase : base.state.Drawn Standing) (n : Nat) :
    accepts n [base] ⟨.identifier, ⟨[], [], []⟩, true⟩ = false := by
  have hend (expects : Expected) : read expects ⟨[], [], []⟩ = some ⟨.endOfCode, ⟨[], [], []⟩, false⟩ :=
    read_end rfl ⟨by simp, by simp⟩ expects
  have hshift : shift [base] ⟨.identifier, ⟨[], [], []⟩, true⟩ =
      [⟨base.state.after table (.token Token.identifier.number), true⟩, base] := by
    simp [shift]
  cases n with
  | zero => rfl
  | succ n =>
    rw [accepts]
    cases hsettle : settle .identifier (64 * ([base].length + 1)) [base] with
    | fail => rfl
    | program => exact absurd (settle_program hsettle) (by simp)
    | ready ready =>
      obtain rfl := settle_single hbase hsettle
      dsimp only
      rw [hshift]
      dsimp only
      rw [hend, Option.any_some]
      cases n with
      | zero => rfl
      | succ n => rw [accepts, settle_lone hbase _ (by simp [isName])]

/-- A lone name that is spelled like a keyword of a block is no program. -/
theorem isComplete_of_lone {code : List Char} (hread : read (expected beforeCode) ⟨code, [], []⟩ =
    some ⟨.identifier, ⟨[], [], []⟩, true⟩) : isComplete code = false := by
  have hbase : (Frame.mk beforeCode false).state.Drawn Standing := drawn_beforeCode lasts_standing
  rw [isComplete, hread, Option.any_some]
  exact accepts_lone hbase _

end ErbLayout.Ruby
