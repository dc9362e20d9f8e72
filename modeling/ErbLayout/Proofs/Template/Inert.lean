import ErbLayout.Proofs.Erb.Kind
import ErbLayout.Proofs.Ruby.Comment
import ErbLayout.Proofs.Template.Standing
/-!
ERB comments in a template. A template is accepted exactly when each of its items finds open what it
ends and nothing is left open, so that an item that asks nothing of the stack may stand anywhere. A
comment asks nothing of it if the code behind its first line is whole.
-/

namespace ErbLayout.Erb

open Text (solid)

theorem Tag.head_code_of_comment {r : List Char} {tag : Tag}
    (h : Tag.split? ('<' :: '%' :: '#' :: r) = some tag) : ∃ s, Text.trim tag.code = '#' :: s := by
  obtain ⟨inside, htext, hwords⟩ := Tag.split?_eq_some h
  have hinside : ∃ u, inside = '#' :: u := by
    cases ho : tag.opener with
    | trimmed | output | rawOutput => simp [ho, Opener.text] at htext
    | run =>
      rw [ho] at htext
      cases inside with
      | nil => cases hc : tag.closer <;> simp [hc, Opener.text, Closer.text] at htext
      | cons c u =>
        obtain ⟨rfl, -⟩ := List.cons.inj (List.cons.inj (List.cons.inj htext).2).2
        exact ⟨u, rfl⟩
  obtain ⟨u, rfl⟩ := hinside
  have hhead : (Text.trim tag.code).head? = some '#' := by
    rw [head_trim, ← solid_of_words hwords, solid, List.filter_cons_of_pos (by decide)]
    rfl
  obtain ⟨s, hs⟩ := List.head?_eq_some_iff.1 hhead
  exact ⟨s, hs⟩

end ErbLayout.Erb

namespace ErbLayout.Template

open Markup Placeholder
open Job (closes)
open Text (Found)

def itemsOf (p : Protected) : List Item := (Cell.ofProtected p).map Cell.item

namespace Item

variable (checker : Ruby.Checker)

/-- The stack behind an item, if the item finds open what it ends. -/
def move (stack : List Opened) (i : Item) : Option (List Opened) :=
  if (i.ends checker).all (stack.head? == some ·) then some (i.beyond checker stack) else none

/-- What an item asks of the stack. -/
def asks (i : Item) : Option Opened × Option Opened := (i.ends checker, i.opens checker)

theorem move_eq_some_iff {stack stack' : List Opened} {i : Item} :
    i.move checker stack = some stack' ↔
      (∀ o, i.ends checker = some o → stack.head? = some o) ∧ i.beyond checker stack = stack' := by
  rw [move, Option.ite_none_right_eq_some, Option.all_eq_true]
  simp only [beq_iff_eq, Option.some.injEq]

end Item

section Recogniser

variable {checker : Ruby.Checker}

theorem foldlM_move_eq_some_iff {stack stack' : List Opened} {items : List Item} :
    items.foldlM (Item.move checker) stack = some stack' ↔
      Matched checker stack items ∧ openedBy checker stack items = stack' := by
  induction items generalizing stack with
  | nil => simp [Matched, openedBy]
  | cons i is ih =>
    rw [List.foldlM_cons, Option.bind_eq_bind, Option.bind_eq_some_iff]
    simp only [Item.move_eq_some_iff, Matched, openedBy, List.foldl_cons] at ih ⊢
    constructor
    · rintro ⟨stack₁, ⟨hends, rfl⟩, hrest⟩
      exact ⟨⟨hends, (ih.1 hrest).1⟩, (ih.1 hrest).2⟩
    · rintro ⟨⟨hends, hrest⟩, hopen⟩
      exact ⟨_, ⟨hends, rfl⟩, ih.2 ⟨hrest, hopen⟩⟩

theorem foldlM_ofText (stack : List Opened) (s : List Char) :
    ((Cell.ofText s).map Cell.item).foldlM (Item.move checker) stack = some stack := by
  rw [Cell.ofText]
  induction Text.wordItems s with
  | nil => rfl
  | cons p ps ih => exact ih

theorem move_code {text : List Char} {tag : Erb.Tag} (ht : Erb.Tag.split? text = some tag)
    (n : Name) (stack : List Opened) :
    (Item.code n text).move checker stack = (Demand.code tag).move checker stack := by
  simp only [Item.move, Item.ends, Item.beyond, Item.around, Item.opens, ht, Option.bind_some,
    Demand.move]
  cases Ruby.classify checker tag.code with
  | standalone | blockOpen => rfl
  | close | elseLike => rcases stack with _ | ⟨_ | _, stack⟩ <;> simp [closes]

theorem move_opening (stack : List Opened) (text name attrs : List Char) (closing : Closing) :
    (Item.token (.opening text name attrs closing)).move checker stack =
      (Demand.opening name closing).move checker stack := by
  simp only [Item.move, Item.ends, Item.beyond, Item.around, Item.opens, Demand.move]
  cases Element.isSelfClosing name closing <;> rfl

theorem move_close (stack : List Opened) (name : List Char) {i : Item}
    (hends : i.ends checker = some (.element name)) (hopens : i.opens checker = none) :
    i.move checker stack = (Demand.close name).move checker stack := by
  simp only [Item.move, Item.beyond, Item.around, hends, hopens, Demand.move]
  rcases stack with _ | ⟨_ | _, stack⟩ <;> simp

/-- The demands of a gap are those of its items. -/
theorem pushdown_ofFound {fs : List (Found (Name × List Char))}
    (hfs : ∀ e, Found.value e ∈ fs → ∃ tag, Erb.Tag.split? e.2 = some tag) (stack : List Opened)
    (offset : Nat) (cur : List Char) :
    pushdown checker stack (Demand.ofFound offset fs) =
      ((Cell.ofFound cur fs).map Cell.item).foldlM (Item.move checker) stack := by
  induction fs generalizing stack offset cur with
  | nil => exact (foldlM_ofText stack _).symm
  | cons f fs ih =>
    have hrest : ∀ e, Found.value e ∈ fs → ∃ tag, Erb.Tag.split? e.2 = some tag :=
      fun e he => hfs e (List.mem_cons_of_mem f he)
    cases f with
    | char c => exact ih hrest stack _ _
    | value e =>
      obtain ⟨tag, ht⟩ := hfs e List.mem_cons_self
      rw [Demand.ofFound, ht, Cell.ofFound, List.map_append, List.map_cons, List.foldlM_append,
        foldlM_ofText, Option.map_some, Option.toList_some, List.singleton_append, pushdown,
        List.foldlM_cons]
      change _ = List.foldlM (Item.move checker) stack (.code e.1 e.2 :: _)
      rw [List.foldlM_cons, move_code ht]
      exact Option.bind_congr fun stack' _ => ih hrest stack' _ _

theorem pushdown_ofPiece {table : Table}
    (htags : ∀ e ∈ table.codeTags, ∃ tag, Erb.Tag.split? e.2 = some tag) {p : Piece}
    (hp : CleanPiece p) (stack : List Opened) (offset : Nat) (apart : Bool) :
    pushdown checker stack (Demand.ofPiece table offset p) =
      ((Cell.ofPieces table apart [p]).map Cell.item).foldlM (Item.move checker) stack := by
  cases p with
  | gap text =>
    rw [Demand.ofPiece, Demand.ofGap, hp.1, hp.2, Cell.ofPieces, Cell.ofPieces, List.append_nil]
    exact pushdown_ofFound (fun e he => htags e (mem_of_mem_scan he)) stack offset []
  | rawText name content closeTag =>
    rw [Demand.ofPiece, Cell.ofPieces, Cell.ofRawText]
    cases closeTag.isEmpty with
    | true => rfl
    | false => exact congrArg (· >>= pure) (move_close stack name rfl rfl).symm
  | token t =>
    cases t with
    | comment text => rfl
    | close text name => exact congrArg (· >>= pure) (move_close stack name rfl rfl).symm
    | opening text name attrs closing =>
      exact congrArg (· >>= pure) (move_opening stack text name attrs closing).symm

theorem pushdown_ofPieces {table : Table}
    (htags : ∀ e ∈ table.codeTags, ∃ tag, Erb.Tag.split? e.2 = some tag) {ps : List Piece}
    (hps : ∀ p ∈ ps, CleanPiece p) (stack : List Opened) (offset : Nat) (apart : Bool) :
    pushdown checker stack (Demand.ofPieces table offset ps) =
      ((Cell.ofPieces table apart ps).map Cell.item).foldlM (Item.move checker) stack := by
  induction ps generalizing stack offset apart with
  | nil => rfl
  | cons p ps ih =>
    obtain ⟨apart', hcells⟩ : ∃ apart', Cell.ofPieces table apart (p :: ps) =
        Cell.ofPieces table apart [p] ++ Cell.ofPieces table apart' ps := by
      cases p with
      | gap text => exact ⟨Text.endsBlank text, by simp [Cell.ofPieces]⟩
      | token t => exact ⟨false, by simp [Cell.ofPieces]⟩
      | rawText name content closeTag => exact ⟨false, by simp [Cell.ofPieces]⟩
    have hp : pushdown checker stack (Demand.ofPiece table offset p) =
        ((Cell.ofPieces table apart [p]).map Cell.item).foldlM (Item.move checker) stack :=
      pushdown_ofPiece htags (hps p List.mem_cons_self) stack offset apart
    rw [pushdown] at hp
    rw [Demand.ofPieces, hcells, List.map_append, List.foldlM_append, ← hp, pushdown,
      List.foldlM_append]
    exact Option.bind_congr fun stack' _ =>
      ih (fun q hq => hps q (List.mem_cons_of_mem p hq)) stack' _ _

end Recogniser

/-- A template is accepted when it has no lexical faults, each item finds open what it ends, and
nothing is left open. -/
theorem accepted_iff (style : Style) (names : Names) (source : List Char)
    (h : Total style.reformatter) :
    let p := protect names source
    (∃ t, format style names source = .ok t) ↔ (∀ x ∈ Piece.cut p.working, CleanPiece x) ∧
      Matched style.checker [] (itemsOf p) ∧ openedBy style.checker [] (itemsOf p) = [] := by
  intro p
  have hagree := Job.run_agrees style names source h
  have hverdict : (∃ t, format style names source = .ok t) ↔
      ∃ stack, verdict style.checker p = .ok stack := by
    cases hv : verdict style.checker p with
    | ok stack =>
      obtain ⟨r, hr, -⟩ : Agrees _ (.ok stack) := hv ▸ hagree
      simp [format, report, hr]
    | error v =>
      obtain ⟨r, hr, -⟩ : Agrees _ (.error v) := hv ▸ hagree
      simp [format, report, hr]
  have htags : ∀ e ∈ p.table.codeTags, ∃ tag, Erb.Tag.split? e.2 = some tag :=
    fun e he => split?_of_mem_codeTags he
  rw [hverdict, verdict_ok_iff, ← foldlM_move_eq_some_iff]
  constructor
  · rintro ⟨hgaps, hnames, hnested⟩
    have hclean := (cleanPieces_iff _).2 ⟨hgaps, hnames⟩
    exact ⟨hclean, (pushdown_ofPieces htags hclean [] 0 false).symm.trans hnested⟩
  · rintro ⟨hclean, hnested⟩
    obtain ⟨hgaps, hnames⟩ := (cleanPieces_iff _).1 hclean
    exact ⟨hgaps, hnames, (pushdown_ofPieces htags hclean [] 0 false).trans hnested⟩

section Asks

variable {checker : Ruby.Checker} {items items' : List Item}

theorem beyond_congr {i i' : Item} (h : i.asks checker = i'.asks checker) (stack : List Opened) :
    i.beyond checker stack = i'.beyond checker stack := by
  obtain ⟨hends, hopens⟩ := Prod.mk.inj h
  rw [Item.beyond, Item.beyond, Item.around, Item.around, hends, hopens]

/-- Items that ask the same leave the same open. -/
theorem openedBy_congr (h : items.map (Item.asks checker) = items'.map (Item.asks checker))
    (stack : List Opened) : openedBy checker stack items = openedBy checker stack items' := by
  induction items generalizing items' stack with
  | nil =>
    obtain rfl := List.map_eq_nil_iff.1 h.symm
    rfl
  | cons i is ih =>
    obtain ⟨i', is', rfl, hi, his⟩ := List.map_eq_cons_iff.1 h.symm
    rw [openedBy, List.foldl_cons, openedBy, List.foldl_cons, beyond_congr hi]
    exact ih his.symm _

theorem matched_congr (h : items.map (Item.asks checker) = items'.map (Item.asks checker))
    (stack : List Opened) : Matched checker stack items ↔ Matched checker stack items' := by
  induction items generalizing items' stack with
  | nil =>
    obtain rfl := List.map_eq_nil_iff.1 h.symm
    rfl
  | cons i is ih =>
    obtain ⟨i', is', rfl, hi, his⟩ := List.map_eq_cons_iff.1 h.symm
    have hends : i'.ends checker = i.ends checker := (Prod.mk.inj hi).1
    rw [Matched, Matched, beyond_congr hi, hends, ih his.symm]

/-- How many items open something, and how many end something, is told by how deep the items end. -/
theorem length_openedBy {stack : List Opened} (h : Matched checker stack items) :
    (openedBy checker stack items).length + items.countP (fun i => (i.ends checker).isSome) =
      stack.length + items.countP (fun i => (i.opens checker).isSome) := by
  induction items generalizing stack with
  | nil => rfl
  | cons i is ih =>
    have hrest := ih h.2
    have hstep : (i.beyond checker stack).length + (if (i.ends checker).isSome then 1 else 0) =
        stack.length + (if (i.opens checker).isSome then 1 else 0) := by
      rw [Item.beyond, Item.around]
      cases hends : i.ends checker with
      | none => cases i.opens checker <;> simp
      | some o =>
        obtain ⟨rest, rfl⟩ := List.head?_eq_some_iff.1 (h.1 o hends)
        cases i.opens checker <;> simp
    rw [List.countP_cons, List.countP_cons]
    change (openedBy checker (i.beyond checker stack) is).length + _ = _
    omega

theorem countP_opens (items : List Item) : items.countP (fun i => (i.opens checker).isSome) =
    (items.map (Item.asks checker)).countP (·.2.isSome) := by
  rw [List.countP_map]
  rfl

theorem countP_ends (items : List Item) : items.countP (fun i => (i.ends checker).isSome) =
    (items.map (Item.asks checker)).countP (·.1.isSome) := by
  rw [List.countP_map]
  rfl

end Asks

theorem value_of_mem_ofFound {n : Name} {text : List Char} {apart : Bool} {cur : List Char}
    {fs : List (Found (Name × List Char))} (h : ⟨apart, .code n text⟩ ∈ Cell.ofFound cur fs) :
    Found.value (n, text) ∈ fs := by
  have hwords (s : List Char) : ⟨apart, .code n text⟩ ∉ Cell.ofText s := by simp [Cell.ofText]
  induction fs generalizing cur with
  | nil => exact absurd h (hwords _)
  | cons f fs ih =>
    cases f with
    | char c => exact List.mem_cons_of_mem _ (ih h)
    | value e =>
      rw [Cell.ofFound, List.mem_append, List.mem_cons] at h
      rcases h with h | h | h
      · exact absurd h (hwords _)
      · obtain ⟨rfl, rfl⟩ := Item.code.inj (Cell.mk.inj h).2
        exact List.mem_cons_self
      · exact List.mem_cons_of_mem _ (ih h)

theorem mem_codeTags_of_mem_ofPieces {table : Table} {n : Name} {text : List Char}
    {apart start : Bool} {ps : List Piece}
    (h : ⟨apart, .code n text⟩ ∈ Cell.ofPieces table start ps) : (n, text) ∈ table.codeTags := by
  induction ps generalizing start with
  | nil => simp [Cell.ofPieces] at h
  | cons q ps ih =>
    cases q with
    | gap s =>
      rw [Cell.ofPieces, List.mem_append] at h
      exact h.elim (fun h => mem_of_mem_scan (value_of_mem_ofFound h)) ih
    | token t =>
      rw [Cell.ofPieces, List.mem_cons] at h
      exact h.elim (fun h => by simp at h) ih
    | rawText name content closeTag =>
      rw [Cell.ofPieces, List.mem_append, Cell.ofRawText] at h
      refine h.elim (fun h => ?_) ih
      split at h <;> simp at h

theorem mem_codeTags_of_item {p : Protected} {n : Name} {text : List Char}
    (h : .code n text ∈ itemsOf p) : (n, text) ∈ p.table.codeTags := by
  obtain ⟨⟨apart, i⟩, hc, rfl⟩ := List.mem_map.1 h
  exact mem_codeTags_of_mem_ofPieces hc

end ErbLayout.Template
