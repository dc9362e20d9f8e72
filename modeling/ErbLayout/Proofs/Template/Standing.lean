import ErbLayout.Proofs.Template.Balance
import ErbLayout.Proofs.Template.Stretches
/-!
What is open around the items of a template, and what each of them is written as there, whatever
reformats its code. An item that closes or continues something stands outside of it.
-/

namespace ErbLayout.Template

open Layout Markup Placeholder
open Text (Framed spread allBlank endsBlank)
open Job (closes codeFrom codeGiven inlineClosing openText)

namespace Item

/-- What an item ends, which has to be the innermost thing open. -/
def ends (checker : Ruby.Checker) : Item → Option Opened
  | .token (.close _ name) => some (.element name)
  | .rawClose name _ => some (.element name)
  | .code _ text =>
    (Erb.Tag.split? text).bind fun tag =>
      if closes (Ruby.classify checker tag.code) then some .block else none
  | _ => none

/-- What an item opens. What continues a block ends it and opens another. -/
def opens (checker : Ruby.Checker) : Item → Option Opened
  | .token (.opening _ name _ closing) =>
    if Element.isSelfClosing name closing then none else some (.element name)
  | .code _ text =>
    (Erb.Tag.split? text).bind fun tag =>
      match Ruby.classify checker tag.code with
      | .blockOpen | .elseLike => some .block
      | _ => none
  | _ => none

/-- Only open tags open elements. -/
theorem opening_of_opens {checker : Ruby.Checker} {i : Item} {name : List Char}
    (h : i.opens checker = some (.element name)) :
    ∃ text attrs closing, i = .token (.opening text name attrs closing) := by
  cases i with
  | word w | body b | rawClose m closeTag => simp [opens] at h
  | code n text =>
    obtain ⟨tag, -, hkind⟩ := Option.bind_eq_some_iff.1 h
    split at hkind <;> simp at hkind
  | token t =>
    cases t with
    | comment text | close text m => simp [opens] at h
    | opening text m attrs closing =>
      rw [opens] at h
      split at h
      · simp at h
      · obtain rfl := Opened.element.inj (Option.some.inj h)
        exact ⟨text, attrs, closing, rfl⟩

/-- Only what continues a block ends something and opens something. -/
theorem ends_eq_block {checker : Ruby.Checker} {i : Item} {o o' : Opened}
    (h : i.ends checker = some o) (h' : i.opens checker = some o') : o = .block := by
  cases i with
  | word w | body b => simp [ends] at h
  | rawClose name closeTag => simp [opens] at h'
  | token t =>
    cases t with
    | comment text | opening text name attrs closing => simp [ends] at h
    | close text name => simp [opens] at h'
  | code n text =>
    obtain ⟨tag, -, htag⟩ := Option.bind_eq_some_iff.1 h
    split at htag
    · exact (Option.some.inj htag).symm
    · simp at htag

/-- What is open around an item, the innermost first. -/
def around (checker : Ruby.Checker) (stack : List Opened) (i : Item) : List Opened :=
  if (i.ends checker).isSome then stack.tail else stack

/-- What is open behind an item. -/
def beyond (checker : Ruby.Checker) (stack : List Opened) (i : Item) : List Opened :=
  (i.opens checker).toList ++ i.around checker stack

end Item

/-- What is open behind items. -/
def openedBy (checker : Ruby.Checker) (stack : List Opened) (items : List Item) : List Opened :=
  items.foldl (Item.beyond checker) stack

/-- Every item finds open what it ends. -/
def Matched (checker : Ruby.Checker) : List Opened → List Item → Prop
  | _, [] => True
  | stack, i :: is =>
    (∀ o, i.ends checker = some o → stack.head? = some o) ∧
      Matched checker (i.beyond checker stack) is

/-- The cells, each with what is open around it. -/
def surround (checker : Ruby.Checker) : List Opened → List Cell → List (List Opened × Cell)
  | _, [] => []
  | stack, c :: cs =>
    (c.item.around checker stack, c) :: surround checker (c.item.beyond checker stack) cs

section Surround

variable (checker : Ruby.Checker)

theorem openedBy_append (stack : List Opened) (is is' : List Item) :
    openedBy checker stack (is ++ is') = openedBy checker (openedBy checker stack is) is' :=
  List.foldl_append

theorem matched_append (stack : List Opened) (is is' : List Item) :
    Matched checker stack (is ++ is') ↔
      Matched checker stack is ∧ Matched checker (openedBy checker stack is) is' := by
  induction is generalizing stack with
  | nil => simp [Matched, openedBy]
  | cons i is ih =>
    rw [List.cons_append, Matched, Matched, ih, and_assoc]
    rfl

theorem surround_append (stack : List Opened) (cs cs' : List Cell) :
    surround checker stack (cs ++ cs') = surround checker stack cs ++
      surround checker (openedBy checker stack (cs.map Cell.item)) cs' := by
  induction cs generalizing stack with
  | nil => rfl
  | cons c cs ih => exact congrArg _ (ih _)

theorem surround_snd (stack : List Opened) (cs : List Cell) :
    (surround checker stack cs).map Prod.snd = cs := by
  induction cs generalizing stack with
  | nil => rfl
  | cons c cs ih => exact congrArg _ (ih _)

/-- Words stand where they are and open nothing. -/
theorem surround_ofText (stack : List Opened) (s : List Char) :
    surround checker stack (Cell.ofText s) = (Cell.ofText s).map (stack, ·) ∧
      openedBy checker stack ((Cell.ofText s).map Cell.item) = stack ∧
      Matched checker stack ((Cell.ofText s).map Cell.item) := by
  unfold Cell.ofText
  induction Text.wordItems s with
  | nil => exact ⟨rfl, rfl, trivial⟩
  | cons p ps ih => exact ⟨congrArg _ ih.1, ih.2.1, by simp [Item.ends], ih.2.2⟩

end Surround

/-- What the code of a tag at a depth comes out as: code that ends or continues a block is left as
it is. -/
def Recoded (style : Style) (depth : Nat) (code out : List Char) : Prop :=
  if closes (Ruby.classify style.checker code) then out = code
  else ∃ result, (style.reformatter (codeGiven style.checker code)
    (style.width - (2 * depth : Nat))).result = .ok result ∧
      out = codeFrom style.checker code result

/-- What an item is written as at a depth. -/
inductive Typeset (j : Job) (depth : Nat) : Item → List Char → Prop
  | word (w : List Char) : Typeset j depth (.word w) w
  | code {n : Name} {text code : List Char} {tag : Erb.Tag} :
      Erb.Tag.split? text = some tag → Recoded j.style depth tag.code code →
      Typeset j depth (.code n text)
        (Erb.Tag.build tag.opener.text code tag.closer.text (Nesting.indentOf depth))
  | comment (text : List Char) : Typeset j depth (.token (.comment text)) text
  | close (text name : List Char) :
      Typeset j depth (.token (.close text name)) ('<' :: '/' :: name ++ ['>'])
  | opening (text name attrs : List Char) (closing : Closing) (column : Nat) :
      Typeset j depth (.token (.opening text name attrs closing))
        (openText depth name (AttributeLayout.of j.len j.width depth column name attrs
          (inlineClosing closing)) closing)
  | body (text : List Char) : Typeset j depth (.body text) text
  | rawClose (name closeTag : List Char) :
      Typeset j depth (.rawClose name closeTag) ('<' :: '/' :: name ++ ['>'])

/-- The white space before an item at a depth: none, a space, or a line break with the indentation
of the depth behind it. -/
inductive Margin (depth : Nat) : List Char → Prop
  | none : Margin depth []
  | space : Margin depth [' ']
  | line {g : List Char} : allBlank g = true → Margin depth (g ++ '\n' :: Nesting.indentOf depth)

theorem Margin.blank {depth : Nat} {g : List Char} (h : Margin depth g) : allBlank g = true := by
  cases h with
  | none => rfl
  | space => rfl
  | line hg =>
    rw [Text.allBlank_append, hg, Bool.true_and]
    exact lineBreak_allBlank depth

/-- White space of spaces and line feeds alone. -/
def Plain (g : List Char) : Prop := ∀ c ∈ g, c = ' ' ∨ c = '\n'

theorem plain_nil : Plain [] := by simp [Plain]

theorem plain_space : Plain [' '] := by simp [Plain]

theorem plain_line {g : List Char} (hg : Plain g) (depth : Nat) :
    Plain (g ++ '\n' :: Nesting.indentOf depth) := by
  intro c hc
  rw [List.mem_append, List.mem_cons] at hc
  rcases hc with hc | rfl | hc
  · exact hg c hc
  · exact .inr rfl
  · exact .inl (List.eq_of_mem_replicate hc)

theorem Plain.blank {g : List Char} (h : Plain g) : allBlank g = true := by
  rw [allBlank, List.all_eq_true]
  intro c hc
  rcases h c hc with rfl | rfl <;> decide

/-- A stretch of the output for a cell with something open around it. -/
structure Lain (j : Job) (sc : List Opened × Cell) (p : List Char × List Char) : Prop where
  typeset : Typeset j sc.1.length sc.2.item p.2
  margin : Margin sc.1.length p.1
  plain : Plain p.1
  flush : sc.2.item.isBody = true → p.1 = []

/-- A stretch that white space stands before if it is to. -/
structure Lies (j : Job) (sc : List Opened × Cell) (p : List Char × List Char) : Prop
    extends Lain j sc p where
  apart : sc.2.apart = true → p.1 ≠ []

/-- A stretch behind an item, if it is not the first: white space stands before it where the rule
has it, and a space alone only between words. -/
structure Parted (checker : Ruby.Checker) (pc : Option Item × Cell) (p : List Char × List Char) :
    Prop where
  apart : ∀ prev, pc.1 = some prev → (p.1 ≠ [] ↔ separated checker prev pc.2 = true)
  space : p.1 = [' '] → (∃ prev, pc.1 = some prev ∧ prev.isWord = true) ∧ pc.2.item.isWord = true

variable {j : Job}

/-- What is no code is written alike whatever reformats the code. -/
theorem Typeset.written_of_not_code {depth : Nat} {i : Item} {x : List Char}
    (h : Typeset j depth i x) (hcode : ∀ n text, i ≠ .code n text) : Written j i x := by
  cases h with
  | word => exact .word _
  | body => exact .body _
  | comment => exact .comment _
  | close text name => exact .close text name
  | rawClose name closeTag => exact .rawClose name closeTag
  | opening text name attrs closing column => exact .opening text name attrs closing depth column
  | code ht hout => exact absurd rfl (hcode _ _)

/-- Where the code is left as it is, this is what the item is written as. -/
theorem Typeset.written (hp : j.style.reformatter = Ruby.passThrough) {depth : Nat} {i : Item}
    {x : List Char} (h : Typeset j depth i x) : Written j i x := by
  by_cases hcode : ∃ n text, i = .code n text
  · obtain ⟨n, text, rfl⟩ := hcode
    cases h with
    | @code _ _ code tag ht hout =>
      have hlaid : code = laidCode j.style.checker tag.code := by
        rw [Recoded] at hout
        rw [laidCode]
        split at hout
        · rename_i hcloses
          rw [if_pos hcloses, hout]
        · rename_i hcloses
          obtain ⟨result, hresult, rfl⟩ := hout
          rw [hp] at hresult
          rw [if_neg hcloses, Except.ok.inj hresult]
      exact hlaid ▸ .code ht (indentOf_allBlank depth)
  · exact h.written_of_not_code fun n text hi => hcode ⟨n, text, hi⟩

theorem framed_of_typeset {t : Table} {depth : Nat} {i : Item} {x : List Char}
    (h : Typeset j depth i x) (hs : i.Sound t) (hfirm : i.isFirm = true) : Framed x := by
  by_cases hcode : ∃ n text, i = .code n text
  · obtain ⟨n, text, rfl⟩ := hcode
    cases h with
    | code ht hout => exact framed_build _ _ _ _
  · exact framed_of_written (h.written_of_not_code fun n text hi => hcode ⟨n, text, hi⟩) hs hfirm

theorem tight_of_typeset {t : Table} {depth : Nat} {i : Item} {x : List Char}
    (h : Typeset j depth i x) (hs : i.Sound t) (hbody : i.isBody = false) :
    Tight (t.restore x) := by
  cases hfirm : i.isFirm with
  | true => exact tight_of_framed (Table.framed_restore (framed_of_typeset h hs hfirm))
  | false =>
    cases i with
    | word w =>
      cases h
      exact tight_of_word hs.2
    | body b => simp [Item.isBody] at hbody
    | code n text | token tok | rawClose name closeTag => simp [Item.isFirm] at hfirm

theorem blank_of_lies {scs : List (List Opened × Cell)} {ps : List (List Char × List Char)}
    (h : List.Forall₂ (Lies j) scs ps) : ∀ p ∈ ps, allBlank p.1 = true := by
  induction h with
  | nil => simp
  | cons hp _ ih => exact List.forall_mem_cons.2 ⟨hp.margin.blank, ih⟩

/-- There are seams between the stretches for cells that join. -/
theorem seams_of_lies {t : Table} {checker : Ruby.Checker} {stack : List Opened}
    {cells : List Cell} (hs : ∀ c ∈ cells, c.item.Sound t) (hjoins : cells.IsChain Cell.Joins)
    {ps : List (List Char × List Char)}
    (h : List.Forall₂ (Lies j) (surround checker stack cells) ps) : ps.IsChain (Seamed t) := by
  have hfollow : List.Forall₂ (fun pc p => ∃ stack, Lies j (stack, pc.2) p)
      (follow none cells) ps := by
    generalize (none : Option Item) = prev
    induction cells generalizing stack prev ps with
    | nil =>
      cases h
      exact .nil
    | cons c cs ih =>
      cases h with
      | cons hp hps =>
        exact .cons ⟨_, hp⟩ (ih (fun c hc => hs c (List.mem_cons_of_mem _ hc))
          (List.isChain_cons.1 hjoins).2 hps _)
  refine seams_of_follow (fun pc p hp hsound hfirm => ?_) (fun i c p hp hc => ?_) hs hjoins hfollow
  · obtain ⟨stack, hp⟩ := hp
    have hf := framed_of_typeset hp.typeset hsound hfirm
    exact ⟨begins_of_framed hf, ends_of_framed hf⟩
  · obtain ⟨stack, hp⟩ := hp
    exact hp.apart hc

end ErbLayout.Template
