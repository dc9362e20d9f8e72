import ErbLayout.Proofs.Layout.Sheet
import ErbLayout.Proofs.Template.Items
import ErbLayout.Proofs.Template.Steps
/-!
What the items of a template are written as, and where white space stands between them. Between two
of them there is a seam, so a text of items is restored item by item.
-/

namespace ErbLayout.Template

open Layout Markup Placeholder
open Text (Found Framed Reads Stands Word spread allBlank startsBlank endsBlank)
open Job (closes codeFrom codeGiven inlineClosing openText)

/-- Whether white space is to stand before a cell that follows an item. -/
def separated (checker : Ruby.Checker) (prev : Item) (c : Cell) : Bool :=
  c.apart || prev.isControl checker || c.item.isControl checker ||
    (prev.isStructural && c.item.isStructural && (prev.isBlockLevel || c.item.isBlockLevel))

/-- The code of a fragment after a layout that leaves whole code as it is. -/
def laidCode (checker : Ruby.Checker) (code : List Char) : List Char :=
  if closes (Ruby.classify checker code) then code
  else codeFrom checker code (codeGiven checker code)

/-- What an item is written as. -/
inductive Written (j : Job) : Item → List Char → Prop
  | word (w : List Char) : Written j (.word w) w
  | code {n : Name} {text : List Char} {tag : Erb.Tag} {indent : List Char} :
      Erb.Tag.split? text = some tag → allBlank indent = true →
      Written j (.code n text) (Erb.Tag.build tag.opener.text
        (laidCode j.style.checker tag.code) tag.closer.text indent)
  | comment (text : List Char) : Written j (.token (.comment text)) text
  | close (text name : List Char) :
      Written j (.token (.close text name)) ('<' :: '/' :: name ++ ['>'])
  | opening (text name attrs : List Char) (closing : Closing) (depth column : Nat) :
      Written j (.token (.opening text name attrs closing))
        (openText depth name (AttributeLayout.of j.len j.width depth column name attrs
          (inlineClosing closing)) closing)
  | body (text : List Char) : Written j (.body text) text
  | rawClose (name closeTag : List Char) :
      Written j (.rawClose name closeTag) ('<' :: '/' :: name ++ ['>'])

/-- The last of the cells, or what was before them. -/
def lastItem : Option Item → List Cell → Option Item
  | prev, [] => prev
  | _, c :: cs => lastItem (some c.item) cs

/-- The cells, each behind the item before it. -/
def follow : Option Item → List Cell → List (Option Item × Cell)
  | _, [] => []
  | prev, c :: cs => (prev, c) :: follow (some c.item) cs

@[simp] theorem lastItem_append (prev : Option Item) (cs ds : List Cell) :
    lastItem prev (cs ++ ds) = lastItem (lastItem prev cs) ds := by
  induction cs generalizing prev with
  | nil => rfl
  | cons c cs ih => exact ih _

theorem follow_append (prev : Option Item) (cs ds : List Cell) :
    follow prev (cs ++ ds) = follow prev cs ++ follow (lastItem prev cs) ds := by
  induction cs generalizing prev with
  | nil => rfl
  | cons c cs ih => exact congrArg _ (ih _)

/-- A stretch of the output for a cell: the first cell may have white space before it or not. -/
structure Placed (j : Job) (pc : Option Item × Cell) (p : List Char × List Char) : Prop where
  written : Written j pc.2.item p.2
  blank : allBlank p.1 = true
  apart : ∀ prev, pc.1 = some prev → (p.1 ≠ [] ↔ separated j.style.checker prev pc.2 = true)

def Laid (j : Job) (cells : List Cell) (ps : List (List Char × List Char)) : Prop :=
  List.Forall₂ (Placed j) (follow none cells) ps

variable {j : Job}

theorem Laid.regapped {cells : List Cell} {ps ps' : List (List Char × List Char)}
    (h : Laid j cells ps) (hr : Regapped ps ps') : Laid j cells ps' := by
  unfold Laid at h ⊢
  unfold Regapped at hr
  generalize follow none cells = pcs at h ⊢
  induction h generalizing ps' with
  | nil =>
    cases hr
    exact .nil
  | cons hp _ ih =>
    cases hr with
    | cons hq hqs =>
      refine .cons ⟨hq.1 ▸ hp.written, ?_, ?_⟩ (ih hqs)
      · rcases hq.2 with he | ⟨-, -, hb⟩
        · exact he ▸ hp.blank
        · exact hb
      · intro prev hprev
        rw [← hp.apart prev hprev]
        rcases hq.2 with he | ⟨hne, hne', -⟩
        · rw [he]
        · exact ⟨fun _ => hne, fun _ => hne'⟩

theorem Laid.append {cells cells' : List Cell} {ps ps' : List (List Char × List Char)}
    (h : Laid j cells ps)
    (h' : List.Forall₂ (Placed j) (follow (lastItem none cells) cells') ps') :
    Laid j (cells ++ cells') (ps ++ ps') := by
  rw [Laid, follow_append]
  exact List.rel_append h h'

theorem blank_of_placed {pcs : List (Option Item × Cell)} {ps : List (List Char × List Char)}
    (h : List.Forall₂ (Placed j) pcs ps) : ∀ p ∈ ps, allBlank p.1 = true := by
  induction h with
  | nil => simp
  | cons hp _ ih => exact List.forall_mem_cons.2 ⟨hp.blank, ih⟩

theorem framed_between (opener : Erb.Opener) (closer : Erb.Closer) (s : List Char) :
    Framed (opener.text ++ s ++ closer.text) := by
  have ho : ∃ u, opener.text = '<' :: u := by cases opener <;> exact ⟨_, rfl⟩
  have hc : ∃ u, closer.text = u ++ ['>'] := by
    cases closer
    · exact ⟨['%'], rfl⟩
    · exact ⟨['-', '%'], rfl⟩
  obtain ⟨u, hu⟩ := ho
  obtain ⟨v, hv⟩ := hc
  exact ⟨u ++ s ++ v, by simp [hu, hv]⟩

theorem framed_build (opener : Erb.Opener) (code : List Char) (closer : Erb.Closer)
    (indent : List Char) : Framed (Erb.Tag.build opener.text code closer.text indent) := by
  unfold Erb.Tag.build
  split
  · simpa using framed_between opener closer [' ']
  · split
    · simpa using framed_between opener closer [' ']
    · rename_i first rest _
      dsimp only
      generalize Text.joinLines _ = lines
      generalize (if first.head? = some '#' then ([] : List Char) else [' ']) = separator
      simpa using framed_between opener closer (separator ++ lines ++ [' '])

theorem framed_openText (depth : Nat) (name : List Char) (layout : AttributeLayout)
    (closing : Closing) : Framed (openText depth name layout closing) := by
  unfold openText
  split
  · cases closing with
    | plain => exact ⟨name ++ layout.text depth, by simp [Closing.text]⟩
    | slash => exact ⟨name ++ layout.text depth ++ ['/'], by simp [Closing.text]⟩
  · cases closing with
    | plain => exact ⟨name ++ layout.text depth, by simp [inlineClosing]⟩
    | slash => exact ⟨name ++ layout.text depth ++ [' ', '/'], by simp [inlineClosing]⟩

theorem framed_closeText (name : List Char) : Framed ('<' :: '/' :: name ++ ['>']) :=
  ⟨'/' :: name, rfl⟩

theorem begins_of_framed {t : Table} {s : List Char} (h : Framed s) : t.Begins s := by
  obtain ⟨u, rfl⟩ := h
  exact .inl ⟨'<', u ++ ['>'], rfl, by decide⟩

theorem ends_of_framed {t : Table} {s : List Char} (h : Framed s) : t.Ends s := by
  obtain ⟨u, rfl⟩ := h
  exact .inl ⟨'<' :: u, '>', rfl, by decide⟩

theorem begins_append {t : Table} {s : List Char} (h : t.Begins s) (s' : List Char) :
    t.Begins (s ++ s') := by
  rcases h with ⟨c, r, rfl, hc⟩ | ⟨e, he, hp⟩
  · exact .inl ⟨c, r ++ s', rfl, hc⟩
  · exact .inr ⟨e, he, hp.trans (List.prefix_append s s')⟩

theorem ends_append {t : Table} {s : List Char} (h : t.Ends s) (s' : List Char) :
    t.Ends (s' ++ s) := by
  rcases h with ⟨r, c, rfl, hc⟩ | ⟨e, he, hp⟩
  · exact .inl ⟨s' ++ r, c, (List.append_assoc s' r [c]).symm, hc⟩
  · exact .inr ⟨e, he, hp.trans (List.suffix_append s' s)⟩

theorem begins_of_blank {t : Table} {g : List Char} (h : allBlank g = true) (hne : g ≠ []) :
    t.Begins g := by
  cases g with
  | nil => exact absurd rfl hne
  | cons c g =>
    simp only [allBlank, List.all_cons, Bool.and_eq_true] at h
    exact .inl ⟨c, g, rfl, isNameChar_of_isBlank h.1⟩

/-- A seam between two stretches. -/
def Seamed (t : Table) (p q : List Char × List Char) : Prop :=
  t.Ends p.2 ∨ q.1 ≠ [] ∨ t.Begins q.2

def restored (t : Table) (p : List Char × List Char) : List Char × List Char :=
  (p.1, t.restore p.2)

/-- What stands behind the first of stretches with seams between them. -/
theorem seamed_spread {t : Table} {p : List Char × List Char} {ps : List (List Char × List Char)}
    {tail : List Char} (hblank : ∀ q ∈ ps, allBlank q.1 = true) (htail : allBlank tail = true)
    (hseams : (p :: ps).IsChain (Seamed t)) :
    spread ps ++ tail = [] ∨ t.Ends p.2 ∨ t.Begins (spread ps ++ tail) := by
  cases ps with
  | nil =>
    by_cases hnil : tail = []
    · exact .inl hnil
    · exact .inr (.inr (begins_of_blank htail hnil))
  | cons q qs =>
    obtain ⟨hpq, -⟩ := List.isChain_cons_cons.1 hseams
    have hbegins (hb : t.Begins (q.1 ++ q.2)) : t.Begins (spread (q :: qs) ++ tail) := by
      rw [Text.spread_cons, List.append_assoc]
      exact begins_append hb _
    have hgap (hne : q.1 ≠ []) : t.Begins (q.1 ++ q.2) :=
      begins_append (begins_of_blank (hblank q List.mem_cons_self) hne) q.2
    rcases hpq with he | hne | hb
    · exact .inr (.inl he)
    · exact .inr (.inr (hbegins (hgap hne)))
    · by_cases hnil : q.1 = []
      · exact .inr (.inr (hbegins (by rw [hnil]; exact hb)))
      · exact .inr (.inr (hbegins (hgap hnil)))

/-- Stretches with seams between them are restored one by one. -/
theorem restore_spread {t : Table} (h : t.Proper) {ps : List (List Char × List Char)}
    {tail : List Char} (hblank : ∀ p ∈ ps, allBlank p.1 = true) (htail : allBlank tail = true)
    (hseams : ps.IsChain (Seamed t)) :
    t.restore (spread ps ++ tail) = spread (ps.map (restored t)) ++ tail := by
  induction ps with
  | nil => simpa using Table.restore_allBlank htail
  | cons p ps ih =>
    have hps : ∀ q ∈ ps, allBlank q.1 = true := fun q hq => hblank q (List.mem_cons_of_mem p hq)
    have hsplit : t.restore (p.2 ++ (spread ps ++ tail)) =
        t.restore p.2 ++ t.restore (spread ps ++ tail) := by
      rcases seamed_spread hps htail hseams with hnil | he | hb
      · rw [hnil, Table.restore_nil, List.append_nil, List.append_nil]
      · exact Table.restore_append_of_ends h he _
      · exact Table.restore_append_of_begins h _ hb
    have hrest := ih hps (List.isChain_cons.1 hseams).2
    rw [Text.spread_cons, List.append_assoc, List.append_assoc,
      Table.restore_allBlank_append (hblank p List.mem_cons_self), hsplit, hrest, List.map_cons,
      Text.spread_cons]
    simp [restored]

theorem framed_of_written {t : Table} {i : Item} {x : List Char} (h : Written j i x)
    (hs : i.Sound t) (hfirm : i.isFirm = true) : Framed x := by
  cases h with
  | word w => simp [Item.isFirm] at hfirm
  | body b => simp [Item.isFirm] at hfirm
  | code ht hindent => exact framed_build _ _ _ _
  | comment text =>
    obtain ⟨s, hr⟩ := hs
    exact Token.readAny_framed hr
  | close text name => exact framed_closeText name
  | opening text name attrs closing depth column => exact framed_openText _ _ _ _
  | rawClose name closeTag => exact framed_closeText name

theorem framed_readCloseOf {name s closeTag : List Char} {n : Nat}
    (h : Piece.readCloseOf name s = some (closeTag, n)) : Framed closeTag := by
  obtain ⟨before, spelled, after, rfl, -⟩ := Piece.readCloseOf_eq_some h
  exact ⟨'/' :: before ++ spelled ++ after, by simp⟩

/-- How the close tags of raw text may be spelled: as tags. -/
def Spelling.Framing (spelling : Spelling) : Prop :=
  ∀ name closeTag, Framed closeTag → Framed (spelling name closeTag)

theorem framing_asWritten : asWritten.Framing := fun _ _ h => h

theorem framing_asOpened : asOpened.Framing := fun name _ _ => framed_closeText name

theorem seams_of_firm {t : Table} {spelling : Spelling} (hspelling : spelling.Framing) {i : Item}
    (hs : i.Sound t) (hfirm : i.isFirm = true) :
    t.Begins (i.textBy spelling) ∧ t.Ends (i.textBy spelling) := by
  cases i with
  | word w | body b => simp [Item.isFirm] at hfirm
  | code n text => exact ⟨.inr ⟨_, hs, List.prefix_rfl⟩, .inr ⟨_, hs, List.suffix_rfl⟩⟩
  | token tok =>
    obtain ⟨s, hr⟩ := hs
    have hf := Token.readAny_framed hr
    exact ⟨begins_of_framed hf, ends_of_framed hf⟩
  | rawClose name closeTag =>
    obtain ⟨-, s, n, hr⟩ := hs
    have hf := hspelling name closeTag (framed_readCloseOf hr)
    exact ⟨begins_of_framed hf, ends_of_framed hf⟩

/-- There are seams between stretches for cells that join, when each firm item begins and ends at
one and white space stands before the cells that are to stand apart. -/
theorem seams_of_follow {R : Option Item × Cell → List Char × List Char → Prop} {t : Table}
    (hfirm : ∀ pc p, R pc p → pc.2.item.Sound t → pc.2.item.isFirm = true →
      t.Begins p.2 ∧ t.Ends p.2)
    (hapart : ∀ i c p, R (some i, c) p → c.apart = true → p.1 ≠ [])
    {cells : List Cell} (hs : ∀ c ∈ cells, c.item.Sound t) (hjoins : cells.IsChain Cell.Joins)
    {prev : Option Item} {ps : List (List Char × List Char)}
    (h : List.Forall₂ R (follow prev cells) ps) : ps.IsChain (Seamed t) := by
  induction cells generalizing prev ps with
  | nil =>
    cases h
    exact .nil
  | cons c cs ih =>
    cases h with
    | cons hp hps =>
      rw [List.isChain_cons]
      refine ⟨fun q hq => ?_, ih (fun c hc => hs c (List.mem_cons_of_mem _ hc))
        (List.isChain_cons.1 hjoins).2 hps⟩
      cases cs with
      | nil =>
        cases hps
        simp at hq
      | cons c' cs =>
        cases hps with
        | cons hp' hps' =>
          obtain rfl : _ = q := by simpa using hq
          rcases (List.isChain_cons_cons.1 hjoins).1 with hc | hc | hc
          · exact .inl (hfirm _ _ hp (hs c List.mem_cons_self) hc).2
          · exact .inr (.inl (hapart _ _ _ hp' hc))
          · exact .inr (.inr (hfirm _ _ hp' (hs c' (by simp)) hc).1)

theorem seams_of_placed {t : Table} {cells : List Cell} (hs : ∀ c ∈ cells, c.item.Sound t)
    (hjoins : cells.IsChain Cell.Joins) {ps : List (List Char × List Char)}
    (h : List.Forall₂ (Placed j) (follow none cells) ps) : ps.IsChain (Seamed t) := by
  refine seams_of_follow (fun pc p hp hsound hfirm => ?_) (fun i c p hp hc => ?_) hs hjoins h
  · have hf := framed_of_written hp.written hsound hfirm
    exact ⟨begins_of_framed hf, ends_of_framed hf⟩
  · rw [hp.apart i rfl]
    simp [separated, hc]

theorem follow_snd (prev : Option Item) (cells : List Cell) :
    (follow prev cells).map Prod.snd = cells := by
  induction cells generalizing prev with
  | nil => rfl
  | cons c cs ih => exact congrArg _ (ih _)

theorem seams_of_stands {t : Table} {spelling : Spelling} (hspelling : spelling.Framing)
    {cells : List Cell} (hs : ∀ c ∈ cells, c.item.Sound t) (hjoins : cells.IsChain Cell.Joins)
    {ps : List (List Char × List Char)}
    (h : List.Forall₂ Stands (cells.map (Cell.entry spelling)) ps) : ps.IsChain (Seamed t) := by
  have hfollow : List.Forall₂ (fun pc p => Stands (Cell.entry spelling pc.2) p)
      (follow none cells) ps := by
    rw [← follow_snd none cells, List.map_map, List.forall₂_map_left_iff] at h
    exact h
  refine seams_of_follow (fun pc p hp hsound hfirm => ?_) (fun i c p hp hc => ?_) hs hjoins hfollow
  · rw [hp.text]
    exact seams_of_firm hspelling hsound hfirm
  · exact hp.apart.1 hc

end ErbLayout.Template
