import ErbLayout.Proofs.Markup.Pieces
import ErbLayout.Proofs.Placeholder.Redrawn
import ErbLayout.Proofs.Ruby.Renamed
import ErbLayout.Proofs.Template.Faults
import ErbLayout.Proofs.Template.Replay
/-!
One template protected with two sets of names. The runs over both stay side by side, step by step,
and if one stops, the other stops for the same reason at the same place.
-/

namespace ErbLayout.Placeholder

open Text (Framed)

variable {α : Type} {g g' : Glossary α} {s s' : List Char}

theorem Like.framed (h : Like s s') (hs : Framed s) : Framed s' := by
  obtain ⟨u, rfl⟩ := hs
  obtain ⟨t, rfl, ht⟩ := h.uncons (by decide)
  obtain ⟨u', v', rfl, -, hv⟩ := ht.split
  exact ⟨u', by rw [hv.eq_of_free (free_of_all (by decide))]; rfl⟩

/-- The glossaries match the texts that are the same and no others. -/
theorem Renamed.eq_iff {t t' : List Char} (hg : g.Distinct) (hg' : g'.Distinct)
    (hs : Renamed g g' s s') (ht : Renamed g g' t t') : s = t ↔ s' = t' := by
  constructor
  · rintro rfl
    rw [(hs.exists_renaming hg hg').1, (ht.exists_renaming hg hg').1]
  · rintro rfl
    rw [(hs.symm.exists_renaming hg' hg).1, (ht.symm.exists_renaming hg' hg).1]

theorem initial_drop {a b w : List Char} {n : Nat} (h : a ++ b <+: w.drop n) :
    b <+: w.drop (n + a.length) := by
  obtain ⟨v, hv⟩ := h
  rw [← List.drop_drop, ← hv, List.append_assoc, List.drop_left]
  exact List.prefix_append b v

end ErbLayout.Placeholder

namespace ErbLayout.Template

open Layout Markup Placeholder
open Job (closes codeFrom codeGiven)
open Text (Found Framed)

variable {α : Type} {g g' : Glossary α}

theorem renamed_blockLabel : Renamed g g' Frame.blockLabel Frame.blockLabel := .of_short (by decide)

theorem Reframed.label {f f' : Frame} (h : Reframed g g' f f') : Renamed g g' f.label f'.label := by
  cases h with
  | element raw hm => exact hm
  | block hcode => exact renamed_blockLabel

theorem renamed_top {n n' : Nesting} (h : List.Forall₂ (Reframed g g') n n') :
    Option.Rel (Renamed g g') (n.top?.map Frame.label) (n'.top?.map Frame.label) := by
  cases h with
  | nil => exact .none
  | cons hf _ => exact .some hf.label

theorem renamed_codeText {tag tag' : Erb.Tag} (h : Erb.Tag.Renamed g g' tag tag') :
    Renamed g g' (Demand.codeText tag) (Demand.codeText tag') := by
  have hopener : Renamed g g' tag.opener.text tag.opener.text := .of_free (free_opener tag.opener)
  have hcloser : Renamed g g' (' ' :: tag.closer.text) (' ' :: tag.closer.text) :=
    .cons (by decide) (.of_free (free_closer tag.closer))
  unfold Demand.codeText
  rw [h.opener, h.closer]
  exact (hopener.append (.cons (by decide) h.code) (.inl (free_opener tag.opener).lastFree)).append
    hcloser (.inr (headFree_cons (by decide) _))

/-- What is wrong, but for the names in it. -/
inductive Cause.Renamed (g g' : Glossary α) : Cause → Cause → Prop
  | spacedAttribute : Renamed g g' .spacedAttribute .spacedAttribute
  | stray (fragment : List Char) : Renamed g g' (.stray fragment) (.stray fragment)
  | unknownTag {name name' : List Char} : Placeholder.Renamed g g' name name' →
    Renamed g g' (.unknownTag name) (.unknownTag name')
  | unmatched {close close' : List Char} {top top' : Option (List Char)} :
    Placeholder.Renamed g g' close close' → Option.Rel (Placeholder.Renamed g g') top top' →
    Renamed g g' (.unmatched close top) (.unmatched close' top')
  | unclosed {label label' : List Char} : Placeholder.Renamed g g' label label' →
    Renamed g g' (.unclosed label) (.unclosed label')

variable {j j' : Job} {r r' : Run} {o : Nat} {s s' : List Char} {P Q : Run → Prop}

abbrev Job.numbering (j : Job) : Glossary Nat := j.table.numbering

abbrev Job.working (j : Job) : List Char := j.protected_.working

/-- Two protections of one template, laid out in one style that does not look at names. -/
structure Counterparts (j j' : Job) : Prop where
  style : j'.style = j.style
  tables : j.table.Matches j'.table
  working : Renamed j.numbering j'.numbering j.working j'.working
  readable : ∀ e ∈ j.table.codeTags, ∃ tag, Erb.Tag.split? e.2 = some tag
  total : Total j.style.reformatter
  checker : j.style.checker.Alike
  reformatter : j.style.reformatter.Alike

/-- Runs side by side with nothing else before them. -/
abbrev InStep (j j' : Job) (r r' : Run) : Prop := Tracks j.numbering j'.numbering [] r r'

/-- Runs that stop side by side, for the same reason and at the same place. -/
inductive Halted (j j' : Job) : Halt → Halt → Prop
  | structural {r r' : Run} {cause cause' : Cause} {o : Nat} : InStep j j' r r' →
    cause.Renamed j.numbering j'.numbering cause' →
    Renamed j.numbering j'.numbering (j.working.take o) (j'.working.take o) →
    Halted j j' ⟨r, .structural cause o⟩ ⟨r', .structural cause' o⟩

/-- Two steps that go on side by side, the first to a run as `P` says, or both stop. -/
inductive Outcome (j j' : Job) (P : Run → Prop) : Step → Step → Prop
  | goes {r r' : Run} : InStep j j' r r' → P r → Outcome j j' P (.ok r) (.ok r')
  | stops {h h' : Halt} : Halted j j' h h' → Outcome j j' P (.error h) (.error h')

namespace Outcome

theorem bind {x x' : Step} {f f' : Run → Step} (hx : Outcome j j' P x x')
    (hf : ∀ r r', InStep j j' r r' → P r → Outcome j j' Q (f r) (f' r')) :
    Outcome j j' Q (x >>= f) (x' >>= f') := by
  cases hx with
  | goes hr hp => exact hf _ _ hr hp
  | stops h => exact .stops h

end Outcome

/-- The closers that code is given to the reformatter with. -/
def closersOf (checker : Ruby.Checker) (code : List Char) : List Char :=
  match Ruby.classify checker code with
  | .blockOpen => Ruby.autocloseSuffix checker code
  | _ => []

theorem codeGiven_eq (checker : Ruby.Checker) (code : List Char) :
    codeGiven checker code = code ++ closersOf checker code := by
  unfold codeGiven closersOf
  cases Ruby.classify checker code <;> rfl

theorem codeFrom_eq (checker : Ruby.Checker) (code result : List Char) :
    codeFrom checker code result =
      (Ruby.ofReformatted code (closersOf checker code) result).1 := by
  unfold codeFrom closersOf
  cases Ruby.classify checker code <;> rfl

theorem closersOf_mem (checker : Ruby.Checker) (code : List Char) :
    closersOf checker code ∈ Ruby.suffixes := by
  unfold closersOf
  split
  · exact Ruby.autocloseSuffix_mem checker code
  · exact List.mem_cons_self

theorem initial_of_drop {w : List Char} {p : Piece} {ps : List Piece}
    (h : w.drop o = (p :: ps).flatMap Piece.text) : p.text <+: w.drop o := by
  rw [h, List.flatMap_cons]
  exact List.prefix_append _ _

theorem drop_behind {w : List Char} {p : Piece} {ps : List Piece}
    (h : w.drop o = (p :: ps).flatMap Piece.text) :
    w.drop (o + p.text.length) = ps.flatMap Piece.text := by
  rw [← List.drop_drop, h, List.flatMap_cons, List.drop_left]

theorem Job.gapFrom_chars (j : Job) (l cur : List Char) (o : Nat)
    (fs : List (Found (Name × List Char))) (r : Run) :
    j.gapFrom cur o (l.map .char ++ fs) r = j.gapFrom (l.reverse ++ cur) (o + l.length) fs r := by
  induction l generalizing cur o with
  | nil => rfl
  | cons c l ih =>
    rw [List.map_cons, List.cons_append, Job.gapFrom, ih]
    simp [Nat.add_assoc, Nat.add_comm 1]

theorem Job.gapFrom_value (j : Job) (cur : List Char) (o : Nat) (e : Name × List Char)
    (fs : List (Found (Name × List Char))) (r : Run) :
    j.gapFrom cur o (.value e :: fs) r =
      j.codeTag (r.text j.len j.width cur.reverse) e.2 o >>=
        fun r => j.gapFrom [] (o + Name.size) fs r := rfl

namespace Counterparts

variable (h : Counterparts j j')
include h

theorem distinct : j.numbering.Distinct := h.tables.apart.distinct_numbering

theorem distinct' : j'.numbering.Distinct := h.tables.apart'.distinct_numbering

theorem restoring : Restoring j.numbering j'.numbering j.table j'.table :=
  fun _ _ hs => h.tables.restore_eq hs

theorem agree : Agree j.numbering j'.numbering j.len j'.len := h.restoring.agree

/-- Before an angle bracket the texts are the same but for their names. -/
theorem located_of_angle (hs : '<' :: s <+: j.working.drop o) :
    Renamed j.numbering j'.numbering (j.working.take o) (j'.working.take o) := by
  refine (h.working.halves ?_).1
  obtain ⟨t, ht⟩ := hs
  rw [← ht]
  exact headFree_cons (by decide) _

theorem located_of_framed (hf : Framed s) (hs : s <+: j.working.drop o) :
    Renamed j.numbering j'.numbering (j.working.take o) (j'.working.take o) := by
  obtain ⟨u, rfl⟩ := hf
  exact h.located_of_angle hs

theorem located_of_name {n n' : Name} (hs : n.text <+: j.working.drop o)
    (hs' : n'.text <+: j'.working.drop o) :
    Renamed j.numbering j'.numbering (j.working.take o) (j'.working.take o) := by
  have htake := List.forall₂_take o h.working.like
  have hwhole := h.working
  rw [← List.take_append_drop o j.working, ← List.take_append_drop o j'.working] at hwhole
  obtain ⟨t, ht⟩ := hs
  obtain ⟨t', ht'⟩ := hs'
  refine (hwhole.cut_of_seam htake.length_eq ?_ ?_).1
  · rw [← ht]
    exact seam_of_name_right _ n t
  · rw [← ht']
    exact seam_of_name_right _ n' t'

/-- The code of two tags that belong together comes back from the reformatter alike. -/
theorem given {code code' result : List Char}
    (hcode : Renamed j.numbering j'.numbering code code')
    (hdepth : r.nesting.depth = r'.nesting.depth)
    (hresult : (j.style.reformatter (codeGiven j.style.checker code) (j.codeWidth r)).result =
      .ok result) :
    ∃ result', (j'.style.reformatter (codeGiven j'.style.checker code') (j'.codeWidth r')).result =
        .ok result' ∧
      Renamed j.numbering j'.numbering (codeFrom j.style.checker code result)
        (codeFrom j'.style.checker code' result') := by
  have hclosers : closersOf j.style.checker code = closersOf j.style.checker code' := by
    unfold closersOf
    rw [Ruby.classify_eq_of_renamed h.distinct h.distinct' h.checker hcode,
      Ruby.autocloseSuffix_eq_of_renamed h.distinct h.distinct' h.checker hcode]
  have hmem := closersOf_mem j.style.checker code
  have hwidth : j'.codeWidth r' = j.codeWidth r := by
    rw [Job.codeWidth, Job.codeWidth, width_eq_of_style h.style, hdepth]
  rw [codeGiven_eq] at hresult
  obtain ⟨result', hresult', hrenamed⟩ := h.reformatter.renamed h.distinct h.distinct'
    (Ruby.renamed_append_suffix hcode hmem) hresult
  rw [h.style, hwidth, codeGiven_eq, ← hclosers]
  refine ⟨result', hresult', ?_⟩
  rw [codeFrom_eq, codeFrom_eq, ← hclosers]
  exact Ruby.renamed_ofReformatted hcode hmem hrenamed

/-- Two tags that belong together are written side by side. -/
theorem codeTag (ht : InStep j j' r r') {e e' : Name × List Char} (he : e ∈ j.table.codeTags)
    (he' : e' ∈ j'.table.codeTags) (hsense : j.numbering.sense e = j'.numbering.sense e')
    (hplace : Renamed j.numbering j'.numbering (j.working.take o) (j'.working.take o)) :
    Outcome j j' Settled (j.codeTag r e.2 o) (j'.codeTag r' e'.2 o) := by
  obtain ⟨tag, htag⟩ := h.readable e he
  obtain ⟨tag', htag', hrenamed⟩ :=
    Erb.Tag.renamed_split? (h.tables.renamed_code he he' hsense) htag
  have hcode := hrenamed.code
  have hkind :
      Ruby.classify j'.style.checker tag'.code = Ruby.classify j.style.checker tag.code := by
    rw [h.style, Ruby.classify_eq_of_renamed h.distinct h.distinct' h.checker hcode]
  cases hk : closes (Ruby.classify j.style.checker tag.code) with
  | true =>
    cases hb : r.nesting.topIsBlock with
    | false =>
      obtain ⟨r₁, hr₁, hn, hs⟩ := j.codeTag_unmatched o htag hk hb
      obtain ⟨r₁', hr₁', hn', hs'⟩ :=
        j'.codeTag_unmatched o htag' (hkind ▸ hk) (ht.topIsBlock ▸ hb)
      rw [hr₁, hr₁']
      have hcause := Cause.Renamed.unmatched (renamed_codeText hrenamed) (renamed_top ht.nesting)
      refine .stops (.structural (ht.congr hs hs' ?_) hcause hplace)
      rw [hn, hn']
      exact ht.nesting
    | true =>
      obtain ⟨r₁, hr₁, hn, hs⟩ := j.codeTag_close o htag hk hb
      obtain ⟨r₁', hr₁', hn', hs'⟩ := j'.codeTag_close o htag' (hkind ▸ hk) (ht.topIsBlock ▸ hb)
      rw [hr₁, hr₁', hkind]
      have hready := Ready.tracks (ht.popped hs hs' hn hn')
      obtain ⟨hlevel, hsettled⟩ := hready.afterCode h.agree h.style hrenamed _ hcode
      exact .goes hlevel hsettled
  | false =>
    obtain ⟨result, hresult⟩ := h.total (codeGiven j.style.checker tag.code) (j.codeWidth r)
    obtain ⟨result', hresult', hrenamed'⟩ := h.given hcode ht.depth hresult
    obtain ⟨r₁, hr₁, hn, hs⟩ := j.codeTag_open o htag hk hresult
    obtain ⟨r₁', hr₁', hn', hs'⟩ := j'.codeTag_open o htag' (hkind ▸ hk) hresult'
    rw [hr₁, hr₁', hkind]
    have hready := (Ready.tracks ht).congr hs hs' hn hn'
    obtain ⟨hlevel, hsettled⟩ := hready.afterCode h.agree h.style hrenamed _ hrenamed'
    exact .goes hlevel hsettled

theorem text (ht : InStep j j' r r') (hlast : LastFree r.buffer.text)
    (hs : Renamed j.numbering j'.numbering s s') :
    InStep j j' (r.text j.len j.width s) (r'.text j'.len j'.width s') := by
  rw [width_eq_of_style h.style]
  exact ht.text h.agree hlast hs

/-- Text and the tags in it are written side by side. Held back is what has been read since the last
tag. -/
theorem gapFrom {cur cur' : List Char} (hs : s <+: j.working.drop o)
    (hs' : s' <+: j'.working.drop o) (hrenamed : Renamed j.numbering j'.numbering s s')
    (hlen : cur.length = cur'.length)
    (hheld : Renamed j.numbering j'.numbering (cur.reverse ++ s) (cur'.reverse ++ s'))
    (ht : InStep j j' r r') (hlast : LastFree r.buffer.text) :
    Outcome j j' (fun _ => True) (j.gapFrom cur o (Text.scan j.table.codeTags.read s) r)
      (j'.gapFrom cur' o (Text.scan j'.table.codeTags.read s') r') := by
  induction s using Entries.scan_induction j.table.entries generalizing s' cur cur' o r r' with
  | nil =>
    obtain rfl := hrenamed.like.eq_nil_iff.1 rfl
    rw [List.append_nil, List.append_nil] at hheld
    exact .goes (h.text ht hlast hheld) trivial
  | char c s hx ih =>
    obtain ⟨s₁, hs₁, hread, -⟩ := Text.scan_eq_char_cons hx
    obtain ⟨-, rfl⟩ := List.cons.inj hs₁
    obtain ⟨t, rfl, hread', hrest⟩ := hrenamed.char_inv hread
    rw [Text.scan_cons_of_none (Table.read_codeTags hread),
      Text.scan_cons_of_none (Table.read_codeTags hread')]
    refine ih (initial_drop (a := [c]) hs) (initial_drop (a := [c]) hs') hrest
      (congrArg (· + 1) hlen) ?_ ht hlast
    simpa using hheld
  | name e he s hx ih =>
    obtain ⟨e', he', t, rfl, hsense, hrest⟩ := hrenamed.name_inv h.distinct he
    have hnext := initial_drop hs
    have hnext' := initial_drop hs'
    rw [Name.length_text] at hnext hnext'
    rcases List.mem_append.1 he with hlook | hcode
    · have hlook' := h.tables.mem_lookalikes hlook he' hsense
      rw [h.tables.apart.scan_lookalike hlook, h.tables.apart'.scan_lookalike hlook',
        Job.gapFrom_chars, Job.gapFrom_chars, Name.length_text, Name.length_text]
      refine ih hnext hnext' hrest ?_ ?_ ht hlast
      · simp [hlen]
      · simpa using hheld
    · have hcode' := h.tables.mem_codeTags hcode he' hsense
      obtain ⟨hcur, -⟩ := hheld.cut_of_seam (by simpa using hlen) (seam_of_name_right _ e.1 s)
        (seam_of_name_right _ e'.1 t)
      have hplace := h.located_of_name ((List.prefix_append _ _).trans hs)
        ((List.prefix_append _ _).trans hs')
      rw [h.tables.apart.scan_code hcode, h.tables.apart'.scan_code hcode', Job.gapFrom_value,
        Job.gapFrom_value]
      refine (h.codeTag (h.text ht hlast hcur) hcode hcode' hsense hplace).bind ?_
      intro r₁ r₁' hr₁ hsettled
      exact ih hnext hnext' hrest rfl hrest hr₁ hsettled.lastFree

theorem gap (hs : s <+: j.working.drop o) (hs' : s' <+: j'.working.drop o)
    (hrenamed : Renamed j.numbering j'.numbering s s') (ht : InStep j j' r r')
    (hlast : LastFree r.buffer.text) :
    Outcome j j' (fun _ => True) (j.gap r s o) (j'.gap r' s' o) := by
  have hplace {n k : Nat} {u : Unit} {read : Text.Reader Unit}
      (hread : ∀ t x, read t = some x → ∃ v, t = '<' :: v)
      (hfind : Text.find? read 0 s = some (n, u, k)) :
      Renamed j.numbering j'.numbering (j.working.take (o + n)) (j'.working.take (o + n)) ∧
        Renamed j.numbering j'.numbering (s.drop n) (s'.drop n) := by
    obtain ⟨a, v, rfl, rfl⟩ := exists_of_find? hread hfind
    refine ⟨h.located_of_angle (initial_drop hs), (hrenamed.halves ?_).2⟩
    rw [List.drop_left]
    exact headFree_cons (by decide) v
  have hspaced := find?_eq_of_like readSpacedAttribute_eq_of_like hrenamed.like 0
  have hstart := find?_eq_of_like readTagStart_eq_of_like hrenamed.like 0
  rw [Job.gap, Job.gap, ← hspaced, ← hstart]
  cases hfound : Text.find? readSpacedAttribute 0 s with
  | some found =>
    obtain ⟨n, u, k⟩ := found
    obtain ⟨hbefore, -⟩ := hplace (fun _ _ => exists_of_readSpacedAttribute) hfound
    exact .stops (.structural ht .spacedAttribute hbefore)
  | none =>
    cases hfound : Text.find? readTagStart 0 s with
    | some found =>
      obtain ⟨n, u, k⟩ := found
      obtain ⟨hbefore, hbehind⟩ := hplace (fun _ _ => exists_of_readTagStart) hfound
      dsimp only
      rw [h.restoring _ _ hbehind]
      exact .stops (.structural ht (.stray _) hbefore)
    | none => exact h.gapFrom hs hs' hrenamed rfl hrenamed ht hlast

section Tags

variable {name name' attrs attrs' : List Char}
variable (hname : Renamed j.numbering j'.numbering name name')
variable (hplace : Renamed j.numbering j'.numbering (j.working.take o) (j'.working.take o))
include hname hplace

theorem openTag (ht : InStep j j' r r') (hattrs : Renamed j.numbering j'.numbering attrs attrs')
    (closing : Closing) : Outcome j j' Settled (j.openTag r name attrs closing o)
      (j'.openTag r' name' attrs' closing o) := by
  have hvalid := Element.isValidName_eq_of_renamed hname
  cases hv : Element.isValidName name with
  | false =>
    rw [j.openTag_invalid hv, j'.openTag_invalid (hvalid ▸ hv)]
    exact .stops (.structural ht (.unknownTag hname) hplace)
  | true =>
    rw [j.openTag_valid hv, j'.openTag_valid (hvalid ▸ hv)]
    obtain ⟨hlevel, hsettled⟩ :=
      (Ready.tracks ht).afterOpen h.style h.restoring hname hattrs closing
    exact .goes hlevel hsettled

omit hplace in
theorem topIsElement (ht : InStep j j' r r') :
    r.nesting.topIsElement name = r'.nesting.topIsElement name' := by
  have hn := ht.nesting
  generalize r.nesting = n at hn ⊢
  generalize r'.nesting = n' at hn ⊢
  cases hn with
  | nil => rfl
  | cons hframe _ =>
    cases hframe with
    | element raw hm =>
      refine Bool.eq_iff_iff.2 ?_
      rw [Nesting.topIsElement, Nesting.topIsElement, beq_iff_eq, beq_iff_eq]
      exact hm.eq_iff h.distinct h.distinct' hname
    | block hcode => rfl

theorem closeTag (ht : InStep j j' r r') :
    Outcome j j' Settled (j.closeTag r name o) (j'.closeTag r' name' o) := by
  have htop := h.topIsElement hname ht
  cases hv : r.nesting.topIsElement name with
  | false =>
    rw [j.closeTag_unmatched hv, j'.closeTag_unmatched (htop ▸ hv)]
    have hcause := Cause.Renamed.unmatched (renamed_closeText hname) (renamed_top ht.nesting)
    exact .stops (.structural ht hcause hplace)
  | true =>
    rw [j.closeTag_open hv, j'.closeTag_open (htop ▸ hv)]
    obtain ⟨hlevel, hsettled⟩ := ht.afterClose h.agree h.style hname
    exact .goes hlevel hsettled

end Tags

theorem token {t t' : Token} (ht : InStep j j' r r')
    (hrenamed : t.Renamed j.numbering j'.numbering t') (hf : Framed t.text)
    (hs : t.text <+: j.working.drop o) :
    Outcome j j' Settled (j.piece r o (.token t)) (j'.piece r' o (.token t')) := by
  have hplace := h.located_of_framed hf hs
  cases hrenamed with
  | comment htext =>
    obtain ⟨hlevel, hsettled⟩ :=
      (Ready.tracks ht).comment h.agree h.style htext hf (htext.like.framed hf)
    exact .goes hlevel hsettled
  | close htext hname => exact h.closeTag hname hplace ht
  | opening closing htext hname hattrs => exact h.openTag hname hplace ht hattrs closing

theorem rawText {name closeTag content content' : List Char} (hname : name.length < Name.size)
    (hclose : closeTag ≠ []) (hcontent : Renamed j.numbering j'.numbering content content')
    (ht : InStep j j' r r') (hlast : LastFree r.buffer.text) :
    Outcome j j' Settled (j.piece r o (.rawText name content closeTag))
      (j'.piece r' o (.rawText name content' closeTag)) := by
  obtain ⟨hlevel, hsettled⟩ :=
    ht.rawText h.agree h.style hlast (.of_short hname) hcontent hclose hclose
  exact .goes hlevel hsettled

theorem unclosed {content content' : List Char} (name : List Char)
    (hcontent : Renamed j.numbering j'.numbering content content') (ht : InStep j j' r r')
    (hlast : LastFree r.buffer.text) :
    Outcome j j' (fun _ => True) (j.piece r o (.rawText name content []))
      (j'.piece r' o (.rawText name content' [])) :=
  .goes (ht.afterBody h.agree hlast hcontent) trivial

/-- At the end both runs are whole, or both have left something open. -/
theorem ended (ht : InStep j j' r r') (ho : j.working.drop o = []) :
    Outcome j j' (fun _ => True) (j.pieces o [] r) (j'.pieces o [] r') := by
  have hlong := List.drop_eq_nil_iff.1 ho
  have hwhole : Renamed j.numbering j'.numbering (j.working.take o) (j'.working.take o) := by
    rw [List.take_of_length_le hlong, List.take_of_length_le (h.working.like.length_eq ▸ hlong)]
    exact h.working
  have hn := ht.nesting
  rw [Job.pieces, Job.pieces]
  generalize r.nesting = n at hn ⊢
  generalize r'.nesting = n' at hn ⊢
  cases hn with
  | nil => exact .goes ht trivial
  | cons hf _ => exact .stops (.structural ht (.unclosed hf.label) hwhole)

omit h in
theorem cons {p p' : Piece} {ps ps' : List Piece}
    (hp : p.Renamed j.numbering j'.numbering p')
    (hx : Outcome j j' P (j.piece r o p) (j'.piece r' o p'))
    (hrest : ∀ r₁ r₁', InStep j j' r₁ r₁' → P r₁ →
      Outcome j j' Q (j.pieces (o + p.text.length) ps r₁)
        (j'.pieces (o + p.text.length) ps' r₁')) :
    Outcome j j' Q (j.pieces o (p :: ps) r) (j'.pieces o (p' :: ps') r') := by
  rw [Job.pieces, Job.pieces, ← Piece.length_text_eq_of_renamed hp]
  exact hx.bind hrest

/-- The runs over all pieces stay side by side. Literal text comes only behind what ends as a tag
does, where no name can reach into it. -/
theorem pieces {raw : Option (List Char)} {ps ps' : List Piece} (ho : Piece.Ordered raw ps)
    (hps : List.Forall₂ (Piece.Renamed j.numbering j'.numbering) ps ps')
    (hs : j.working.drop o = ps.flatMap Piece.text)
    (hs' : j'.working.drop o = ps'.flatMap Piece.text)
    (hraw : ∀ name ∈ raw, name.length < Name.size)
    (hframed : ∀ t, .token t ∈ ps → Framed t.text) (ht : InStep j j' r r')
    (hlast : LastFree r.buffer.text) :
    Outcome j j' (fun _ => True) (j.pieces o ps r) (j'.pieces o ps' r') := by
  induction ho generalizing ps' o r r' with
  | nil =>
    cases hps
    exact h.ended ht hs
  | unclosed name content =>
    obtain _ | ⟨hp, _ | _⟩ := hps
    cases hp with
    | rawText _ _ hcontent =>
      refine cons (.rawText name [] hcontent) (h.unclosed name hcontent ht hlast) ?_
      intro r₁ r₁' ht₁ _
      exact h.ended ht₁ (drop_behind hs)
  | @rawText name content closeTag ps hclose hrest ih =>
    obtain _ | ⟨hp, hps⟩ := hps
    have hlen := Piece.length_text_eq_of_renamed hp
    cases hp with
    | rawText _ _ hcontent =>
      refine cons (.rawText name closeTag hcontent)
        (h.rawText (hraw name rfl) hclose hcontent ht hlast) ?_
      intro r₁ r₁' ht₁ hsettled
      exact ih hps (drop_behind hs) (hlen ▸ drop_behind hs') (by simp)
        (fun t ht => hframed t (List.mem_cons_of_mem _ ht)) ht₁ hsettled.lastFree
  | last text =>
    obtain _ | ⟨hp, _ | _⟩ := hps
    cases hp with
    | gap htext =>
      refine cons (.gap htext)
        (h.gap (initial_of_drop hs) (initial_of_drop hs') htext ht hlast) ?_
      intro r₁ r₁' ht₁ _
      exact h.ended ht₁ (drop_behind hs)
  | @token text t ps hrest ih =>
    obtain _ | ⟨hgap, _ | ⟨htok, hps⟩⟩ := hps
    have hlen := Piece.length_text_eq_of_renamed hgap
    have hlen' := Piece.length_text_eq_of_renamed htok
    cases hgap with
    | gap htext =>
      cases htok with
      | token htoken =>
        have hbehind := drop_behind hs
        have hbehind' := hlen ▸ drop_behind hs'
        refine cons (.gap htext)
          (h.gap (initial_of_drop hs) (initial_of_drop hs') htext ht hlast) ?_
        intro r₁ r₁' ht₁ _
        refine cons (.token htoken)
          (h.token ht₁ htoken (hframed t (by simp)) (initial_of_drop hbehind)) ?_
        intro r₂ r₂' ht₂ hsettled
        exact ih hps (drop_behind hbehind) (hlen' ▸ drop_behind hbehind')
          (fun m hm => Piece.length_of_isRawText (Piece.isRawText_of_rawTextAfter hm))
          (fun t ht => hframed t (by simp [ht])) ht₂ hsettled.lastFree

omit h in
theorem inStep_start : InStep j j' j.start j'.start := by
  refine ⟨.nil, ⟨[], [], [], ⟨rfl, fun _ => rfl⟩, ?_, .inl rfl⟩, rfl, rfl, rfl⟩
  exact ⟨rfl, rfl, rfl, rfl, .nil, rfl, .none⟩

theorem run : Outcome j j' (fun _ => True) j.run j'.run := by
  have hempty : LastFree j.start.buffer.text := Free.lastFree fun c hc => absurd hc List.not_mem_nil
  refine h.pieces (Piece.cut_ordered _) (Piece.renamed_cut h.working) ?_ ?_ (by simp) ?_
    inStep_start hempty
  · exact (Piece.cut_text _).symm
  · exact (Piece.cut_text _).symm
  · intro t ht
    obtain ⟨u, hu⟩ := Piece.mem_cut_token ht
    exact Token.readAny_framed hu

end Counterparts

end ErbLayout.Template
