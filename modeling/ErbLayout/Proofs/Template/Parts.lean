import ErbLayout.Proofs.Markup.Cut
import ErbLayout.Proofs.Markup.Strays
import ErbLayout.Proofs.Template.Steps
/-!
A protected template as a sequence of parts, its literal text character by character. A run over the
pieces is a run over the parts, in which literal text is held back until something else follows it:
one comes to an end exactly when the other does, if no tag starts in literal text, and with the same
output.
-/

namespace ErbLayout.Markup

open Text (find?)

/-- A text in which no tag starts. -/
def Untagged (s : List Char) : Prop := ∀ t, t <:+ s → readTagStart t = none

theorem find?_eq_none_iff {read : Text.Reader Unit} (hnil : read [] = none) (n : Nat)
    (s : List Char) : find? read n s = none ↔ ∀ t, t <:+ s → read t = none := by
  induction s generalizing n with
  | nil => simp [find?, hnil]
  | cons c s ih =>
    have hall : (∀ t, t <:+ c :: s → read t = none) ↔
        read (c :: s) = none ∧ ∀ t, t <:+ s → read t = none := by
      simp only [List.suffix_cons_iff, forall_eq_or_imp]
    rw [hall, ← ih (n + 1), find?]
    cases read (c :: s) <;> simp

theorem untagged_iff (s : List Char) : find? readTagStart 0 s = none ↔ Untagged s :=
  find?_eq_none_iff rfl 0 s

theorem readSpacedAttribute_of_untagged {s : List Char} (h : readTagStart s = none) :
    readSpacedAttribute s = none := by
  unfold readSpacedAttribute
  split
  · rename_i s
    cases s with
    | nil => rfl
    | cons c s =>
      have hc : isWord c = false := by
        by_contra hword
        rw [Bool.not_eq_false] at hword
        unfold readTagStart at h
        split at h
        · rename_i heq
          obtain ⟨rfl, -⟩ := List.cons.inj (List.cons.inj heq).2
          exact absurd hword (by decide)
        · rename_i heq
          obtain ⟨rfl, -⟩ := List.cons.inj (List.cons.inj heq).2
          simp [hword] at h
        · rename_i hno
          exact hno c s rfl
      simp [List.span_eq_takeWhile_dropWhile, hc]
  · rfl

theorem find?_readSpacedAttribute {s : List Char} (h : Untagged s) :
    find? readSpacedAttribute 0 s = none :=
  (find?_eq_none_iff rfl 0 s).2 fun t ht => readSpacedAttribute_of_untagged (h t ht)

theorem untagged_nil : Untagged [] := by
  intro t ht
  rw [List.suffix_nil.1 ht]
  rfl

theorem untagged_cons_iff {c : Char} {s : List Char} :
    Untagged (c :: s) ↔ readTagStart (c :: s) = none ∧ Untagged s := by
  simp only [Untagged, List.suffix_cons_iff, forall_eq_or_imp]

theorem untagged_free_append_iff {u : List Char} (hu : '<' ∉ u) (s : List Char) :
    Untagged (u ++ s) ↔ Untagged s := by
  induction u with
  | nil => rfl
  | cons c u ih =>
    rw [List.mem_cons, not_or] at hu
    rw [List.cons_append, untagged_cons_iff, ih hu.2,
      and_iff_right (readTagStart_of_ne (Ne.symm hu.1) _)]

theorem readTagStart_angle_iff (s : List Char) : readTagStart ('<' :: s) = none ↔
    (∀ c ∈ s.head?, isWord c = false) ∧
      (s.head? = some '/' → ∀ c ∈ s.tail.head?, isWord c = false) := by
  rcases s with _ | ⟨c, s⟩
  · simp [readTagStart]
  by_cases hc : c = '/'
  · subst hc
    rcases s with _ | ⟨d, s⟩
    · simp [readTagStart, show isWord '/' = false by decide]
    · simp [readTagStart, show isWord '/' = false by decide]
  · have hone : readTagStart ('<' :: c :: s) = if isWord c then some ((), 2) else none := by
      cases s <;> simp [readTagStart, hc]
    rw [hone]
    simp [hc]

theorem untagged_append_iff {c : Char} (hc : isWord c = false) (hangle : c ≠ '<') (hslash : c ≠ '/')
    (u v : List Char) : Untagged (u ++ c :: v) ↔ Untagged u ∧ Untagged v := by
  induction u with
  | nil =>
    rw [List.nil_append, untagged_cons_iff, and_iff_right (readTagStart_of_ne hangle v),
      and_iff_right untagged_nil]
  | cons d u ih =>
    have hfirst : readTagStart (d :: (u ++ c :: v)) = none ↔ readTagStart (d :: u) = none := by
      by_cases hd : d = '<'
      · subst hd
        rw [readTagStart_angle_iff, readTagStart_angle_iff]
        rcases u with _ | ⟨e, _ | ⟨f, u⟩⟩
        · simp [hc, hslash]
        · simp [hc]
        · simp
      · rw [readTagStart_of_ne hd, readTagStart_of_ne hd]
    rw [List.cons_append, untagged_cons_iff, untagged_cons_iff, ih, hfirst, and_assoc]

end ErbLayout.Markup

namespace ErbLayout.Placeholder

def Table.glossary (t : Table) : Glossary (List Char) := ⟨t.codeTags, Prod.snd⟩

end ErbLayout.Placeholder

namespace ErbLayout.Template

open Layout Markup Placeholder
open Text (Found)

inductive Part (τ : Type) where
  | char (c : Char)
  | code (text : List Char)
  | comment (text : τ)
  | close (text name : τ)
  | opening (text name attrs : τ) (closing : Closing)
  | rawText (name content closeTag : τ)
  deriving DecidableEq, Repr

namespace Part

variable {τ σ : Type}

def map (f : τ → σ) : Part τ → Part σ
  | .char c => .char c
  | .code text => .code text
  | .comment text => .comment (f text)
  | .close text name => .close (f text) (f name)
  | .opening text name attrs closing => .opening (f text) (f name) (f attrs) closing
  | .rawText name content closeTag => .rawText (f name) (f content) (f closeTag)

def ofFound : Found (Name × List Char) → Part (List Char)
  | .char c => .char c
  | .value e => .code e.2

def ofToken : Token → Part (List Char)
  | .comment text => .comment text
  | .close text name => .close text name
  | .opening text name attrs closing => .opening text name attrs closing

def ofText (t : Table) (s : List Char) : List (Part (List Char)) :=
  (Text.scan t.codeTags.read s).map ofFound

def ofPiece (t : Table) : Piece → List (Part (List Char))
  | .gap text => ofText t text
  | .token tok => [ofToken tok]
  | .rawText name content closeTag => [.rawText name content closeTag]

def ofPieces (t : Table) (ps : List Piece) : List (Part (List Char)) := ps.flatMap (ofPiece t)

def ofProtected (p : Protected) : List (Part (List Char)) := ofPieces p.table (Piece.cut p.working)

theorem ofPieces_cons (t : Table) (p : Piece) (ps : List Piece) :
    ofPieces t (p :: ps) = ofPiece t p ++ ofPieces t ps := List.flatMap_cons

theorem ofText_char {t : Table} {c : Char} {s : List Char}
    (h : Text.scan t.codeTags.read (c :: s) = .char c :: Text.scan t.codeTags.read s) :
    ofText t (c :: s) = .char c :: ofText t s := by
  rw [ofText, h]
  rfl

theorem ofText_name {t : Table} {e : Name × List Char} {s : List Char}
    (h : Text.scan t.codeTags.read (e.1.text ++ s) = .value e :: Text.scan t.codeTags.read s) :
    ofText t (e.1.text ++ s) = .code e.2 :: ofText t s := by
  rw [ofText, h]
  rfl

/-- How a part begins, as far as the start of a tag shows: a name is a word. -/
def letter : Part τ → Char
  | .char c => c
  | .code _ => 'e'
  | _ => ' '

theorem letter_map (f : τ → σ) (x : Part τ) : (x.map f).letter = x.letter := by
  cases x <;> rfl

theorem letters_map (f : τ → σ) (xs : List (Part τ)) :
    (xs.map (map f)).map letter = xs.map letter := by
  rw [List.map_map]
  exact List.map_congr_left fun x _ => letter_map f x

theorem head_letters (t : Table) (s : List Char) :
    ((ofText t s).map letter).head? = s.head? := by
  cases s using Entries.scan_induction t.codeTags with
  | nil => rfl
  | char c s hx _ =>
    rw [ofText_char hx]
    rfl
  | name e he s hx _ =>
    obtain ⟨u, hu, -⟩ := Name.text_shape e.1
    rw [ofText_name hx, hu]
    rfl

theorem untagged_letters_iff (t : Table) (s : List Char) :
    Untagged ((ofText t s).map letter) ↔ Untagged s := by
  induction s using Entries.scan_induction t.codeTags with
  | nil => rfl
  | char c s hx ih =>
    rw [ofText_char hx, List.map_cons, letter, untagged_cons_iff, untagged_cons_iff, ih]
    by_cases hc : c = '<'
    · subst hc
      rw [readTagStart_angle_iff, readTagStart_angle_iff, head_letters]
      cases s with
      | nil => rfl
      | cons d s =>
        by_cases hd : d = '/'
        · subst hd
          rw [ofText_char (Entries.scan_cons (by decide) s), List.map_cons, List.tail_cons,
            List.tail_cons, head_letters]
        · simp [hd]
    · rw [readTagStart_of_ne hc, readTagStart_of_ne hc]
  | name e he s hx ih =>
    rw [ofText_name hx, List.map_cons, letter, untagged_cons_iff, ih,
      untagged_free_append_iff (Name.angle_not_mem e.1),
      and_iff_right (readTagStart_of_ne (by decide) _)]

end Part

/-- The parts of a template, its names read as the ERB tags that they stand for. -/
def outline (p : Protected) : List (Part (List (Found (List Char)))) :=
  (Part.ofProtected p).map (Part.map p.table.glossary.reveal)

/-- A run, and the literal text that it holds back, last character first. -/
structure Pen where
  run : Run
  held : List Char := []

namespace Job

variable (j : Job)

def release (p : Pen) : Run := p.run.text j.len j.width p.held.reverse

inductive Writes : Pen → Part (List Char) → Pen → Prop
  | char (r : Run) (cur : List Char) (c : Char) : Writes ⟨r, cur⟩ (.char c) ⟨r, c :: cur⟩
  | code {p : Pen} {text : List Char} {r : Run} :
    (∀ offset, j.codeTag (j.release p) text offset = .ok r) → Writes p (.code text) ⟨r, []⟩
  | comment (p : Pen) (text : List Char) :
    Writes p (.comment text) ⟨j.comment (j.release p) text, []⟩
  | close {p : Pen} {name : List Char} {r : Run} (text : List Char) :
    (∀ offset, j.closeTag (j.release p) name offset = .ok r) → Writes p (.close text name) ⟨r, []⟩
  | opening {p : Pen} {name attrs : List Char} {closing : Closing} {r : Run} (text : List Char) :
    (∀ offset, j.openTag (j.release p) name attrs closing offset = .ok r) →
    Writes p (.opening text name attrs closing) ⟨r, []⟩
  | rawText (r : Run) (name content closeTag : List Char) :
    Writes ⟨r, []⟩ (.rawText name content closeTag) ⟨j.rawText r name content closeTag, []⟩

inductive WritesAll : Pen → List (Part (List Char)) → Pen → Prop
  | nil (p : Pen) : WritesAll p [] p
  | cons {p q s : Pen} {x : Part (List Char)} {xs : List (Part (List Char))} :
    Writes j p x q → WritesAll q xs s → WritesAll p (x :: xs) s

variable {j} {p q s : Pen} {r r' : Run} {x : Part (List Char)} {xs ys : List (Part (List Char))}

theorem WritesAll.append (h : j.WritesAll p xs q) (h' : j.WritesAll q ys s) :
    j.WritesAll p (xs ++ ys) s := by
  induction h with
  | nil => exact h'
  | cons hx _ ih => exact .cons hx (ih h')

theorem WritesAll.split (h : j.WritesAll p (xs ++ ys) s) :
    ∃ q, j.WritesAll p xs q ∧ j.WritesAll q ys s := by
  induction xs generalizing p with
  | nil => exact ⟨p, .nil p, h⟩
  | cons x xs ih =>
    cases h with
    | cons hx hxs =>
      obtain ⟨q, hq, hs⟩ := ih hxs
      exact ⟨q, .cons hx hq, hs⟩

theorem writesAll_chars_iff (r : Run) (cur t : List Char) :
    j.WritesAll ⟨r, cur⟩ (t.map .char) q ↔ q = ⟨r, t.reverse ++ cur⟩ := by
  induction t generalizing cur with
  | nil =>
    constructor
    · rintro ⟨⟩
      rfl
    · rintro rfl
      exact .nil _
  | cons c t ih =>
    rw [List.reverse_cons, List.append_assoc, List.singleton_append, ← ih (c :: cur)]
    constructor
    · intro h
      cases h with
      | cons hc ht =>
        cases hc
        exact ht
    · exact .cons (.char r cur c)

theorem gapFrom_eq_ok_iff {fs : List (Found (Name × List Char))} {cur : List Char}
    {offset : Nat} : j.gapFrom cur offset fs r = .ok r' ↔
      ∃ p, j.WritesAll ⟨r, cur⟩ (fs.map Part.ofFound) p ∧ j.release p = r' := by
  induction fs generalizing cur offset r with
  | nil =>
    rw [gapFrom, Except.ok.injEq]
    constructor
    · rintro rfl
      exact ⟨_, .nil _, rfl⟩
    · rintro ⟨p, ⟨⟩, rfl⟩
      rfl
  | cons f fs ih =>
    cases f with
    | char c =>
      rw [gapFrom, ih]
      constructor
      · rintro ⟨p, hp, rfl⟩
        exact ⟨p, .cons (.char r cur c) hp, rfl⟩
      · rintro ⟨p, hp, rfl⟩
        cases hp with
        | cons hc hfs =>
          cases hc
          exact ⟨p, hfs, rfl⟩
    | value e =>
      constructor
      · intro h
        obtain ⟨r₁, hcode, hrest⟩ := gapFrom_value_eq_ok h
        obtain ⟨p, hp, rfl⟩ := ih.1 hrest
        exact ⟨p, .cons (.code (codeTag_offset hcode)) hp, rfl⟩
      · rintro ⟨p, hp, rfl⟩
        cases hp with
        | cons hx hfs =>
          cases hx with
          | code hcode =>
            have hwritten := hcode offset
            rw [release] at hwritten
            rw [gapFrom, hwritten]
            exact ih.2 ⟨p, hfs, rfl⟩

theorem gap_eq_ok_iff {text : List Char} {offset : Nat} : j.gap r text offset = .ok r' ↔
    Untagged text ∧ ∃ p, j.WritesAll ⟨r, []⟩ (Part.ofText j.table text) p ∧ j.release p = r' := by
  have hfrom : j.gapFrom [] offset (Text.scan j.table.codeTags.read text) r = .ok r' ↔
      ∃ p, j.WritesAll ⟨r, []⟩ (Part.ofText j.table text) p ∧ j.release p = r' := gapFrom_eq_ok_iff
  rw [← hfrom, gap]
  constructor
  · intro h
    split at h
    · simp at h
    · split at h
      · simp at h
      · rename_i hstart
        exact ⟨(untagged_iff text).1 hstart, h⟩
  · rintro ⟨htext, h⟩
    rw [find?_readSpacedAttribute htext, (untagged_iff text).2 htext]
    exact h

theorem token_eq_ok_iff {t : Token} {offset : Nat} :
    j.piece (j.release p) offset (.token t) = .ok r ↔ j.Writes p (Part.ofToken t) ⟨r, []⟩ := by
  cases t with
  | comment text =>
    rw [piece, Except.ok.injEq]
    constructor
    · rintro rfl
      exact .comment p text
    · rintro ⟨⟩
      rfl
  | close text name =>
    constructor
    · exact fun h => .close text (closeTag_offset h)
    · intro h
      cases h with
      | close _ hclose => exact hclose offset
  | opening text name attrs closing =>
    constructor
    · exact fun h => .opening text (openTag_offset h)
    · intro h
      cases h with
      | opening _ hopen => exact hopen offset

theorem exists_of_writes_token {t : Token} (h : j.Writes p (Part.ofToken t) q) :
    ∃ r, q = ⟨r, []⟩ := by
  cases t with
  | comment text =>
    cases h
    exact ⟨_, rfl⟩
  | close text name =>
    cases h
    exact ⟨_, rfl⟩
  | opening text name attrs closing =>
    cases h
    exact ⟨_, rfl⟩

def Ends (j : Job) (offset : Nat) (ps : List Piece) (r : Run) (b : Buffer) : Prop :=
  ∃ r', j.pieces offset ps r = .ok r' ∧ r'.buffer = b

def Finishes (j : Job) (p : Pen) (xs : List (Part (List Char))) (b : Buffer) : Prop :=
  ∃ q, j.WritesAll p xs q ∧ (j.release q).nesting = [] ∧ (j.release q).buffer = b

section Finishes

variable {b : Buffer} {offset : Nat} {a : Piece} {ps : List Piece}

theorem ends_nil_iff : j.Ends offset [] r b ↔ r.nesting = [] ∧ r.buffer = b := by
  constructor
  · rintro ⟨r', hr, hb⟩
    obtain ⟨hn, rfl⟩ := pieces_nil_eq_ok hr
    exact ⟨hn, hb⟩
  · rintro ⟨hn, hb⟩
    exact ⟨r, by rw [pieces, hn], hb⟩

theorem ends_cons_iff : j.Ends offset (a :: ps) r b ↔
    ∃ r₁, j.piece r offset a = .ok r₁ ∧ j.Ends (offset + a.text.length) ps r₁ b := by
  constructor
  · rintro ⟨r', hr, hb⟩
    obtain ⟨r₁, ha, hps⟩ := pieces_cons_eq_ok hr
    exact ⟨r₁, ha, r', hps, hb⟩
  · rintro ⟨r₁, ha, r', hps, hb⟩
    refine ⟨r', ?_, hb⟩
    rw [pieces, ha]
    exact hps

theorem finishes_nil_iff : j.Finishes ⟨r, []⟩ [] b ↔ r.nesting = [] ∧ r.buffer = b := by
  constructor
  · rintro ⟨q, hq, hn, hb⟩
    cases hq
    exact ⟨hn, hb⟩
  · rintro ⟨hn, hb⟩
    exact ⟨_, .nil _, hn, hb⟩

theorem finishes_cons_iff :
    j.Finishes p (x :: xs) b ↔ ∃ q, j.Writes p x q ∧ j.Finishes q xs b := by
  constructor
  · rintro ⟨s, hs, hend⟩
    cases hs with
    | cons hx hxs => exact ⟨_, hx, s, hxs, hend⟩
  · rintro ⟨q, hx, s, hxs, hend⟩
    exact ⟨s, .cons hx hxs, hend⟩

theorem finishes_append_iff :
    j.Finishes p (xs ++ ys) b ↔ ∃ q, j.WritesAll p xs q ∧ j.Finishes q ys b := by
  constructor
  · rintro ⟨s, hs, hend⟩
    obtain ⟨q, hq, hys⟩ := hs.split
    exact ⟨q, hq, s, hys, hend⟩
  · rintro ⟨q, hq, s, hys, hend⟩
    exact ⟨s, hq.append hys, hend⟩

theorem ends_gap_iff {text : List Char} : j.Ends offset [.gap text] r b ↔
    Untagged text ∧ j.Finishes ⟨r, []⟩ (Part.ofText j.table text) b := by
  rw [ends_cons_iff]
  constructor
  · rintro ⟨r₁, hgap, hend⟩
    obtain ⟨htext, p, hp, rfl⟩ := gap_eq_ok_iff.1 hgap
    exact ⟨htext, p, hp, ends_nil_iff.1 hend⟩
  · rintro ⟨htext, p, hp, hend⟩
    exact ⟨_, gap_eq_ok_iff.2 ⟨htext, p, hp, rfl⟩, ends_nil_iff.2 hend⟩

theorem ends_token_iff {text : List Char} {t : Token} :
    j.Ends offset (.gap text :: .token t :: ps) r b ↔ Untagged text ∧
      ∃ p r₁, j.WritesAll ⟨r, []⟩ (Part.ofText j.table text) p ∧
        j.Writes p (Part.ofToken t) ⟨r₁, []⟩ ∧
        j.Ends (offset + text.length + t.text.length) ps r₁ b := by
  rw [ends_cons_iff]
  constructor
  · rintro ⟨r₀, hgap, hrest⟩
    obtain ⟨htext, p, hp, rfl⟩ := gap_eq_ok_iff.1 hgap
    obtain ⟨r₁, ht, hps⟩ := ends_cons_iff.1 hrest
    exact ⟨htext, p, r₁, hp, token_eq_ok_iff.1 ht, hps⟩
  · rintro ⟨htext, p, r₁, hp, ht, hps⟩
    exact ⟨_, gap_eq_ok_iff.2 ⟨htext, p, hp, rfl⟩,
      ends_cons_iff.2 ⟨r₁, token_eq_ok_iff.2 ht, hps⟩⟩

theorem ends_rawText_iff {name content closeTag : List Char} :
    j.Ends offset (.rawText name content closeTag :: ps) r b ↔
      j.Ends (offset + (content ++ closeTag).length) ps (j.rawText r name content closeTag) b := by
  rw [ends_cons_iff]
  constructor
  · rintro ⟨r₁, hraw, hps⟩
    obtain rfl := Except.ok.inj hraw
    exact hps
  · exact fun hps => ⟨_, rfl, hps⟩

theorem finishes_rawText_iff {name content closeTag : List Char} :
    j.Finishes ⟨r, []⟩ (.rawText name content closeTag :: xs) b ↔
      j.Finishes ⟨j.rawText r name content closeTag, []⟩ xs b := by
  rw [finishes_cons_iff]
  constructor
  · rintro ⟨q, hq, hxs⟩
    cases hq
    exact hxs
  · exact fun hxs => ⟨_, .rawText r name content closeTag, hxs⟩

theorem ends_iff_nil (r : Run) (offset : Nat) : j.Ends offset [] r b ↔
    Untagged ((Part.ofPieces j.table []).map Part.letter) ∧
      j.Finishes ⟨r, []⟩ (Part.ofPieces j.table []) b := by
  rw [ends_nil_iff, Part.ofPieces, List.flatMap_nil, finishes_nil_iff, List.map_nil,
    and_iff_right untagged_nil]

theorem ends_iff_rawText (h : ∀ r offset, j.Ends offset ps r b ↔
      Untagged ((Part.ofPieces j.table ps).map Part.letter) ∧
        j.Finishes ⟨r, []⟩ (Part.ofPieces j.table ps) b)
    (name content closeTag : List Char) (r : Run) (offset : Nat) :
    j.Ends offset (.rawText name content closeTag :: ps) r b ↔
      Untagged ((Part.ofPieces j.table (.rawText name content closeTag :: ps)).map Part.letter) ∧
        j.Finishes ⟨r, []⟩ (Part.ofPieces j.table (.rawText name content closeTag :: ps)) b := by
  have hparts : Part.ofPieces j.table (.rawText name content closeTag :: ps) =
      .rawText name content closeTag :: Part.ofPieces j.table ps := rfl
  have hletters : Untagged ((Part.ofPieces j.table (.rawText name content closeTag :: ps)).map
      Part.letter) ↔ Untagged ((Part.ofPieces j.table ps).map Part.letter) :=
    untagged_free_append_iff (u := [' ']) (by decide) _
  rw [hletters, hparts, ends_rawText_iff, h, finishes_rawText_iff]

/-- A run over pieces and one over their parts. -/
theorem ends_iff {raw : Option (List Char)} (ho : Piece.Ordered raw ps) (r : Run) (offset : Nat) :
    j.Ends offset ps r b ↔ Untagged ((Part.ofPieces j.table ps).map Part.letter) ∧
      j.Finishes ⟨r, []⟩ (Part.ofPieces j.table ps) b := by
  induction ho generalizing r offset with
  | nil raw => exact ends_iff_nil r offset
  | unclosed name content => exact ends_iff_rawText ends_iff_nil name content [] r offset
  | @rawText name content closeTag ps _ _ ih =>
    exact ends_iff_rawText ih name content closeTag r offset
  | last text =>
    rw [ends_gap_iff, Part.ofPieces_cons]
    change _ ↔ Untagged ((Part.ofText j.table text ++ []).map Part.letter) ∧
      j.Finishes ⟨r, []⟩ (Part.ofText j.table text ++ []) b
    rw [List.append_nil, Part.untagged_letters_iff]
  | @token text t ps _ ih =>
    have hletters : Untagged ((Part.ofPieces j.table (.gap text :: .token t :: ps)).map
        Part.letter) ↔ Untagged text ∧ Untagged ((Part.ofPieces j.table ps).map Part.letter) := by
      rw [← Part.untagged_letters_iff j.table text,
        ← untagged_append_iff (c := ' ') (by decide) (by decide) (by decide), Part.ofPieces_cons,
        Part.ofPieces_cons]
      cases t <;> simp [Part.ofPiece, Part.ofToken, Part.letter]
    rw [ends_token_iff, hletters, Part.ofPieces_cons, finishes_append_iff, and_assoc,
      Part.ofPieces_cons]
    refine and_congr_right fun _ => ?_
    constructor
    · rintro ⟨p, r₁, hp, ht, hps⟩
      obtain ⟨hclear, hend⟩ := (ih r₁ _).1 hps
      exact ⟨hclear, p, hp, finishes_cons_iff.2 ⟨_, ht, hend⟩⟩
    · rintro ⟨hclear, p, hp, hrest⟩
      obtain ⟨q, ht, hend⟩ := finishes_cons_iff.1 hrest
      obtain ⟨r₁, rfl⟩ := exists_of_writes_token ht
      exact ⟨p, r₁, hp, ht, (ih r₁ _).2 ⟨hclear, hend⟩⟩

end Finishes

end Job

end ErbLayout.Template
