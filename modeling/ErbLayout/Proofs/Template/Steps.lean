import ErbLayout.Template.Format
/-!
What the single steps of a run change: the frames that are open, the output, and what was written
last.
-/

namespace ErbLayout.Template

open Layout Markup Placeholder

namespace Run

variable (r : Run)

@[simp] theorem nesting_note (entries : Log) : (r.note entries).nesting = r.nesting := rfl

@[simp] theorem nesting_push (f : Frame) : (r.push f).nesting = f :: r.nesting := rfl

@[simp] theorem nesting_pop : r.pop.nesting = r.nesting.tail := by
  unfold pop
  split
  · rename_i h
    rw [h, List.tail_nil]
  · rename_i h
    rw [h, List.tail_cons, nesting_note]

theorem depth_pop : r.pop.nesting.depth = r.nesting.depth - 1 := by
  rw [nesting_pop, Nesting.depth, List.length_tail]
  rfl

@[simp] theorem nesting_emit (len : Layout.Measure) (width : Int) (text : List Char)
    (newLine : Bool) : (r.emit len width text newLine).nesting = r.nesting := by
  unfold emit
  split <;> rfl

@[simp] theorem nesting_tagWritten (blockLevel : Bool) :
    (r.tagWritten blockLevel).nesting = r.nesting := rfl

@[simp] theorem nesting_text (len : Layout.Measure) (width : Int) (s : List Char) :
    (r.text len width s).nesting = r.nesting := by
  unfold text
  dsimp only
  split
  · split <;> rfl
  · rfl

end Run

/-- Two runs that differ at most in what is open, in their logs and in their calls. -/
structure Run.SamePlace (r r' : Run) : Prop where
  buffer : r'.buffer = r.buffer
  last : r'.last = r.last
  gap : r'.gap = r.gap

/-- A reformatter that always gives code back. -/
def Total (reformatter : Ruby.Reformatter) : Prop :=
  ∀ code width, ∃ result, (reformatter code width).result = .ok result

theorem total_passThrough : Total Ruby.passThrough := fun code _ => ⟨code, rfl⟩

namespace Run

theorem SamePlace.refl (r : Run) : SamePlace r r := ⟨rfl, rfl, rfl⟩

theorem SamePlace.trans {r₁ r₂ r₃ : Run} (h : SamePlace r₁ r₂) (h' : SamePlace r₂ r₃) :
    SamePlace r₁ r₃ :=
  ⟨h'.buffer.trans h.buffer, h'.last.trans h.last, h'.gap.trans h.gap⟩

theorem samePlace_note (r : Run) (entries : Log) : SamePlace r (r.note entries) := ⟨rfl, rfl, rfl⟩

theorem samePlace_pop (r : Run) : SamePlace r r.pop := by
  unfold pop
  split
  · exact .refl r
  · exact ⟨rfl, rfl, rfl⟩

theorem SamePlace.breaksBeforeCode {r r' : Run} (h : SamePlace r r') :
    r'.breaksBeforeCode = r.breaksBeforeCode := by
  rw [Run.breaksBeforeCode, Run.breaksBeforeCode, h.last, h.gap]

theorem SamePlace.breaksBeforeTag {r r' : Run} (h : SamePlace r r') (blockLevel : Bool) :
    r'.breaksBeforeTag blockLevel = r.breaksBeforeTag blockLevel := by
  rw [Run.breaksBeforeTag, Run.breaksBeforeTag, h.last, h.gap]

end Run

namespace Job

variable (j : Job)

theorem reformat_eq {r : Run} {code suffix result : List Char}
    (h : (j.style.reformatter (code ++ suffix) (j.codeWidth r)).result = .ok result) :
    ∃ r', j.reformat r code suffix = .ok ((Ruby.ofReformatted code suffix result).1, r') ∧
      r'.nesting = r.nesting ∧ r.SamePlace r' := by
  have hr : (Ruby.reformat j.style.reformatter code suffix (j.codeWidth r)).result =
      .ok (Ruby.ofReformatted code suffix result).1 := by
    simp only [Ruby.reformat, h]
  simp only [reformat, hr]
  exact ⟨_, rfl, rfl, ⟨rfl, rfl, rfl⟩⟩

/-- A run after a code tag of the given kind whose code came out as `code`. -/
def afterCode (r : Run) (tag : Erb.Tag) (kind : Ruby.Kind) (code : List Char) : Run :=
  let text := Erb.Tag.build tag.opener.text code tag.closer.text r.indent
  let r' := r.emit j.len j.width text (kind.isControlFlow || r.breaksBeforeCode)
  let r' := if kind == .elseLike || kind == .blockOpen then r'.push (.block code) else r'
  { r' with last := if kind.isControlFlow then .control else .text, gap := [] }

/-- Whether a fragment ends a block. -/
def closes (kind : Ruby.Kind) : Bool := kind == .close || kind == .elseLike

theorem codeTag_unmatched {text : List Char} {tag : Erb.Tag} {r : Run} (offset : Nat)
    (ht : Erb.Tag.split? text = some tag)
    (hk : closes (Ruby.classify j.style.checker tag.code) = true)
    (hr : r.nesting.topIsBlock = false) :
    ∃ r', j.codeTag r text offset = .error ⟨r', .structural (.unmatched
        (tag.opener.text ++ ' ' :: tag.code ++ ' ' :: tag.closer.text)
        (r.nesting.top?.map Frame.label)) offset⟩ ∧ r'.nesting = r.nesting ∧ r.SamePlace r' := by
  rw [codeTag, ht]
  simp only [closes] at hk
  simp only [hk, Run.nesting_note, hr, Bool.not_false, Bool.and_self, if_true]
  exact ⟨_, rfl, rfl, Run.samePlace_note r _⟩

theorem codeTag_close {text : List Char} {tag : Erb.Tag} {r : Run} (offset : Nat)
    (ht : Erb.Tag.split? text = some tag)
    (hk : closes (Ruby.classify j.style.checker tag.code) = true)
    (hr : r.nesting.topIsBlock = true) :
    ∃ r', j.codeTag r text offset =
        .ok (j.afterCode r' tag (Ruby.classify j.style.checker tag.code) tag.code) ∧
      r'.nesting = r.nesting.tail ∧ r.SamePlace r' := by
  rw [codeTag, ht]
  cases hc : Ruby.classify j.style.checker tag.code with
  | close | elseLike =>
    simp only [hc, Run.nesting_note, hr, Bool.not_true, Bool.and_false, Bool.false_eq_true,
      if_false]
    refine ⟨_, rfl, ?_, (Run.samePlace_note r _).trans (Run.samePlace_pop _)⟩
    rw [Run.nesting_pop, Run.nesting_note]
  | blockOpen | standalone => simp [closes, hc] at hk

/-- The code of a fragment that ends no block, once its reformatted form is known. -/
def codeFrom (checker : Ruby.Checker) (code result : List Char) : List Char :=
  match Ruby.classify checker code with
  | .blockOpen => (Ruby.ofReformatted code (Ruby.autocloseSuffix checker code) result).1
  | _ => (Ruby.ofReformatted code [] result).1

/-- What the reformatter is given for a fragment. -/
def codeGiven (checker : Ruby.Checker) (code : List Char) : List Char :=
  match Ruby.classify checker code with
  | .blockOpen => code ++ Ruby.autocloseSuffix checker code
  | _ => code ++ []

theorem codeTag_open {text : List Char} {tag : Erb.Tag} {r : Run} {result : List Char}
    (offset : Nat) (ht : Erb.Tag.split? text = some tag)
    (hk : closes (Ruby.classify j.style.checker tag.code) = false)
    (h : (j.style.reformatter (codeGiven j.style.checker tag.code) (j.codeWidth r)).result =
      .ok result) :
    ∃ r', j.codeTag r text offset =
        .ok (j.afterCode r' tag (Ruby.classify j.style.checker tag.code)
          (codeFrom j.style.checker tag.code result)) ∧
      r'.nesting = r.nesting ∧ r.SamePlace r' := by
  rw [codeTag, ht]
  cases hc : Ruby.classify j.style.checker tag.code with
  | close | elseLike => simp [closes, hc] at hk
  | blockOpen | standalone =>
    simp only [codeGiven, codeFrom, hc] at h ⊢
    obtain ⟨r', hr', hn, hs⟩ := j.reformat_eq (r := r.note (Log.debug ("classified ".toList ++
      Text.quoted tag.code ++ " as ".toList ++ Ruby.Kind.name _))) h
    refine ⟨r', ?_, hn, (Run.samePlace_note r _).trans hs⟩
    rw [if_neg (by simp), hr']
    rfl

theorem reformat_failed {r : Run} {code suffix : List Char} {e : Ruby.ReformatError}
    (h : (j.style.reformatter (code ++ suffix) (j.codeWidth r)).result = .error e) :
    ∃ r', j.reformat r code suffix = .error ⟨r', .reformatter e⟩ := by
  have hr : (Ruby.reformat j.style.reformatter code suffix (j.codeWidth r)).result = .error e := by
    simp only [Ruby.reformat, h]
  simp only [reformat, hr]
  exact ⟨_, rfl⟩

theorem codeTag_failed {text : List Char} {tag : Erb.Tag} {r : Run}
    {e : Ruby.ReformatError} (offset : Nat) (ht : Erb.Tag.split? text = some tag)
    (hk : closes (Ruby.classify j.style.checker tag.code) = false)
    (h : (j.style.reformatter (codeGiven j.style.checker tag.code) (j.codeWidth r)).result =
      .error e) : ∃ r', j.codeTag r text offset = .error ⟨r', .reformatter e⟩ := by
  rw [codeTag, ht]
  cases hc : Ruby.classify j.style.checker tag.code with
  | close | elseLike => simp [closes, hc] at hk
  | blockOpen | standalone =>
    simp only [codeGiven, hc] at h ⊢
    obtain ⟨r', hr'⟩ := j.reformat_failed (r := r.note (Log.debug ("classified ".toList ++
      Text.quoted tag.code ++ " as ".toList ++ Ruby.Kind.name _))) h
    refine ⟨r', ?_⟩
    rw [if_neg (by simp), hr']
    rfl

/-- How an open tag ends when it stands on one line. -/
def inlineClosing : Closing → List Char
  | .slash => [' ', '/', '>']
  | .plain => ['>']

/-- The run in which an open tag is written: a glued tag may first need room. -/
def beforeOpen (r : Run) (name attrs : List Char) (closing : Closing) : Run :=
  if r.breaksBeforeTag (Element.isBlockLevel name) then r
  else
    let needed := j.inlineWidth r name attrs (inlineClosing closing)
    { r with buffer := r.buffer.makeRoom j.len j.width needed }

/-- The layout of the attributes of an open tag that is written in a run. -/
def attributesIn (r : Run) (name attrs : List Char) (closing : Closing) : AttributeLayout :=
  AttributeLayout.of j.len j.width r.nesting.depth
    (if r.breaksBeforeTag (Element.isBlockLevel name) then 2 * r.nesting.depth
      else (j.beforeOpen r name attrs closing).buffer.column) name attrs (inlineClosing closing)

/-- An open tag with its attributes laid out. -/
def openText (depth : Nat) (name : List Char) (layout : AttributeLayout) (closing : Closing) :
    List Char :=
  '<' :: name ++ layout.text depth ++
    (if layout.isBroken then closing.text else inlineClosing closing)

/-- The run after a valid open tag. -/
def afterOpen (r : Run) (name attrs : List Char) (closing : Closing) : Run :=
  let r₁ := j.beforeOpen r name attrs closing
  let layout := j.attributesIn r name attrs closing
  let tag := openText r.nesting.depth name layout closing
  let r₂ := (r₁.note (layoutLog r.nesting.depth layout)).emit j.len j.width tag
    (r.breaksBeforeTag (Element.isBlockLevel name))
  let r₃ := if Element.isSelfClosing name closing then r₂
    else r₂.push (.element name (j.table.restore tag))
  r₃.tagWritten (Element.isBlockLevel name)

theorem nesting_beforeOpen (r : Run) (name attrs : List Char) (closing : Closing) :
    (j.beforeOpen r name attrs closing).nesting = r.nesting := by
  unfold beforeOpen
  split <;> rfl

theorem openTag_invalid {r : Run} {name attrs : List Char} {closing : Closing} {offset : Nat}
    (h : Element.isValidName name = false) :
    j.openTag r name attrs closing offset =
      .error ⟨r, .structural (.unknownTag name) offset⟩ := by
  unfold openTag
  rw [h]
  rfl

theorem openTag_valid {r : Run} {name attrs : List Char} {closing : Closing} {offset : Nat}
    (h : Element.isValidName name = true) :
    j.openTag r name attrs closing offset = .ok (j.afterOpen r name attrs closing) := by
  unfold openTag afterOpen attributesIn
  rw [h]
  cases closing <;> rfl

/-- The run after a close tag that matches what is open. -/
def afterClose (r : Run) (name : List Char) : Run :=
  let blockLevel := Element.isBlockLevel name
  (r.pop.emit j.len j.width ('<' :: '/' :: name ++ ['>'])
    (r.breaksBeforeTag blockLevel)).tagWritten blockLevel

theorem closeTag_unmatched {r : Run} {name : List Char} {offset : Nat}
    (h : r.nesting.topIsElement name = false) :
    j.closeTag r name offset = .error ⟨r, .structural (.unmatched ('<' :: '/' :: name ++ ['>'])
      (r.nesting.top?.map Frame.label)) offset⟩ := by
  rw [closeTag, h]
  rfl

theorem closeTag_open {r : Run} {name : List Char} {offset : Nat}
    (h : r.nesting.topIsElement name = true) :
    j.closeTag r name offset = .ok (j.afterClose r name) := by
  rw [closeTag, h, afterClose, ← (Run.samePlace_pop r).breaksBeforeTag]
  rfl

theorem nesting_afterOpen (r : Run) (name attrs : List Char) (closing : Closing) :
    (j.afterOpen r name attrs closing).nesting =
      if Element.isSelfClosing name closing then r.nesting
      else .element name (j.table.restore (openText r.nesting.depth name
        (j.attributesIn r name attrs closing) closing)) :: r.nesting := by
  unfold afterOpen
  cases Element.isSelfClosing name closing <;> simp [nesting_beforeOpen]

theorem nesting_afterClose (r : Run) (name : List Char) :
    (j.afterClose r name).nesting = r.nesting.tail := by
  simp [afterClose]

variable {j : Job}

/-- All that a code tag can do: it closes the innermost block, or it opens one or is written where it
stands. -/
theorem codeTag_cases {text : List Char} {r r' : Run} {offset : Nat}
    (h : j.codeTag r text offset = .ok r') :
    ∃ tag r₁ code, Erb.Tag.split? text = some tag ∧ r.SamePlace r₁ ∧
      r' = j.afterCode r₁ tag (Ruby.classify j.style.checker tag.code) code ∧
      ((closes (Ruby.classify j.style.checker tag.code) = true ∧ r.nesting.topIsBlock = true ∧
          r₁.nesting = r.nesting.tail ∧ code = tag.code) ∨
        (closes (Ruby.classify j.style.checker tag.code) = false ∧ r₁.nesting = r.nesting ∧
          ∃ result, (j.style.reformatter (codeGiven j.style.checker tag.code)
              (j.codeWidth r)).result = .ok result ∧
            code = codeFrom j.style.checker tag.code result)) := by
  cases ht : Erb.Tag.split? text with
  | none =>
    rw [codeTag, ht] at h
    simp at h
  | some tag =>
    cases hk : closes (Ruby.classify j.style.checker tag.code) with
    | true =>
      cases hb : r.nesting.topIsBlock with
      | false =>
        obtain ⟨r₁, he, -⟩ := j.codeTag_unmatched offset ht hk hb
        rw [he] at h
        simp at h
      | true =>
        obtain ⟨r₁, he, hn, hs⟩ := j.codeTag_close offset ht hk hb
        obtain rfl := Except.ok.inj (he.symm.trans h)
        exact ⟨tag, r₁, tag.code, rfl, hs, rfl, .inl ⟨hk, rfl, hn, rfl⟩⟩
    | false =>
      cases hresult : (j.style.reformatter (codeGiven j.style.checker tag.code)
          (j.codeWidth r)).result with
      | error e =>
        obtain ⟨r₁, he⟩ := j.codeTag_failed offset ht hk hresult
        rw [he] at h
        simp at h
      | ok result =>
        obtain ⟨r₁, he, hn, hs⟩ := j.codeTag_open offset ht hk hresult
        obtain rfl := Except.ok.inj (he.symm.trans h)
        exact ⟨tag, r₁, _, rfl, hs, rfl, .inr ⟨hk, hn, result, hresult, rfl⟩⟩

theorem gapFrom_value_eq_ok {cur : List Char} {offset : Nat} {n : Name} {text : List Char}
    {fs : List (Text.Found (Name × List Char))} {r r' : Run}
    (h : j.gapFrom cur offset (.value (n, text) :: fs) r = .ok r') :
    ∃ r₁, j.codeTag (r.text j.len j.width cur.reverse) text offset = .ok r₁ ∧
      j.gapFrom [] (offset + Name.size) fs r₁ = .ok r' := by
  rw [gapFrom] at h
  cases hc : j.codeTag (r.text j.len j.width cur.reverse) text offset with
  | error halt =>
    rw [hc] at h
    simp [bind, Except.bind] at h
  | ok r₁ =>
    rw [hc] at h
    exact ⟨r₁, rfl, h⟩

theorem pieces_nil_eq_ok {offset : Nat} {r r' : Run} (h : j.pieces offset [] r = .ok r') :
    r.nesting = [] ∧ r = r' := by
  rw [pieces] at h
  cases hn : r.nesting with
  | nil =>
    rw [hn] at h
    exact ⟨rfl, Except.ok.inj h⟩
  | cons f fs =>
    rw [hn] at h
    simp at h

theorem pieces_cons_eq_ok {offset : Nat} {p : Piece} {ps : List Piece} {r r' : Run}
    (h : j.pieces offset (p :: ps) r = .ok r') :
    ∃ r₁, j.piece r offset p = .ok r₁ ∧ j.pieces (offset + p.text.length) ps r₁ = .ok r' := by
  rw [pieces] at h
  cases hp : j.piece r offset p with
  | error halt =>
    rw [hp] at h
    simp [bind, Except.bind] at h
  | ok r₁ =>
    rw [hp] at h
    exact ⟨r₁, rfl, h⟩

section Offset

variable {r r' : Run} {offset : Nat}

-- The offset of a step only shows in its fault.

theorem codeTag_offset {text : List Char} (h : j.codeTag r text offset = .ok r') (offset' : Nat) :
    j.codeTag r text offset' = .ok r' := by
  unfold codeTag at h ⊢
  cases ht : Erb.Tag.split? text with
  | none => simp [ht] at h
  | some tag =>
    simp only [ht] at h ⊢
    split at h
    · exact absurd h (by simp [throw, throwThe, MonadExceptOf.throw])
    · rename_i hopen
      rwa [if_neg hopen]

theorem closeTag_offset {name : List Char} (h : j.closeTag r name offset = .ok r')
    (offset' : Nat) : j.closeTag r name offset' = .ok r' := by
  cases hopen : r.nesting.topIsElement name with
  | false =>
    rw [j.closeTag_unmatched hopen] at h
    simp at h
  | true => rwa [j.closeTag_open hopen] at h ⊢

theorem openTag_offset {name attrs : List Char} {closing : Closing}
    (h : j.openTag r name attrs closing offset = .ok r') (offset' : Nat) :
    j.openTag r name attrs closing offset' = .ok r' := by
  cases hname : Element.isValidName name with
  | false =>
    rw [j.openTag_invalid hname] at h
    simp at h
  | true => rwa [j.openTag_valid hname] at h ⊢

end Offset

end Job

end ErbLayout.Template
