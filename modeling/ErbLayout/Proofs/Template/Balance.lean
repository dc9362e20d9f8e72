import Mathlib.Data.List.Forall2
import ErbLayout.Proofs.Layout.Wrap
import ErbLayout.Proofs.Markup.Cut
import ErbLayout.Proofs.Placeholder.Entries
import ErbLayout.Proofs.Template.Steps
import ErbLayout.Proofs.Text.Words
/-!
Which templates are accepted. A recogniser reads what a template asks of the stack of open elements
and blocks, and knows nothing of the layout; a template is laid out exactly when it is balanced, and
else its fault is the first violation.
-/

namespace ErbLayout.Template

open Markup Placeholder
open Text (Found)

/-- Something open, without what the layout knows of it. -/
inductive Opened where
  | element (name : List Char)
  | block
  deriving DecidableEq, Repr

def Opened.label : Opened → List Char
  | .element name => name
  | .block => Frame.blockLabel

/-- What a place of a template asks of the stack. -/
inductive Demand where
  | refuse (cause : Cause)
  | opening (name : List Char) (closing : Closing)
  | close (name : List Char)
  | code (tag : Erb.Tag)
  deriving DecidableEq, Repr

namespace Demand

def closeText (name : List Char) : List Char := '<' :: '/' :: name ++ ['>']

def codeText (tag : Erb.Tag) : List Char :=
  tag.opener.text ++ ' ' :: tag.code ++ ' ' :: tag.closer.text

/-- Whether a demand can be met at all. -/
def isSound : Demand → Bool
  | .refuse _ => false
  | .opening name _ => Element.isValidName name
  | _ => true

/-- One move of the plain pushdown recogniser; the stack has its innermost symbol first. -/
def move (checker : Ruby.Checker) (stack : List Opened) : Demand → Option (List Opened)
  | .refuse _ => some stack
  | .opening name closing =>
    some (if Element.isSelfClosing name closing then stack else .element name :: stack)
  | .close name =>
    match stack with
    | .element m :: rest => if m = name then some rest else none
    | _ => none
  | .code tag =>
    match Ruby.classify checker tag.code, stack with
    | .standalone, _ => some stack
    | .blockOpen, _ => some (.block :: stack)
    | .close, .block :: rest => some rest
    | .elseLike, .block :: rest => some (.block :: rest)
    | _, _ => none

/-- Why a demand cannot be met. -/
def cause (stack : List Opened) : Demand → Cause
  | .refuse c => c
  | .opening name _ => .unknownTag name
  | .close name => .unmatched (closeText name) (stack.head?.map Opened.label)
  | .code tag => .unmatched (codeText tag) (stack.head?.map Opened.label)

/-- The stack after a demand, or why the demand cannot be met. -/
def meet (checker : Ruby.Checker) (stack : List Opened) (d : Demand) :
    Except Cause (List Opened) :=
  match d.isSound, d.move checker stack with
  | true, some stack' => .ok stack'
  | _, _ => .error (d.cause stack)

/-- The demands of the code tags that a scan found, with their offsets. -/
def ofFound : Nat → List (Found (Name × List Char)) → List (Nat × Demand)
  | _, [] => []
  | offset, .char _ :: fs => ofFound (offset + 1) fs
  | offset, .value (_, text) :: fs =>
    ((Erb.Tag.split? text).map fun tag => (offset, .code tag)).toList ++
      ofFound (offset + Name.size) fs

/-- The demands of a gap: its lexical faults come before its code tags. -/
def ofGap (table : Table) (offset : Nat) (text : List Char) : List (Nat × Demand) :=
  match Text.find? readSpacedAttribute 0 text with
  | some (n, _, _) => [(offset + n, .refuse .spacedAttribute)]
  | none =>
    match Text.find? readTagStart 0 text with
    | some (n, _, _) =>
      [(offset + n, .refuse (.stray (Text.firstLine (table.restore (text.drop n)))))]
    | none => ofFound offset (Text.scan table.codeTags.read text)

def ofPiece (table : Table) (offset : Nat) : Piece → List (Nat × Demand)
  | .gap text => ofGap table offset text
  | .token (.comment _) => []
  | .token (.close _ name) => [(offset, .close name)]
  | .token (.opening _ name _ closing) => [(offset, .opening name closing)]
  | .rawText name content closeTag =>
    if closeTag.isEmpty then [] else [(offset + content.length, .close name)]

def ofPieces (table : Table) : Nat → List Piece → List (Nat × Demand)
  | _, [] => []
  | offset, p :: ps => ofPiece table offset p ++ ofPieces table (offset + p.text.length) ps

end Demand

/-- The first demand that cannot be met, and what is open there. -/
structure Violation where
  cause : Cause
  offset : Nat
  stack : List Opened
  deriving DecidableEq, Repr

/-- The stack after all demands are met one after another. -/
def recognise (checker : Ruby.Checker) : List Opened → List (Nat × Demand) →
    Except Violation (List Opened)
  | stack, [] => .ok stack
  | stack, (offset, d) :: ds =>
    match d.meet checker stack with
    | .ok stack' => recognise checker stack' ds
    | .error cause => .error ⟨cause, offset, stack⟩

/-- At the end of a template nothing may be open. -/
def conclude (end_ : Nat) : List Opened → Except Violation (List Opened)
  | [] => .ok []
  | o :: os => .error ⟨.unclosed o.label, end_, o :: os⟩

/-- The verdict on a protected template: the first violation if there is one. -/
def verdict (checker : Ruby.Checker) (p : Protected) : Except Violation (List Opened) :=
  (recognise checker [] (Demand.ofPieces p.table 0 (Piece.cut p.working))).bind
    (conclude p.working.length)

theorem recognise_append (checker : Ruby.Checker) (stack : List Opened)
    (as bs : List (Nat × Demand)) :
    recognise checker stack (as ++ bs) =
      (recognise checker stack as).bind fun stack' => recognise checker stack' bs := by
  induction as generalizing stack with
  | nil => rfl
  | cons a as ih =>
    obtain ⟨offset, d⟩ := a
    rw [List.cons_append, recognise, recognise]
    cases d.meet checker stack with
    | ok stack' => exact ih stack'
    | error cause => rfl

/-- A frame is an open thing together with what the layout keeps of it. -/
inductive InFrame : Frame → Opened → Prop
  | element (name raw : List Char) : InFrame (.element name raw) (.element name)
  | block (code : List Char) : InFrame (.block code) .block

/-- The frames of a run are those that the recogniser has open. -/
def Shows (n : Nesting) (stack : List Opened) : Prop := List.Forall₂ InFrame n stack

namespace Shows

variable {n : Nesting} {stack : List Opened}

theorem top_label (h : Shows n stack) :
    n.top?.map Frame.label = stack.head?.map Opened.label := by
  cases h with
  | nil => rfl
  | cons hf _ => cases hf <;> rfl

theorem length_dump (h : Shows n stack) : n.dump.length = stack.length := by
  rw [Nesting.dump, List.length_map, List.length_reverse]
  exact List.Forall₂.length_eq h

theorem topIsBlock_iff (h : Shows n stack) :
    n.topIsBlock = true ↔ ∃ rest, stack = .block :: rest := by
  cases h with
  | nil => simp [Nesting.topIsBlock]
  | cons hf _ => cases hf <;> simp [Nesting.topIsBlock]

theorem topIsElement_iff (h : Shows n stack) (name : List Char) :
    n.topIsElement name = true ↔ ∃ rest, stack = .element name :: rest := by
  cases h with
  | nil => simp [Nesting.topIsElement]
  | cons hf _ => cases hf <;> simp [Nesting.topIsElement]

theorem tail {o : Opened} (h : Shows n (o :: stack)) : Shows n.tail stack := by
  rcases h with _ | ⟨-, h⟩
  exact h

theorem nil_iff (h : Shows n stack) : n = [] ↔ stack = [] := by
  cases h <;> simp

end Shows

/-- A step goes on with the frames that the recogniser has, or stops where it stops. -/
def Agrees (out : Step) : Except Violation (List Opened) → Prop
  | .ok stack => ∃ r, out = .ok r ∧ Shows r.nesting stack
  | .error v => ∃ r, out = .error ⟨r, .structural v.cause v.offset⟩ ∧ Shows r.nesting v.stack

theorem Agrees.bind {out : Step} {found : Except Violation (List Opened)} {next : Run → Step}
    {more : List Opened → Except Violation (List Opened)} (h : Agrees out found)
    (hnext : ∀ r stack, found = .ok stack → Shows r.nesting stack → Agrees (next r) (more stack)) :
    Agrees (out >>= next) (found.bind more) := by
  cases found with
  | ok stack =>
    obtain ⟨r, rfl, hr⟩ := h
    exact hnext r stack rfl hr
  | error v =>
    obtain ⟨r, rfl, hr⟩ := h
    exact ⟨r, rfl, hr⟩

theorem recognise_singleton (checker : Ruby.Checker) (stack : List Opened) (offset : Nat)
    (d : Demand) :
    recognise checker stack [(offset, d)] =
      match d.meet checker stack with
      | .ok stack' => .ok stack'
      | .error cause => .error ⟨cause, offset, stack⟩ := by
  rw [recognise]
  cases d.meet checker stack <;> rfl

namespace Job

variable {j : Job}

theorem shows_afterCode {r : Run} {stack : List Opened} (hr : Shows r.nesting stack)
    (tag : Erb.Tag) (kind : Ruby.Kind) (code : List Char) :
    Shows (j.afterCode r tag kind code).nesting
      (if kind = .elseLike ∨ kind = .blockOpen then .block :: stack else stack) := by
  cases kind with
  | close | standalone => simpa [afterCode] using hr
  | elseLike | blockOpen => simpa [afterCode] using .cons (.block code) hr

theorem codeTag_agrees (h : Total j.style.reformatter) {text : List Char} {tag : Erb.Tag}
    (ht : Erb.Tag.split? text = some tag) {r : Run} {stack : List Opened}
    (hr : Shows r.nesting stack) (offset : Nat) :
    Agrees (j.codeTag r text offset)
      (recognise j.style.checker stack [(offset, .code tag)]) := by
  rw [recognise_singleton]
  cases hk : closes (Ruby.classify j.style.checker tag.code) with
  | false =>
    obtain ⟨result, hresult⟩ := h (codeGiven j.style.checker tag.code) (j.codeWidth r)
    obtain ⟨r', hc, hn, -⟩ := j.codeTag_open offset ht hk hresult
    have hs := shows_afterCode (j := j) (hn ▸ hr) tag (Ruby.classify j.style.checker tag.code)
      (codeFrom j.style.checker tag.code result)
    rw [hc]
    cases hkind : Ruby.classify j.style.checker tag.code with
    | close | elseLike => simp [closes, hkind] at hk
    | blockOpen | standalone =>
      rw [hkind] at hs
      simp only [Demand.meet, Demand.isSound, Demand.move, hkind]
      exact ⟨_, rfl, by simpa using hs⟩
  | true =>
    cases htop : r.nesting.topIsBlock with
    | false =>
      obtain ⟨r', hc, hn, -⟩ := j.codeTag_unmatched offset ht hk htop
      have hblock : ∀ rest, stack ≠ .block :: rest := by
        intro rest hrest
        rw [(hr.topIsBlock_iff).2 ⟨rest, hrest⟩] at htop
        exact absurd htop (by simp)
      have hmeet : Demand.meet j.style.checker stack (.code tag) =
          .error (.unmatched (Demand.codeText tag) (stack.head?.map Opened.label)) := by
        cases hkind : Ruby.classify j.style.checker tag.code with
        | blockOpen | standalone => simp [closes, hkind] at hk
        | close | elseLike =>
          simp only [Demand.meet, Demand.isSound, Demand.move, Demand.cause, hkind]
          rcases stack with _ | ⟨_ | _, rest⟩
          · rfl
          · rfl
          · exact absurd rfl (hblock rest)
      rw [hc, hmeet, hr.top_label]
      exact ⟨r', rfl, hn ▸ hr⟩
    | true =>
      obtain ⟨r', hc, hn, -⟩ := j.codeTag_close offset ht hk htop
      obtain ⟨rest, rfl⟩ := (hr.topIsBlock_iff).1 htop
      have hrest : Shows r'.nesting rest := hn ▸ hr.tail
      have hs := shows_afterCode (j := j) hrest tag (Ruby.classify j.style.checker tag.code)
        tag.code
      rw [hc]
      cases hkind : Ruby.classify j.style.checker tag.code with
      | blockOpen | standalone => simp [closes, hkind] at hk
      | close | elseLike =>
        rw [hkind] at hs
        simp only [Demand.meet, Demand.isSound, Demand.move, hkind]
        exact ⟨_, rfl, by simpa using hs⟩

theorem gapFrom_agrees (h : Total j.style.reformatter) {fs : List (Found (Name × List Char))}
    (hfs : ∀ e, Found.value e ∈ fs → ∃ tag, Erb.Tag.split? e.2 = some tag) {r : Run}
    {stack : List Opened} (hr : Shows r.nesting stack) (cur : List Char) (offset : Nat) :
    Agrees (j.gapFrom cur offset fs r)
      (recognise j.style.checker stack (Demand.ofFound offset fs)) := by
  induction fs generalizing r stack cur offset with
  | nil => exact ⟨_, rfl, by simpa using hr⟩
  | cons f fs ih =>
    have hrest : ∀ e, Found.value e ∈ fs → ∃ tag, Erb.Tag.split? e.2 = some tag :=
      fun e he => hfs e (List.mem_cons_of_mem f he)
    cases f with
    | char c => exact ih hrest hr _ _
    | value e =>
      obtain ⟨tag, ht⟩ := hfs e List.mem_cons_self
      rw [gapFrom, Demand.ofFound, ht, Option.map_some, Option.toList_some, recognise_append]
      refine Agrees.bind (codeTag_agrees h ht (by simpa using hr) offset) ?_
      intro r' stack' _ hr'
      exact ih hrest hr' _ _

theorem gap_agrees (h : Total j.style.reformatter)
    (htags : ∀ e ∈ j.table.codeTags, ∃ tag, Erb.Tag.split? e.2 = some tag) {r : Run}
    {stack : List Opened} (hr : Shows r.nesting stack) (text : List Char) (offset : Nat) :
    Agrees (j.gap r text offset)
      (recognise j.style.checker stack (Demand.ofGap j.table offset text)) := by
  rw [gap, Demand.ofGap]
  cases Text.find? readSpacedAttribute 0 text with
  | some found =>
    rw [recognise_singleton]
    exact ⟨r, rfl, hr⟩
  | none =>
    cases Text.find? readTagStart 0 text with
    | some found =>
      rw [recognise_singleton]
      exact ⟨r, rfl, hr⟩
    | none => exact gapFrom_agrees h (fun e he => htags e (mem_of_mem_scan he)) hr [] offset

theorem openTag_agrees {r : Run} {stack : List Opened} (hr : Shows r.nesting stack)
    (name attrs : List Char) (closing : Closing) (offset : Nat) :
    Agrees (j.openTag r name attrs closing offset)
      (recognise j.style.checker stack [(offset, .opening name closing)]) := by
  rw [recognise_singleton]
  simp only [Demand.meet, Demand.isSound, Demand.move]
  cases hv : Element.isValidName name with
  | false =>
    rw [openTag_invalid j hv]
    exact ⟨r, rfl, hr⟩
  | true =>
    rw [openTag_valid j hv]
    cases hs : Element.isSelfClosing name closing with
    | true => exact ⟨_, rfl, by simpa [nesting_afterOpen, hs] using hr⟩
    | false =>
      exact ⟨_, rfl, by simpa [nesting_afterOpen, hs] using .cons (.element name _) hr⟩

theorem closeTag_agrees {r : Run} {stack : List Opened} (hr : Shows r.nesting stack)
    (name : List Char) (offset : Nat) :
    Agrees (j.closeTag r name offset)
      (recognise j.style.checker stack [(offset, .close name)]) := by
  rw [recognise_singleton]
  cases htop : r.nesting.topIsElement name with
  | true =>
    obtain ⟨rest, rfl⟩ := (hr.topIsElement_iff name).1 htop
    rw [closeTag_open j htop]
    simp only [Demand.meet, Demand.isSound, Demand.move, if_true]
    exact ⟨_, rfl, by simpa [nesting_afterClose] using hr.tail⟩
  | false =>
    have hstack : ∀ rest, stack ≠ .element name :: rest := by
      intro rest hrest
      rw [(hr.topIsElement_iff name).2 ⟨rest, hrest⟩] at htop
      exact absurd htop (by simp)
    have hmeet : Demand.meet j.style.checker stack (.close name) =
        .error (.unmatched (Demand.closeText name) (stack.head?.map Opened.label)) := by
      rcases stack with _ | ⟨m | _, rest⟩
      · rfl
      · have hm : m ≠ name := fun h => hstack rest (by rw [h])
        simp only [Demand.meet, Demand.isSound, Demand.move, if_neg hm]
        rfl
      · rfl
    rw [hmeet, closeTag_unmatched j htop, hr.top_label]
    exact ⟨r, rfl, hr⟩

theorem shows_rawText {r : Run} {name : List Char} {rest : List Opened}
    (hr : Shows r.nesting (.element name :: rest)) (content closeTag : List Char) :
    Shows (j.rawText r name content closeTag).nesting
      (if closeTag.isEmpty then .element name :: rest else rest) := by
  unfold rawText
  cases closeTag.isEmpty with
  | true => cases Text.allBlank content <;> simpa using hr
  | false => cases Text.allBlank content <;> simpa using hr.tail

/-- What must be open before pieces that begin with the body of `raw`. -/
def Awaits (raw : Option (List Char)) (stack : List Opened) : Prop :=
  ∀ name, raw = some name → ∃ rest, stack = .element name :: rest

theorem awaits_none (stack : List Opened) : Awaits none stack := by
  intro name h
  simp at h

theorem awaits_after {checker : Ruby.Checker} {stack stack' : List Opened} {t : Token}
    {offset : Nat} {table : Table}
    (h : recognise checker stack (Demand.ofPiece table offset (.token t)) = .ok stack') :
    Awaits (Piece.rawTextAfter t) stack' := by
  cases t with
  | comment text => exact awaits_none _
  | close text name => exact awaits_none _
  | opening text name attrs closing =>
    intro raw hraw
    simp only [Piece.rawTextAfter] at hraw
    split at hraw
    · rename_i hself
      simp only [Bool.and_eq_true, Bool.not_eq_true'] at hself
      obtain rfl : name = raw := by simpa using hraw
      simp only [Demand.ofPiece, recognise_singleton, Demand.meet, Demand.isSound, Demand.move,
        hself.2] at h
      cases hv : Element.isValidName name with
      | false => simp [hv] at h
      | true =>
        refine ⟨stack, ?_⟩
        simpa [hv] using h.symm
    · simp at hraw

theorem piece_agrees (h : Total j.style.reformatter)
    (htags : ∀ e ∈ j.table.codeTags, ∃ tag, Erb.Tag.split? e.2 = some tag) {r : Run}
    {stack : List Opened} (hr : Shows r.nesting stack) (offset : Nat) {p : Piece}
    (hp : ∀ name content closeTag, p ≠ .rawText name content closeTag) :
    Agrees (j.piece r offset p)
      (recognise j.style.checker stack (Demand.ofPiece j.table offset p)) := by
  cases p with
  | gap text => exact gap_agrees h htags hr text offset
  | rawText name content closeTag => exact absurd rfl (hp name content closeTag)
  | token t =>
    cases t with
    | comment text => exact ⟨_, rfl, by simpa [comment] using hr⟩
    | close text name => exact closeTag_agrees hr name offset
    | opening text name attrs closing => exact openTag_agrees hr name attrs closing offset

/-- The verdict on pieces that begin at an offset. -/
def verdictFrom (checker : Ruby.Checker) (table : Table) (stack : List Opened) (offset : Nat)
    (ps : List Piece) : Except Violation (List Opened) :=
  (recognise checker stack (Demand.ofPieces table offset ps)).bind
    (conclude (offset + (ps.flatMap Piece.text).length))

theorem verdictFrom_cons (checker : Ruby.Checker) (table : Table) (stack : List Opened)
    (offset : Nat) (p : Piece) (ps : List Piece) :
    verdictFrom checker table stack offset (p :: ps) =
      (recognise checker stack (Demand.ofPiece table offset p)).bind fun stack' =>
        verdictFrom checker table stack' (offset + p.text.length) ps := by
  unfold verdictFrom
  rw [Demand.ofPieces, recognise_append, List.flatMap_cons, List.length_append, ← Nat.add_assoc]
  cases recognise checker stack (Demand.ofPiece table offset p) <;> rfl

theorem pieces_nil_agrees {r : Run} {stack : List Opened} (hr : Shows r.nesting stack)
    (offset : Nat) :
    Agrees (j.pieces offset [] r) (verdictFrom j.style.checker j.table stack offset []) := by
  cases stack with
  | nil =>
    have hn : r.nesting = [] := hr.nil_iff.2 rfl
    refine ⟨r, ?_, hr⟩
    rw [pieces, hn]
  | cons o os =>
    obtain ⟨f, fs, hf⟩ := List.exists_cons_of_ne_nil (fun h => by simpa using hr.nil_iff.1 h)
    have hlabel : f.label = o.label := by simpa [Nesting.top?, hf] using hr.top_label
    refine ⟨r, ?_, hr⟩
    rw [pieces, hf]
    simp only [hlabel]
    rfl

theorem pieces_cons_agrees {r : Run} {stack : List Opened} {offset : Nat} {p : Piece}
    {ps : List Piece}
    (h : Agrees (j.piece r offset p)
      (recognise j.style.checker stack (Demand.ofPiece j.table offset p)))
    (hps : ∀ r' stack', recognise j.style.checker stack (Demand.ofPiece j.table offset p) =
        .ok stack' → Shows r'.nesting stack' →
      Agrees (j.pieces (offset + p.text.length) ps r')
        (verdictFrom j.style.checker j.table stack' (offset + p.text.length) ps)) :
    Agrees (j.pieces offset (p :: ps) r)
      (verdictFrom j.style.checker j.table stack offset (p :: ps)) := by
  rw [pieces, verdictFrom_cons]
  exact Agrees.bind h hps

theorem rawText_agrees {r : Run} {name : List Char} {rest : List Opened}
    (hr : Shows r.nesting (.element name :: rest)) (content closeTag : List Char) (offset : Nat) :
    Agrees (j.piece r offset (.rawText name content closeTag))
      (recognise j.style.checker (.element name :: rest)
        (Demand.ofPiece j.table offset (.rawText name content closeTag))) := by
  have hs := shows_rawText (j := j) hr content closeTag
  rw [piece, Demand.ofPiece]
  cases hc : closeTag.isEmpty with
  | true => exact ⟨_, rfl, by simpa [hc] using hs⟩
  | false =>
    rw [if_neg (by simp), recognise_singleton]
    simp only [Demand.meet, Demand.isSound, Demand.move, if_true]
    exact ⟨_, rfl, by simpa [hc] using hs⟩

theorem pieces_agrees (h : Total j.style.reformatter)
    (htags : ∀ e ∈ j.table.codeTags, ∃ tag, Erb.Tag.split? e.2 = some tag)
    {raw : Option (List Char)} {ps : List Piece} (hps : Piece.Ordered raw ps) {r : Run}
    {stack : List Opened} (hr : Shows r.nesting stack) (hraw : Awaits raw stack) (offset : Nat) :
    Agrees (j.pieces offset ps r) (verdictFrom j.style.checker j.table stack offset ps) := by
  induction hps generalizing r stack offset with
  | nil raw => exact pieces_nil_agrees hr offset
  | unclosed name content =>
    obtain ⟨rest, rfl⟩ := hraw name rfl
    refine pieces_cons_agrees (rawText_agrees hr content [] offset) ?_
    intro r' stack' _ hr'
    exact pieces_nil_agrees hr' _
  | @rawText name content closeTag ps hclose _ ih =>
    obtain ⟨rest, rfl⟩ := hraw name rfl
    refine pieces_cons_agrees (rawText_agrees hr content closeTag offset) ?_
    intro r' stack' _ hr'
    exact ih hr' (awaits_none _) _
  | last text =>
    refine pieces_cons_agrees (piece_agrees h htags hr offset (by simp)) ?_
    intro r' stack' _ hr'
    exact pieces_nil_agrees hr' _
  | @token text t ps _ ih =>
    refine pieces_cons_agrees (piece_agrees h htags hr offset (by simp)) ?_
    intro r₁ stack₁ _ hr₁
    refine pieces_cons_agrees (piece_agrees h htags hr₁ _ (by simp)) ?_
    intro r₂ stack₂ hfound hr₂
    exact ih hr₂ (awaits_after hfound) _

theorem run_agrees (style : Style) (names : Names) (source : List Char)
    (h : Total style.reformatter) :
    Agrees (Job.run ⟨style, protect names source⟩)
      (verdict style.checker (protect names source)) := by
  let j : Job := ⟨style, protect names source⟩
  have hstart : Shows j.start.nesting [] := List.Forall₂.nil
  have hs : Agrees (j.pieces 0 (Piece.cut j.protected_.working) j.start)
      (verdictFrom style.checker j.table [] 0 (Piece.cut j.protected_.working)) :=
    pieces_agrees (j := j) h (fun e he => split?_of_mem_codeTags he) (Piece.cut_ordered _)
      hstart (awaits_none _) 0
  rw [verdictFrom, Piece.cut_text, Nat.zero_add] at hs
  exact hs

end Job

/-- The plain pushdown recogniser over all demands of a template. -/
def pushdown (checker : Ruby.Checker) (stack : List Opened) (ds : List (Nat × Demand)) :
    Option (List Opened) :=
  ds.foldlM (fun stack d => d.2.move checker stack) stack

/-- A protected template without lexical faults, with valid names, and with all its elements and
blocks closed in order. -/
structure Balanced (checker : Ruby.Checker) (p : Protected) : Prop where
  gaps : ∀ text, Piece.gap text ∈ Piece.cut p.working →
    Text.find? readSpacedAttribute 0 text = none ∧ Text.find? readTagStart 0 text = none
  names : ∀ text name attrs closing,
    Piece.token (.opening text name attrs closing) ∈ Piece.cut p.working →
      Element.isValidName name = true
  nested : pushdown checker [] (Demand.ofPieces p.table 0 (Piece.cut p.working)) = some []

theorem recognise_eq_ok_iff (checker : Ruby.Checker) (stack stack' : List Opened)
    (ds : List (Nat × Demand)) :
    recognise checker stack ds = .ok stack' ↔
      (∀ d ∈ ds, d.2.isSound = true) ∧ pushdown checker stack ds = some stack' := by
  induction ds generalizing stack with
  | nil => simp [recognise, pushdown]
  | cons d ds ih =>
    obtain ⟨offset, d⟩ := d
    rw [recognise, Demand.meet, pushdown, List.foldlM_cons, List.forall_mem_cons]
    cases hsound : d.isSound with
    | false => simp
    | true =>
      cases hmove : d.move checker stack with
      | none => simp
      | some stack₁ => simpa [pushdown] using ih stack₁

theorem ofFound_sound (offset : Nat) (fs : List (Found (Name × List Char))) :
    ∀ d ∈ Demand.ofFound offset fs, d.2.isSound = true := by
  induction fs generalizing offset with
  | nil => simp [Demand.ofFound]
  | cons f fs ih =>
    cases f with
    | char c => exact ih _
    | value e =>
      intro d hd
      rw [Demand.ofFound, List.mem_append] at hd
      rcases hd with hd | hd
      · obtain ⟨tag, -, rfl⟩ := Option.map_eq_some_iff.1 (Option.mem_toList.1 hd)
        rfl
      · exact ih _ d hd

/-- What the recogniser wants of a piece by itself. -/
def CleanPiece : Piece → Prop
  | .gap text =>
    Text.find? readSpacedAttribute 0 text = none ∧ Text.find? readTagStart 0 text = none
  | .token (.opening _ name _ _) => Element.isValidName name = true
  | _ => True

theorem ofPiece_sound_iff (table : Table) (offset : Nat) (p : Piece) :
    (∀ d ∈ Demand.ofPiece table offset p, d.2.isSound = true) ↔ CleanPiece p := by
  cases p with
  | gap text =>
    rw [Demand.ofPiece, Demand.ofGap, CleanPiece]
    cases Text.find? readSpacedAttribute 0 text with
    | some found => simp [Demand.isSound]
    | none =>
      cases Text.find? readTagStart 0 text with
      | some found => simp [Demand.isSound]
      | none => simpa using fun o d => ofFound_sound offset _ (o, d)
  | token t => cases t <;> simp [Demand.ofPiece, CleanPiece, Demand.isSound]
  | rawText name content closeTag =>
    cases hc : closeTag.isEmpty <;> simp [Demand.ofPiece, CleanPiece, Demand.isSound, hc]

theorem ofPieces_sound_iff (table : Table) (offset : Nat) (ps : List Piece) :
    (∀ d ∈ Demand.ofPieces table offset ps, d.2.isSound = true) ↔ ∀ p ∈ ps, CleanPiece p := by
  induction ps generalizing offset with
  | nil => simp [Demand.ofPieces]
  | cons p ps ih =>
    rw [Demand.ofPieces, List.forall_mem_append, List.forall_mem_cons, ofPiece_sound_iff, ih]

theorem cleanPieces_iff (ps : List Piece) :
    (∀ p ∈ ps, CleanPiece p) ↔
      (∀ text, Piece.gap text ∈ ps → Text.find? readSpacedAttribute 0 text = none ∧
        Text.find? readTagStart 0 text = none) ∧
      (∀ text name attrs closing, Piece.token (.opening text name attrs closing) ∈ ps →
        Element.isValidName name = true) := by
  constructor
  · intro h
    exact ⟨fun text ht => h _ ht, fun text name attrs closing ht => h _ ht⟩
  · rintro ⟨hgap, hname⟩ p hp
    cases p with
    | gap text => exact hgap text hp
    | rawText name content closeTag => trivial
    | token t =>
      cases t with
      | opening text name attrs closing => exact hname text name attrs closing hp
      | comment text => trivial
      | close text name => trivial

theorem verdict_ok_iff (checker : Ruby.Checker) (p : Protected) :
    (∃ stack, verdict checker p = .ok stack) ↔ Balanced checker p := by
  have hlexical := (ofPieces_sound_iff p.table 0 (Piece.cut p.working)).trans (cleanPieces_iff _)
  have hfound := recognise_eq_ok_iff checker [] [] (Demand.ofPieces p.table 0 (Piece.cut p.working))
  unfold verdict
  constructor
  · rintro ⟨stack, h⟩
    cases hr : recognise checker [] (Demand.ofPieces p.table 0 (Piece.cut p.working)) with
    | error v => simp [hr, Except.bind] at h
    | ok stack' =>
      cases stack' with
      | cons o os => simp [hr, Except.bind, conclude] at h
      | nil =>
        obtain ⟨hsound, hnested⟩ := hfound.1 hr
        obtain ⟨hgaps, hnames⟩ := hlexical.1 hsound
        exact ⟨hgaps, hnames, hnested⟩
  · rintro ⟨hgaps, hnames, hnested⟩
    rw [hfound.2 ⟨hlexical.2 ⟨hgaps, hnames⟩, hnested⟩]
    exact ⟨[], rfl⟩

theorem verdict_ok_nil {checker : Ruby.Checker} {p : Protected} {stack : List Opened}
    (h : verdict checker p = .ok stack) : stack = [] := by
  unfold verdict at h
  cases hr : recognise checker [] (Demand.ofPieces p.table 0 (Piece.cut p.working)) with
  | error v => simp [hr, Except.bind] at h
  | ok stack' =>
    cases stack' with
    | cons o os => simp [hr, Except.bind, conclude] at h
    | nil => simpa [hr, Except.bind, conclude] using h.symm

/-- A fault that tells a violation: what is wrong, where, and what was open. -/
structure Tells (j : Job) (v : Violation) (f : Fault) : Prop where
  kind : f.kind = v.cause.kind
  message : f.message = v.cause.message
  filename : f.filename = j.style.filename
  line : f.line = j.lineAt v.offset
  frame : f.frame = v.stack.head?.map Opened.label
  depth : f.stack.length = v.stack.length

theorem Cause.kind_ne_general (c : Cause) : c.kind ≠ .general := by
  cases c <;> simp [Cause.kind]

/-- A template is laid out exactly when it is balanced, and then nothing is left open; else the
fault is the first violation that the recogniser finds. -/
theorem format_ok_iff_balanced (style : Style) (names : Names) (source : List Char)
    (h : Total style.reformatter) :
    let p := protect names source
    ((∃ t, format style names source = .ok t) ↔ Balanced style.checker p) ∧
    (Balanced style.checker p → ∃ r, Job.run ⟨style, p⟩ = .ok r ∧ r.nesting = [] ∧
      format style names source = .ok (Job.finish ⟨style, p⟩ r)) ∧
    (¬ Balanced style.checker p → ∃ v f, verdict style.checker p = .error v ∧
      format style names source = .error (.fault f) ∧ Tells ⟨style, p⟩ v f ∧ f.kind ≠ .general) ∧
    (∀ s, Text.allBlank s = false → Text.words s ≠ [] ∧
      ∀ len width initial offset, Layout.wrap len s width initial offset ≠ []) := by
  intro p
  have hagree := Job.run_agrees style names source h
  have hiff := verdict_ok_iff style.checker p
  have hok : Balanced style.checker p → ∃ r, Job.run ⟨style, p⟩ = .ok r ∧ r.nesting = [] ∧
      format style names source = .ok (Job.finish ⟨style, p⟩ r) := by
    intro hb
    obtain ⟨stack, hv⟩ := hiff.2 hb
    obtain rfl := verdict_ok_nil hv
    rw [hv] at hagree
    obtain ⟨r, hr, hs⟩ := hagree
    refine ⟨r, hr, hs.nil_iff.2 rfl, ?_⟩
    simp only [format, report, hr, p]
  have herr : ¬ Balanced style.checker p → ∃ v f, verdict style.checker p = .error v ∧
      format style names source = .error (.fault f) ∧ Tells ⟨style, p⟩ v f ∧
        f.kind ≠ .general := by
    intro hb
    cases hv : verdict style.checker p with
    | ok stack => exact absurd (hiff.1 ⟨stack, hv⟩) hb
    | error v =>
      rw [hv] at hagree
      obtain ⟨r, hr, hs⟩ := hagree
      refine ⟨v, Job.fault ⟨style, p⟩ r v.cause v.offset, rfl, ?_,
        ⟨rfl, rfl, rfl, rfl, hs.top_label, hs.length_dump⟩, v.cause.kind_ne_general⟩
      simp only [format, report, hr, p, Job.failure]
  refine ⟨⟨?_, ?_⟩, hok, herr, ?_⟩
  · rintro ⟨t, ht⟩
    by_contra hb
    obtain ⟨v, f, -, hf, -⟩ := herr hb
    rw [hf] at ht
    exact absurd ht (by simp)
  · intro hb
    obtain ⟨r, -, -, hf⟩ := hok hb
    exact ⟨_, hf⟩
  · intro s hs
    refine ⟨?_, fun len width initial offset => Layout.wrap_ne_nil len width initial offset hs⟩
    intro hw
    rw [Text.words_eq_nil_iff.1 hw] at hs
    exact absurd hs (by simp)

theorem format_ok_iff_balanced_block :
    let style : Style := { checker := fun code => code != "if a".toList }
    let source := "<p><% if a %>b<% end %></p>".toList
    Total style.reformatter ∧ Balanced style.checker (protect (Names.counting 8) source) ∧
      ∃ r, Job.run ⟨style, protect (Names.counting 8) source⟩ = .ok r ∧ r.nesting = [] := by
  intro style source
  have hf : format style (Names.counting 8) source =
      .ok "<p>\n  <% if a %>\n    b\n  <% end %>\n</p>\n".toList := by decide +kernel
  have h := format_ok_iff_balanced style (Names.counting 8) source total_passThrough
  have hb := h.1.1 ⟨_, hf⟩
  obtain ⟨r, hr, hn, -⟩ := h.2.1 hb
  exact ⟨total_passThrough, hb, r, hr, hn⟩

end ErbLayout.Template
