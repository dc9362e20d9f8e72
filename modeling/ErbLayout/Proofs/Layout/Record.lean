import ErbLayout.Proofs.Layout.Follows
import ErbLayout.Proofs.Layout.Margin
/-!
The buffer against a record of its calls. The record has every character as it was written, and a
space of wrapped text with the depth it was written at. From the record alone one reads what the
buffer keeps at hand: its length, the width of its last line, and where that line may break.
-/

namespace ErbLayout.Layout

open Text (Word lastLine joinWords)

/-- What is done with a nesting and a buffer. -/
inductive Call where
  | push (f : Frame)
  | pop
  | write (s : List Char)
  | writeLine (s : List Char)
  | writeText (line : List Char) (newLine : Bool)
  | makeRoom (width needed : Int)
  | blankLine
  deriving DecidableEq, Repr

/-- A buffer, and the nesting at whose depth its lines start. -/
structure Writer where
  nesting : Nesting := []
  buffer : Buffer := {}
  deriving DecidableEq, Repr

namespace Writer

/-- One call. An empty nesting has nothing to pop, and stays as it is. -/
def call (len : Measure) (w : Writer) : Call → Writer
  | .push f => { w with nesting := f :: w.nesting }
  | .pop => { w with nesting := w.nesting.tail }
  | .write s => { w with buffer := w.buffer.write len s }
  | .writeLine s => { w with buffer := w.buffer.writeLine len w.nesting.depth s }
  | .writeText line newLine =>
    { w with buffer := w.buffer.writeText len w.nesting.depth line newLine }
  | .makeRoom width needed => { w with buffer := w.buffer.makeRoom len width needed }
  | .blankLine => { w with buffer := w.buffer.blankLine len }

def run (len : Measure) (calls : List Call) : Writer := calls.foldl (call len) {}

theorem run_concat (len : Measure) (calls : List Call) (c : Call) :
    run len (calls ++ [c]) = (run len calls).call len c := by
  rw [run, List.foldl_append]
  rfl

end Writer

/-- A character of a record. A space of wrapped text has the depth it was written at. -/
structure Ink where
  char : Char
  depth : Option Nat := none
  deriving DecidableEq, Repr

abbrev Sheet := List Ink

def Sheet.text (sheet : Sheet) : List Char := sheet.map Ink.char

def plain (s : List Char) : Sheet := s.map fun c => ⟨c, none⟩

/-- A line of wrapped text: each space is one where the line may break. -/
def ofText (depth : Nat) (line : List Char) : Sheet :=
  line.map fun c => ⟨c, if c = ' ' then some depth else none⟩

/-- What a call puts at the end. -/
def Call.ink (depth : Nat) : Call → Sheet
  | .write s => plain s
  | .writeLine s => plain (indented depth s)
  -- The indentation before a line is no space of the text: the line does not break there.
  | .writeText line newLine => plain (lead depth newLine) ++ ofText depth line
  | .blankLine => plain ['\n']
  | .push _ | .pop | .makeRoom _ _ => []

/-- The last space of wrapped text on the last line, what stands before it and the rest of the
line. -/
structure LastSpace (sheet pre : Sheet) (depth : Nat) (rest : List Char) : Prop where
  eq : sheet = pre ++ ⟨' ', some depth⟩ :: plain rest
  flat : '\n' ∉ rest

/-- Behind every space of wrapped text a new line starts. -/
def NoSpace (sheet : Sheet) : Prop :=
  ∀ pre i post, sheet = pre ++ i :: post → i.depth ≠ none → '\n' ∈ Sheet.text post

/-- Where the last line may break, as a buffer has it. -/
inductive Marked (sheet : Sheet) : Option Break → Prop
  | none : NoSpace sheet → Marked sheet none
  | some {pre : Sheet} {depth : Nat} {rest : List Char} : LastSpace sheet pre depth rest →
    Marked sheet (some ⟨pre.length, depth⟩)

def Call.makesRoom : Call → Bool
  | .makeRoom _ _ => true
  | _ => false

/-- What a call makes of a record. Making room puts a line feed and the indentation in the place of
the last space, if there is one and what is needed does not fit; nothing else changes what is
written. -/
inductive Call.Leaves (len : Measure) (depth : Nat) (sheet : Sheet) : Call → Sheet → Prop
  | added {c : Call} : c.makesRoom = false → Leaves len depth sheet c (sheet ++ c.ink depth)
  | kept {width needed : Int} :
    NoSpace sheet ∨ len (lastLine sheet.text) + needed ≤ width →
    Leaves len depth sheet (.makeRoom width needed) sheet
  | broken {width needed : Int} {pre : Sheet} {d : Nat} {rest : List Char} :
    LastSpace sheet pre d rest → width < len (lastLine sheet.text) + needed →
    Leaves len depth sheet (.makeRoom width needed)
      (pre ++ plain ('\n' :: Nesting.indentOf d ++ rest))

/-- The record of a series of calls. -/
inductive Records (len : Measure) : List Call → Sheet → Prop
  | start : Records len [] []
  | call {calls : List Call} {c : Call} {sheet sheet' : Sheet} : Records len calls sheet →
    c.Leaves len (Writer.run len calls).nesting.depth sheet sheet' →
    Records len (calls ++ [c]) sheet'

/-- A buffer has what its record says. -/
structure Kept (len : Measure) (b : Buffer) (sheet : Sheet) : Prop where
  text : b.text = sheet.text
  size : b.size = b.text.length
  column : b.column = len (lastLine b.text)
  breakable : Marked sheet b.breakable

/-- What a call does to a buffer: making room changes nothing or its breakable space only, and
every other call only appends. -/
inductive Changed (b : Buffer) : Call → Buffer → Prop
  | added {c : Call} {b' : Buffer} : c.makesRoom = false → b.text <+: b'.text → Changed b c b'
  | kept {width needed : Int} : Changed b (.makeRoom width needed) b
  | broken {width needed : Int} {b' : Buffer} {u v : List Char} {depth : Nat} :
    b.breakable = some ⟨u.length, depth⟩ → b.text = u ++ ' ' :: v →
    b'.text = u ++ ('\n' :: Nesting.indentOf depth) ++ v →
    Changed b (.makeRoom width needed) b'

/-- A line of words with single spaces between them, and no white space around them. -/
def Wrapped (line : List Char) : Prop := Text.normalize line = line

instance (line : List Char) : Decidable (Wrapped line) :=
  inferInstanceAs (Decidable (Text.normalize line = line))

/-- What a call writes right behind what was written. -/
def Call.piece? : Call → Option (List Char)
  | .write s => some s
  | .writeText line false => some line
  | _ => none

/-- What is written on the last line adds its own length to that of the line. -/
structure Additive (len : Measure) (calls : List Call) : Prop where
  nil : len [] = 0
  piece : ∀ i (h : i < calls.length), ∀ s ∈ calls[i].piece?, '\n' ∉ s →
    len (lastLine (Writer.run len (calls.take i)).buffer.text ++ s) =
      len (lastLine (Writer.run len (calls.take i)).buffer.text) + len s

section Sheets

variable {sheet pre post pre' : Sheet} {rest rest' s : List Char} {d d' : Nat}

@[simp] theorem Sheet.text_append (a b : Sheet) : Sheet.text (a ++ b) = a.text ++ b.text :=
  List.map_append

@[simp] theorem text_plain (s : List Char) : (plain s).text = s := by
  simp [Sheet.text, plain, Function.comp_def]

@[simp] theorem text_ofText (depth : Nat) (line : List Char) : (ofText depth line).text = line := by
  simp [Sheet.text, ofText, Function.comp_def]

@[simp] theorem Sheet.length_text (sheet : Sheet) : sheet.text.length = sheet.length :=
  List.length_map _

@[simp] theorem length_ofText (depth : Nat) (line : List Char) :
    (ofText depth line).length = line.length := List.length_map _

@[simp] theorem Sheet.text_cons (i : Ink) (sheet : Sheet) :
    Sheet.text (i :: sheet) = i.char :: sheet.text := rfl

theorem depth_of_mem_plain {i : Ink} (h : i ∈ plain s) : i.depth = none := by
  obtain ⟨c, -, rfl⟩ := List.mem_map.1 h
  rfl

theorem plain_append (s t : List Char) : plain (s ++ t) = plain s ++ plain t := List.map_append

theorem ofText_of_not_mem (depth : Nat) {line : List Char} (h : ' ' ∉ line) :
    ofText depth line = plain line :=
  List.map_congr_left fun c hc => by rw [if_neg (ne_of_mem_of_not_mem hc h)]

theorem ofText_append_cons (depth : Nat) (s : List Char) {w : List Char} (h : ' ' ∉ w) :
    ofText depth (s ++ ' ' :: w) = ofText depth s ++ ⟨' ', some depth⟩ :: plain w := by
  rw [← ofText_of_not_mem depth h]
  simp [ofText]

/-- A space of wrapped text is not in what was written otherwise. -/
theorem split_append_plain {i : Ink} (h : sheet ++ plain s = pre ++ i :: post)
    (hi : i.depth ≠ none) : ∃ mid, sheet = pre ++ i :: mid ∧ post = mid ++ plain s := by
  have hout : i ∉ plain s := fun hmem => hi (depth_of_mem_plain hmem)
  rcases List.append_eq_append_iff.1 h with ⟨a, rfl, ha⟩ | ⟨a, rfl, ha⟩
  · exact absurd (by rw [ha]; simp) hout
  · cases a with
    | nil => exact absurd (by rw [← List.nil_append (plain s), ← ha]; simp) hout
    | cons j mid =>
      obtain ⟨rfl, rfl⟩ := List.cons.inj ha
      exact ⟨mid, rfl, rfl⟩

theorem noSpace_append_of_mem (sheet : Sheet) (h : '\n' ∈ s) :
    NoSpace (sheet ++ plain s) := by
  intro pre i post he hi
  obtain ⟨mid, -, rfl⟩ := split_append_plain he hi
  simp [h]

theorem NoSpace.append (h : NoSpace sheet) (s : List Char) : NoSpace (sheet ++ plain s) := by
  intro pre i post he hi
  obtain ⟨mid, hmid, rfl⟩ := split_append_plain he hi
  simp [h pre i mid hmid hi]

theorem LastSpace.append (h : LastSpace sheet pre d rest) (hs : '\n' ∉ s) :
    LastSpace (sheet ++ plain s) pre d (rest ++ s) :=
  ⟨by rw [h.eq, plain_append, List.append_assoc, List.cons_append], by simp [h.flat, hs]⟩

theorem LastSpace.text_eq (h : LastSpace sheet pre d rest) :
    sheet.text = pre.text ++ ' ' :: rest := by
  rw [h.eq, Sheet.text_append, Sheet.text_cons, text_plain]

theorem LastSpace.not_noSpace (h : LastSpace sheet pre d rest) : ¬ NoSpace sheet := fun hno =>
  h.flat (by simpa using hno pre _ _ h.eq (by simp))

/-- Behind a space with nothing but other writing after it no further space stands. -/
theorem eq_of_split {a : Sheet}
    (ha : ⟨' ', some d⟩ :: plain rest = a ++ ⟨' ', some d'⟩ :: plain rest') : a = [] ∧ d = d' := by
  cases a with
  | nil =>
    rw [List.nil_append, List.cons.injEq, Ink.mk.injEq, Option.some.injEq] at ha
    exact ⟨rfl, ha.1.2⟩
  | cons i a =>
    obtain ⟨-, hrest⟩ := List.cons.inj ha
    have hmem : (⟨' ', some d'⟩ : Ink) ∈ plain rest := by
      rw [hrest]
      simp
    exact absurd (depth_of_mem_plain hmem) (by simp)

theorem LastSpace.unique (h : LastSpace sheet pre d rest) (h' : LastSpace sheet pre' d' rest') :
    pre' = pre ∧ d' = d := by
  rcases List.append_eq_append_iff.1 (h.eq.symm.trans h'.eq) with ⟨a, rfl, ha⟩ | ⟨a, rfl, ha⟩
  · obtain ⟨rfl, rfl⟩ := eq_of_split ha
    exact ⟨List.append_nil pre, rfl⟩
  · obtain ⟨rfl, rfl⟩ := eq_of_split ha
    exact ⟨(List.append_nil pre').symm, rfl⟩

theorem Marked.append {k : Option Break} (h : Marked sheet k) (s : List Char) :
    Marked (sheet ++ plain s) (if '\n' ∈ s then Option.none else k) := by
  split
  · rename_i hs
    exact .none (noSpace_append_of_mem sheet hs)
  · rename_i hs
    cases h with
    | none hno => exact .none (hno.append s)
    | some hlast => exact .some (hlast.append hs)

end Sheets

theorem Wrapped.words {line : List Char} (h : Wrapped line) :
    ∃ ws, (∀ w ∈ ws, Word w) ∧ line = joinWords ws :=
  ⟨Text.words line, fun _ hw => Text.word_of_mem_words hw, h.symm⟩

theorem Wrapped.trim_eq {line : List Char} (h : Wrapped line) : Text.trim line = line := by
  obtain ⟨ws, hw, rfl⟩ := h.words
  exact trim_joinWords hw

theorem Wrapped.newline_not_mem {line : List Char} (h : Wrapped line) : '\n' ∉ line := by
  obtain ⟨ws, hw, rfl⟩ := h.words
  exact newline_not_mem_joinWords hw

theorem space_not_mem_of_word {w : List Char} (h : Word w) : ' ' ∉ w := fun hmem =>
  absurd (h.solid ' ' hmem) (by decide)

/-- A line of words has no space, or a word behind its last one. -/
theorem Wrapped.cases {line : List Char} (h : Wrapped line) :
    (' ' ∉ line ∧ lastSpace line = none) ∨
      ∃ s w, line = s ++ ' ' :: w ∧ ' ' ∉ w ∧ lastSpace line = some s.length := by
  obtain ⟨ws, hw, rfl⟩ := h.words
  rcases List.eq_nil_or_concat ws with rfl | ⟨ws, w, rfl⟩
  · exact .inl ⟨by simp [joinWords], rfl⟩
  · rw [List.concat_eq_append] at hw ⊢
    have hlast : Word w := hw w (by simp)
    by_cases hnil : ws = []
    · subst hnil
      exact .inl ⟨space_not_mem_of_word hlast, lastSpace_of_word hlast⟩
    · rw [joinWords_append_singleton hnil]
      exact .inr ⟨joinWords ws, w, rfl, space_not_mem_of_word hlast, lastSpace_append hlast _⟩

/-- Wrapped text comes in lines of words. -/
theorem wrapped_of_mem_wrap {len : Measure} {s line : List Char} {width initial offset : Int}
    (h : line ∈ wrap len s width initial offset) : Wrapped line := by
  obtain ⟨groups, hgroups, hwords, -⟩ := wrap_groups len s width initial offset
  rw [hgroups] at h
  obtain ⟨g, hg, rfl⟩ := List.mem_map.1 h
  have hw : ∀ w ∈ g, Word w := fun w hw =>
    Text.word_of_mem_words (hwords ▸ List.mem_flatten_of_mem hg hw)
  rw [Wrapped, Text.normalize, Text.words_joinWords hw]

namespace Kept

variable {len : Measure} {b : Buffer} {sheet pre : Sheet} {d : Nat} {s w rest : List Char}

theorem start (h : len [] = 0) : Kept len {} [] :=
  ⟨rfl, rfl, h.symm, .none fun pre i post he => by simp at he⟩

theorem write (h : Kept len b sheet) {s : List Char}
    (hadd : '\n' ∉ s → len (lastLine b.text ++ s) = len (lastLine b.text) + len s) :
    Kept len (b.write len s) (sheet ++ plain s) := by
  refine ⟨?_, size_write len h.size s, ?_, ?_⟩
  · rw [Buffer.text_write, h.text, Sheet.text_append, text_plain]
  · rw [Buffer.text_write]
    -- An empty text is not written, and its length is not measured either.
    by_cases hs : s = []
    · subst hs
      rw [List.append_nil]
      exact h.column
    · rw [column_write len b hs]
      split
      · rename_i hline
        rw [Text.lastLine_append_of_mem _ hline]
      · rename_i hline
        rw [Text.lastLine_append_of_not_mem _ hline, hadd hline, h.column]
  · rw [breakable_write]
    exact h.breakable.append s

theorem writeLine (h : Kept len b sheet) (depth : Nat) (s : List Char) :
    Kept len (b.writeLine len depth s) (sheet ++ plain (indented depth s)) :=
  h.write fun hline => absurd (by simp [indented]) hline

theorem blankLine (h : Kept len b sheet) : Kept len (b.blankLine len) (sheet ++ plain ['\n']) :=
  h.write fun hline => absurd (by simp) hline

/-- The last space of a line that was just written may be broken. -/
theorem mark (h : Kept len b (sheet ++ plain (s ++ ' ' :: w))) (hw : ' ' ∉ w) (hline : '\n' ∉ w)
    (depth : Nat) :
    Kept len { b with
      breakable := some ⟨(b.size : Int) - (s ++ ' ' :: w).length + s.length, depth⟩ }
      (sheet ++ ofText depth (s ++ ' ' :: w)) := by
  have hoffset : (b.size : Int) - (s ++ ' ' :: w).length + s.length =
      (sheet ++ ofText depth s).length := by
    rw [h.size, h.text]
    simp
  have hlast : LastSpace (sheet ++ ofText depth (s ++ ' ' :: w)) (sheet ++ ofText depth s) depth
      w := ⟨by rw [ofText_append_cons depth s hw, List.append_assoc], hline⟩
  refine ⟨?_, h.size, h.column, ?_⟩
  · exact h.text.trans (by simp)
  · rw [hoffset]
    exact .some hlast

theorem writeText (h : Kept len b sheet) (depth : Nat) {line : List Char}
    (hline : Wrapped line) {newLine : Bool} (hadd : newLine = false →
      len (lastLine b.text ++ line) = len (lastLine b.text) + len line) :
    Kept len (b.writeText len depth line newLine)
      (sheet ++ (plain (lead depth newLine) ++ ofText depth line)) := by
  have hwords : Kept len (b.writeWords len depth line newLine)
      (sheet ++ plain (lead depth newLine ++ line)) := by
    cases newLine with
    | true =>
      have hwritten := h.writeLine depth line
      rwa [indented, hline.trim_eq] at hwritten
    | false => exact h.write fun _ => hadd rfl
  rw [plain_append, ← List.append_assoc] at hwords
  rw [← List.append_assoc]
  rcases hline.cases with ⟨hspace, hlast⟩ | ⟨s, w, rfl, hw, hlast⟩
  · rw [Buffer.writeText, hlast, ofText_of_not_mem depth hspace]
    exact hwords
  · rw [Buffer.writeText_eq hlast]
    exact hwords.mark hw (fun hmem => hline.newline_not_mem (by simp [hmem])) depth

theorem makeRoom_eq (h : Kept len b sheet) {width needed : Int}
    (hwhy : NoSpace sheet ∨ len (lastLine sheet.text) + needed ≤ width) :
    b.makeRoom len width needed = b := by
  have hbreak := h.breakable
  rw [← h.text, ← h.column] at hwhy
  unfold Buffer.makeRoom
  generalize b.breakable = k at hbreak ⊢
  cases hbreak with
  | none => rfl
  | some hlast => exact if_pos (hwhy.resolve_left hlast.not_noSpace)

theorem breakable_of_lastSpace (h : Kept len b sheet) (hlast : LastSpace sheet pre d rest) :
    b.breakable = some ⟨pre.text.length, d⟩ := by
  rw [Sheet.length_text]
  have hbreak := h.breakable
  generalize b.breakable = k at hbreak ⊢
  cases hbreak with
  | none hno => exact absurd hno hlast.not_noSpace
  | some hlast' =>
    obtain ⟨rfl, rfl⟩ := hlast.unique hlast'
    rfl

theorem makeRoom_of_lt (h : Kept len b sheet) (hlast : LastSpace sheet pre d rest)
    {width needed : Int} (hlong : width < len (lastLine sheet.text) + needed) :
    Kept len (b.makeRoom len width needed)
      (pre ++ plain ('\n' :: Nesting.indentOf d ++ rest)) := by
  have htext := h.text.trans hlast.text_eq
  rw [← h.text, ← h.column] at hlong
  unfold Buffer.makeRoom
  rw [h.breakable_of_lastSpace hlast, htext]
  dsimp only
  rw [if_neg (by omega), before_append, after_append]
  refine ⟨?_, ?_, ?_, .none (noSpace_append_of_mem pre (by simp))⟩
  · simp [Buffer.text]
  · simp [Buffer.text]
  · simp [Buffer.text]

end Kept

section Calls

variable {len : Measure} {w : Writer} {c : Call} {sheet sheet' : Sheet}

theorem Kept.exists_leaves (h : Kept len w.buffer sheet) (c : Call) (depth : Nat) :
    ∃ sheet', c.Leaves len depth sheet sheet' := by
  cases hc : c.makesRoom with
  | false => exact ⟨_, .added hc⟩
  | true =>
    cases c with
    | makeRoom width needed =>
      have hbreak := h.breakable
      generalize w.buffer.breakable = k at hbreak
      cases hbreak with
      | none hno => exact ⟨_, .kept (.inl hno)⟩
      | some hlast =>
        rcases le_or_gt (len (lastLine sheet.text) + needed) width with hfits | hlong
        · exact ⟨_, .kept (.inr hfits)⟩
        · exact ⟨_, .broken hlast hlong⟩
    | _ => simp [Call.makesRoom] at hc

variable (hline : ∀ line newLine, c = .writeText line newLine → Wrapped line)
variable (hadd : ∀ s ∈ c.piece?, '\n' ∉ s →
  len (lastLine w.buffer.text ++ s) = len (lastLine w.buffer.text) + len s)
include hline hadd

/-- What a call makes of a buffer is what it makes of the record. -/
theorem Kept.call (h : Kept len w.buffer sheet)
    (hleaves : c.Leaves len w.nesting.depth sheet sheet') :
    Kept len (w.call len c).buffer sheet' := by
  cases hleaves with
  | kept hwhy =>
    change Kept len (w.buffer.makeRoom len _ _) sheet
    rwa [h.makeRoom_eq hwhy]
  | broken hlast hlong => exact h.makeRoom_of_lt hlast hlong
  | added hc =>
    cases c with
    | push f => simpa [Writer.call, Call.ink] using h
    | pop => simpa [Writer.call, Call.ink] using h
    | write s => exact h.write (hadd s rfl)
    | writeLine s => exact h.writeLine w.nesting.depth s
    | writeText line newLine =>
      have hwrapped := hline line newLine rfl
      refine h.writeText w.nesting.depth hwrapped ?_
      rintro rfl
      exact hadd line rfl hwrapped.newline_not_mem
    | makeRoom width needed => simp [Call.makesRoom] at hc
    | blankLine => exact h.blankLine

theorem Kept.changed (h : Kept len w.buffer sheet) :
    Changed w.buffer c (w.call len c).buffer := by
  obtain ⟨sheet', hleaves⟩ := h.exists_leaves c w.nesting.depth
  have h' := h.call hline hadd hleaves
  cases hleaves with
  | kept hwhy =>
    change Changed w.buffer _ (w.buffer.makeRoom len _ _)
    rw [h.makeRoom_eq hwhy]
    exact .kept
  | broken hlast hlong =>
    refine .broken (h.breakable_of_lastSpace hlast) (h.text.trans hlast.text_eq) ?_
    rw [h'.text, Sheet.text_append, text_plain, List.append_assoc]
  | added hc =>
    refine .added hc ?_
    rw [h'.text, h.text, Sheet.text_append]
    exact List.prefix_append _ _

end Calls

section Runs

variable {len : Measure} {calls : List Call} {c : Call} {sheet : Sheet}

theorem Additive.take (h : Additive len calls) (n : Nat) : Additive len (calls.take n) := by
  refine ⟨h.nil, fun i hi s hs hline => ?_⟩
  rw [List.length_take, lt_min_iff] at hi
  rw [List.getElem_take] at hs
  rw [List.take_take, min_eq_left hi.1.le]
  exact h.piece i hi.2 s hs hline

theorem Additive.of_concat (h : Additive len (calls ++ [c])) : Additive len calls := by
  have htake := h.take calls.length
  rwa [List.take_left] at htake

theorem Additive.last (h : Additive len (calls ++ [c])) : ∀ s ∈ c.piece?, '\n' ∉ s →
    len (lastLine (Writer.run len calls).buffer.text ++ s) =
      len (lastLine (Writer.run len calls).buffer.text) + len s := by
  have hpiece := h.piece calls.length (by simp)
  rw [List.getElem_concat_length rfl, List.take_left] at hpiece
  exact hpiece

theorem additive_length (calls : List Call) : Additive List.length calls :=
  ⟨rfl, fun _ _ _ _ _ => List.length_append⟩

/-- Columns add up where each piece begins with no part of a placeholder's name. -/
theorem additive_restoredLength {t : Placeholder.Table} (ht : t.Proper)
    (hpieces : ∀ c ∈ calls, ∀ s ∈ c.piece?, s = [] ∨ t.Begins s) :
    Additive t.restoredLength calls := by
  refine ⟨rfl, fun i hi s hs _ => ?_⟩
  rcases hpieces calls[i] (List.getElem_mem hi) s hs with rfl | hbegins
  · rw [List.append_nil]
    rfl
  · rw [Placeholder.Table.restoredLength, Placeholder.Table.restore_append_of_begins ht _ hbegins,
      List.length_append]
    rfl

theorem records_concat_iff : Records len (calls ++ [c]) sheet ↔
    ∃ sheet₀, Records len calls sheet₀ ∧
      c.Leaves len (Writer.run len calls).nesting.depth sheet₀ sheet := by
  refine ⟨fun h => ?_, fun ⟨_, h, hc⟩ => .call h hc⟩
  -- The series is no constructor application, so the cases need it as an equation.
  generalize hcs : calls ++ [c] = cs at h
  cases h with
  | start => simp at hcs
  | call h hc =>
    obtain ⟨rfl, he⟩ := List.append_inj' hcs rfl
    obtain rfl := List.singleton_inj.1 he
    exact ⟨_, h, hc⟩

theorem records_nil_iff : Records len [] sheet ↔ sheet = [] := by
  refine ⟨fun h => ?_, fun h => h ▸ .start⟩
  generalize hcs : ([] : List Call) = cs at h
  cases h with
  | start => rfl
  | call => simp at hcs

/-- The buffer has what the record says, after any series of calls. -/
theorem Writer.kept_of_records (hadd : Additive len calls)
    (hlines : ∀ line newLine, .writeText line newLine ∈ calls → Wrapped line) :
    (∃ sheet, Records len calls sheet) ∧
      ∀ sheet, Records len calls sheet → Kept len (Writer.run len calls).buffer sheet := by
  -- On the last call: the buffer keeps every record of the calls before it, so also the one that
  -- the record of them all goes on from.
  induction calls using List.reverseRecOn with
  | nil =>
    refine ⟨⟨[], .start⟩, fun sheet h => ?_⟩
    rw [records_nil_iff.1 h]
    exact .start hadd.nil
  | append_singleton calls c ih =>
    obtain ⟨⟨sheet, hsheet⟩, hkept⟩ := ih hadd.of_concat fun line newLine h =>
      hlines line newLine (List.mem_append_left [c] h)
    refine ⟨?_, fun sheet' h => ?_⟩
    · obtain ⟨sheet', hleaves⟩ := (hkept sheet hsheet).exists_leaves c
        (Writer.run len calls).nesting.depth
      exact ⟨sheet', .call hsheet hleaves⟩
    · obtain ⟨sheet₀, h₀, hleaves⟩ := records_concat_iff.1 h
      rw [Writer.run_concat]
      exact (hkept sheet₀ h₀).call (fun line newLine hc => hlines line newLine (by simp [hc]))
        hadd.last hleaves

/-- After any series of calls in which text is written in lines of words, and what goes on with a line
adds its own width to it, the buffer has what the record of the calls says. No call changes what is
written, except that room is made by breaking the line at its breakable space. -/
theorem Writer.run_keeps_record (hadd : Additive len calls)
    (hlines : ∀ line newLine, .writeText line newLine ∈ calls → Wrapped line) :
    (∃ sheet, Records len calls sheet) ∧
      (∀ sheet, Records len calls sheet → Kept len (Writer.run len calls).buffer sheet) ∧
      ∀ i (h : i < calls.length), Changed (Writer.run len (calls.take i)).buffer calls[i]
        (Writer.run len (calls.take (i + 1))).buffer := by
  obtain ⟨hexists, hkept⟩ := Writer.kept_of_records hadd hlines
  refine ⟨hexists, hkept, fun i hi => ?_⟩
  obtain ⟨⟨sheet, hsheet⟩, hbefore⟩ := Writer.kept_of_records (hadd.take i)
    fun line newLine h => hlines line newLine (List.mem_of_mem_take h)
  rw [List.take_add_one, List.getElem?_eq_getElem hi, Option.toList_some, Writer.run_concat]
  refine (hbefore sheet hsheet).changed (fun line newLine hc => ?_) (hadd.piece i hi)
  exact hlines line newLine (hc ▸ List.getElem_mem hi)

end Runs

theorem Writer.run_keeps_record_placeholder :
    let n : Placeholder.Name := 1
    let t : Placeholder.Table := { codeTags := [(n, "<%= user %>".toList)] }
    let calls : List Call := [.push (.element "div".toList "<div>".toList),
      .writeText "alpha beta gamma".toList true, .push (.element "b".toList "<b>".toList),
      .write n.text, .makeRoom 30 4, .write ['.'], .writeText "delta epsilon".toList true]
    let w := Writer.run t.restoredLength calls
    Additive t.restoredLength calls ∧
      (∀ line newLine, .writeText line newLine ∈ calls → Wrapped line) ∧
      w.buffer.text =
        "\n  alpha beta\n  gamma".toList ++ n.text ++ ".\n    delta epsilon".toList ∧
      ∃ sheet, Records t.restoredLength calls sheet ∧ Kept t.restoredLength w.buffer sheet := by
  intro n t calls w
  have ht : t.Proper := by
    refine ⟨by simp [t], ?_, by decide +kernel, by simp [t]⟩
    exact List.forall_mem_singleton.2 ⟨"%= user %".toList, by decide⟩
  have hname : t.Begins n.text := .inr ⟨(n, "<%= user %>".toList), by simp [t], List.prefix_rfl⟩
  have hstop : t.Begins ['.'] := .inl ⟨'.', [], rfl, by decide⟩
  have hadd : Additive t.restoredLength calls :=
    additive_restoredLength ht (by simp [calls, Call.piece?, hname, hstop])
  have hlines : ∀ line newLine, .writeText line newLine ∈ calls → Wrapped line := by
    intro line newLine h
    simp only [calls, List.mem_cons, List.not_mem_nil, Call.writeText.injEq, reduceCtorEq, false_or,
      or_false] at h
    rcases h with ⟨rfl, -⟩ | ⟨rfl, -⟩ <;> decide
  obtain ⟨⟨sheet, hsheet⟩, hkept, -⟩ := run_keeps_record hadd hlines
  exact ⟨hadd, hlines, by decide +kernel, sheet, hsheet, hkept sheet hsheet⟩

end ErbLayout.Layout
