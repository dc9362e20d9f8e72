import ErbLayout.Proofs.Layout.Follows
import ErbLayout.Proofs.Template.Content
/-!
Two runs side by side, the second with other names and perhaps with more output before. What one
writes the other writes too.
-/

namespace ErbLayout.Template

open Layout Markup Placeholder
open Text (Framed allBlank startsBlank endsBlank)
open Job (closes codeFrom codeGiven inlineClosing openText)

variable {α : Type} {g g' : Glossary α} {len len' : Measure} {width : Int}
variable {r r' : Run} {s s' pre' : List Char}

/-- What stands in the first of two outputs before the text that they share: white space, and
nothing if nothing stands in the second. -/
def Lead (pre pre' : List Char) : Prop := allBlank pre = true ∧ (pre' = [] → pre = [])

/-- Buffers of which the second holds, behind `pre'`, what the first holds, white space before it
apart. -/
def Abreast (g g' : Glossary α) (pre' : List Char) (b b' : Buffer) : Prop :=
  ∃ pre x x', Lead pre pre' ∧ Follows g g' pre pre' b b' x x' ∧ Grown pre' x

/-- A run whose output ends as a tag does. -/
def Settled (r : Run) : Prop := ∃ u, r.buffer.text = u ++ ['>']

theorem Settled.lastFree (h : Settled r) : LastFree r.buffer.text := by
  obtain ⟨u, hu⟩ := h
  rw [hu]
  exact lastFree_concat u (by decide)

theorem headFree_of_framed (h : Framed s) : HeadFree s := by
  obtain ⟨u, rfl⟩ := h
  exact headFree_cons (by decide) _

theorem settled_emit (h : Framed s) (r : Run) (len : Measure) (width : Int) (newLine : Bool) :
    Settled (r.emit len width s newLine) := by
  unfold Settled Run.emit
  split
  · rw [Buffer.text_writeLine, indented, trim_framed h]
    obtain ⟨u, rfl⟩ := h
    exact ⟨r.buffer.text ++ ('\n' :: Nesting.indentOf r.nesting.depth ++ '<' :: u), by simp⟩
  · rw [Buffer.text_write]
    obtain ⟨u, rfl⟩ := h
    exact ⟨_, (List.append_assoc _ ('<' :: u) ['>']).symm⟩

theorem Abreast.emit (hlen : Agree g g' len len') (h : Abreast g g' pre' r.buffer r'.buffer)
    (hdepth : r.nesting.depth = r'.nesting.depth) (hs : Renamed g g' s s') (hf : Framed s)
    (newLine : Bool) : Abreast g g' pre' (r.emit len width s newLine).buffer
      (r'.emit len' width s' newLine).buffer := by
  obtain ⟨pre, x, x', hlead, hfollows, hgrown⟩ := h
  cases newLine with
  | true =>
    rw [Run.emit, Run.emit, if_pos rfl, if_pos rfl, ← hdepth]
    exact ⟨pre, _, _, hlead, hfollows.writeLine hlen _ hs, hgrown.append _⟩
  | false =>
    rw [Run.emit, Run.emit, if_neg (by simp), if_neg (by simp), ← hlen _ _ hs.firstLine]
    obtain ⟨y, y', hroom, -, hgrow⟩ :=
      hfollows.makeRoom hlen width (len (Text.firstLine s))
    exact ⟨pre, _, _, hlead, hroom.write hlen hs (.inr (headFree_of_framed hf)),
      (hgrow hgrown).append s⟩

/-- A line feed at the end of some output starts a text of its own. -/
theorem follows_start (hnil : len' [] = 0) {b b' : Buffer} (hsize : b.size = b.text.length)
    (hcolumn : b.column = 0) (hbreak : b.breakable = none) (hsize' : b'.size = b'.text.length) :
    Follows g g' b.text (b'.text ++ ['\n']) b (b'.blankLine len') [] [] := by
  refine ⟨(List.append_nil _).symm, ?_, hsize, size_write len' hsize' ['\n'], .nil,
    hcolumn.trans (column_blankLine hnil b').symm, ?_⟩
  · rw [Buffer.text_blankLine, List.append_nil]
  · rw [hbreak, Buffer.blankLine, breakable_write]
    exact .none

theorem abreast_start (hlen : Agree g g' len len') (hnil : len' [] = 0) {b b' : Buffer}
    (hblank : allBlank b.text = true) (hsize : b.size = b.text.length) (hcolumn : b.column = 0)
    (hbreak : b.breakable = none) (hsize' : b'.size = b'.text.length) (hs : Renamed g g' s s')
    (hne : s ≠ []) (hstart : startsBlank s = false) :
    Abreast g g' (b'.text ++ ['\n']) (b.write len s) ((b'.blankLine len').write len' s') := by
  have hbase : Follows g g' b.text (b'.text ++ ['\n']) b (b'.blankLine len') [] [] :=
    follows_start hnil hsize hcolumn hbreak hsize'
  exact ⟨b.text, _, _, ⟨hblank, by simp⟩, hbase.write hlen hs (.inl (by simp [LastFree, HeadFree])),
    .inr ⟨by simpa using hne, by simpa using hstart⟩⟩

/-- A run at its start, beside one that is outside of all frames and about to break the line. -/
structure Fresh (r r' : Run) : Prop where
  nesting : r.nesting = []
  nesting' : r'.nesting = []
  buffer : r.buffer = {}
  last : r.last = .start
  gap : r.gap = []
  size : r'.buffer.size = r'.buffer.text.length
  breaks : endsBlank r'.gap = true

theorem Fresh.emit (h : Fresh r r') (hlen : Agree g g' len len') (hnil : len' [] = 0)
    (hs : Renamed g g' s s') (hf : Framed s) (hf' : Framed s') (newLine : Bool) :
    Abreast g g' (r'.buffer.text ++ ['\n']) (r.emit len width s newLine).buffer
      (r'.emit len' width s' true).buffer := by
  have hnil₀ : len [] = 0 := (hlen _ _ .nil).trans hnil
  have ht := tight_of_framed hf
  have hwritten : (r'.emit len' width s' true).buffer =
      (r'.buffer.blankLine len').write len' s' := by
    rw [Run.emit, if_pos rfl, h.nesting', ← write_lineFeed hnil, Buffer.writeLine, indented,
      trim_framed hf']
    rfl
  rw [hwritten]
  cases newLine with
  | true =>
    have hfirst : (r.emit len width s true).buffer = (r.buffer.blankLine len).write len s := by
      rw [Run.emit, if_pos rfl, h.nesting, ← write_lineFeed hnil₀, Buffer.writeLine, indented,
        trim_framed hf]
      rfl
    rw [hfirst, h.buffer]
    exact abreast_start hlen hnil rfl rfl (column_blankLine hnil₀ _) rfl h.size hs
      ht.ne_nil ht.start
  | false =>
    have hfirst : (r.emit len width s false).buffer = r.buffer.write len s := by
      rw [Run.emit, if_neg (by simp), h.buffer]
      rfl
    rw [hfirst, h.buffer]
    exact abreast_start hlen hnil rfl rfl rfl rfl h.size hs ht.ne_nil ht.start

/-- The room for wrapped text in a run. -/
def Run.roomFor (r : Run) (len : Measure) (width : Int) (s : List Char) (newLine : Bool) : Buffer :=
  let word := ((Text.words s).head?).getD []
  if newLine then r.buffer else r.buffer.makeRoom len width (len word)

/-- Wrapped text as a run writes it. -/
def Run.wrapped (r : Run) (len : Measure) (width : Int) (s : List Char) (newLine : Bool) : Buffer :=
  let b := r.roomFor len width s newLine
  let depth := r.nesting.depth
  let indent := 2 * depth
  b.writeAll len depth newLine (wrap len s (indent + effectiveWidth width depth)
    (if newLine then indent else b.column) indent)

theorem Run.text_of_not_blank (r : Run) (len : Measure) (width : Int)
    (hs : allBlank s = false) : r.text len width s =
      { r with
        gap := s
        last := .text
        buffer :=
          let b := r.wrapped len width s (startsBlank s || r.last == .control)
          if Text.trailingNewlines s > 1 then b.blankLine len else b } := by
  unfold Run.text
  dsimp only
  rw [if_neg (by simp [hs])]
  rfl

theorem Run.wrapped_congr (r : Run) (len : Measure) (width : Int)
    (h : Text.words s = Text.words s') (newLine : Bool) :
    r.wrapped len width s newLine = r.wrapped len width s' newLine := by
  unfold wrapped roomFor wrap
  rw [h]

theorem agree_first_word (hlen : Agree g g' len len') (hs : Renamed g g' s s') :
    len (((Text.words s).head?).getD []) = len' (((Text.words s').head?).getD []) := by
  have hwords := hs.words
  generalize Text.words s = ws at hwords ⊢
  generalize Text.words s' = ws' at hwords ⊢
  cases hwords with
  | nil => exact hlen _ _ .nil
  | cons hw _ => exact hlen _ _ hw

theorem Abreast.wrapped (hlen : Agree g g' len len') (h : Abreast g g' pre' r.buffer r'.buffer)
    (hdepth : r.nesting.depth = r'.nesting.depth) (hlast : LastFree r.buffer.text)
    (hs : Renamed g g' s s') (width : Int) (newLine : Bool) :
    Abreast g g' pre' (r.wrapped len width s newLine) (r'.wrapped len' width s' newLine) := by
  obtain ⟨pre, x, x', hlead, hfollows, hgrown⟩ := h
  obtain ⟨y, y', hroom, hfree, hgrow⟩ :
      ∃ y y', Follows g g' pre pre' (r.roomFor len width s newLine)
        (r'.roomFor len' width s' newLine) y y' ∧ (LastFree x → LastFree y) ∧
        (Grown pre' x → Grown pre' y) := by
    cases newLine with
    | true => exact ⟨x, x', hfollows, id, id⟩
    | false =>
      rw [Run.roomFor, Run.roomFor, ← agree_first_word hlen hs]
      exact hfollows.makeRoom hlen _ _
  unfold Run.wrapped
  dsimp only
  rw [← hdepth, ← hroom.column]
  obtain ⟨z, z', hwritten, -⟩ := hroom.writeAll hlen (renamed_wrap hlen hs _ _ _)
    (fun l hl => (solid_lines _ _ _ _ _ l hl).1) (fun l hl => (solid_lines _ _ _ _ _ l hl).1)
    r.nesting.depth newLine fun _ => hfree (hfollows.lastFree hlast)
  exact ⟨pre, _, _, hlead, hwritten, (hgrow hgrown).append z⟩

theorem Run.wrapped_lineFeed {r : Run} (hn : r.nesting = []) (hnil : len [] = 0) (width : Int)
    (hb : allBlank s = false) :
    r.wrapped len width s true =
      ({ r with buffer := r.buffer.blankLine len } : Run).wrapped len width s false := by
  have hroom : ({ r with buffer := r.buffer.blankLine len } : Run).roomFor len width s false =
      r.buffer.blankLine len := rfl
  unfold wrapped
  dsimp only
  rw [hroom, column_blankLine hnil, hn, if_pos rfl, if_neg (by simp)]
  refine writeAll_lineFeed hnil r.buffer (wrap_ne_nil _ _ _ _ hb) fun l hl => ?_
  exact (solid_lines _ _ _ _ _ l hl).1

/-- The first text of a template, beside the same text at the start of a line. -/
theorem Fresh.wrapped (h : Fresh r r') (hlen : Agree g g' len len') (hnil : len' [] = 0)
    (hs : Renamed g g' s s) (hb : allBlank s = false) (width : Int) :
    Abreast g g' (r'.buffer.text ++ ['\n']) (r.wrapped len width s false)
      (r'.wrapped len' width s true) := by
  rw [Run.wrapped_lineFeed h.nesting' hnil width hb]
  have hbase : Follows g g' [] (r'.buffer.text ++ ['\n']) {} (r'.buffer.blankLine len') [] [] :=
    follows_start (b := {}) hnil rfl rfl rfl h.size
  have hroom : r.roomFor len width s false = {} := by
    rw [Run.roomFor, h.buffer]
    rfl
  have hroom' : ({ r' with buffer := r'.buffer.blankLine len' } : Run).roomFor len' width s false =
      r'.buffer.blankLine len' := rfl
  unfold Run.wrapped
  dsimp only
  rw [hroom, hroom', h.nesting, h.nesting', ← hbase.column]
  have hlines (w i o : Int) : Abreast g g' (r'.buffer.text ++ ['\n'])
      (({} : Buffer).writeAll len (Nesting.depth []) false (wrap len s w i o))
      ((r'.buffer.blankLine len').writeAll len' (Nesting.depth []) false (wrap len' s w i o)) := by
    have hsolid := solid_lines len s w i o
    have hne := wrap_ne_nil len w i o hb
    obtain ⟨z, z', hwritten, hfirst⟩ := hbase.writeAll hlen (renamed_wrap hlen hs w i o)
      (fun l hl => (hsolid l hl).1) (fun l hl => (solid_lines _ _ _ _ _ l hl).1)
      (Nesting.depth []) false (by simp [LastFree, HeadFree])
    refine ⟨[], _, _, ⟨rfl, fun _ => rfl⟩, hwritten, .inr ?_⟩
    obtain ⟨l, ls, hls⟩ := List.exists_cons_of_ne_nil hne
    obtain ⟨t, rfl⟩ := hfirst rfl l (by rw [hls]; rfl)
    obtain ⟨-, hl, hstart⟩ := hsolid l (by rw [hls]; exact List.mem_cons_self)
    rw [List.nil_append]
    exact ⟨by simp [hl], by rw [Text.startsBlank_append hl, hstart]⟩
  exact hlines _ _ _

end ErbLayout.Template
