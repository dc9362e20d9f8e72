import Mathlib.Data.List.Chain
import ErbLayout.Proofs.Markup.Cut
import ErbLayout.Proofs.Placeholder.Seams
import ErbLayout.Proofs.Text.Lines
import ErbLayout.Template.Format
/-!
A protected template as a sequence of items: the words of its literal text, its code tags, its
structural tokens, and the bodies and close tags of raw text. They are all of the template but its
white space.
-/

namespace ErbLayout.Template

open Markup Placeholder
open Text (Found Framed Reads Word spread)

inductive Item where
  | word (text : List Char)
  | code (name : Name) (text : List Char)
  | token (token : Token)
  | body (text : List Char)
  | rawClose (name closeTag : List Char)
  deriving DecidableEq, Repr

/-- How the close tags of raw text are spelled. -/
abbrev Spelling := List Char → List Char → List Char

def asWritten : Spelling := fun _ closeTag => closeTag

/-- A close tag with the name of the open tag, and without white space. -/
def asOpened : Spelling := fun name _ => '<' :: '/' :: name ++ ['>']

namespace Item

/-- The item in the protected template. -/
def textBy (spelling : Spelling) : Item → List Char
  | .word w => w
  | .code n _ => n.text
  | .token t => t.text
  | .body b => b
  | .rawClose name closeTag => spelling name closeTag

def text (i : Item) : List Char := i.textBy asWritten

/-- Markup, raw text close tags among it. -/
def isStructural : Item → Bool
  | .token _ | .rawClose .. => true
  | _ => false

/-- Around block-level markup white space never shows. -/
def isBlockLevel : Item → Bool
  | .token (.comment text) => !(['<', '!', '-', '-'].isPrefixOf text)
  | .token (.close _ name) => Element.isBlockLevel name
  | .token (.opening _ name _ _) => Element.isBlockLevel name
  | .rawClose .. => true
  | _ => false

/-- A code tag that opens, continues or closes a block. -/
def isControl (checker : Ruby.Checker) : Item → Bool
  | .code _ text => (Erb.Tag.split? text).any fun tag => (Ruby.classify checker tag.code).isControlFlow
  | _ => false

/-- A word of literal text. -/
def isWord : Item → Bool
  | .word _ => true
  | _ => false

def isBody : Item → Bool
  | .body _ => true
  | _ => false

/-- Neither a word nor the body of a raw text. -/
def isFirm : Item → Bool
  | .word _ | .body _ => false
  | _ => true

end Item

/-- An item and whether white space stands before it. -/
structure Cell where
  apart : Bool
  item : Item
  deriving DecidableEq, Repr

namespace Cell

def ofText (s : List Char) : List Cell := (Text.wordItems s).map fun (a, w) => ⟨a, .word w⟩

/-- The cells of a gap, of which `cur`, read backwards, is the current literal stretch. -/
def ofFound (cur : List Char) : List (Found (Name × List Char)) → List Cell
  | [] => ofText cur.reverse
  | .char c :: fs => ofFound (c :: cur) fs
  | .value (n, text) :: fs =>
    ofText cur.reverse ++ ⟨Text.endsBlank cur.reverse, .code n text⟩ :: ofFound [] fs

def ofGap (table : Table) (text : List Char) : List Cell :=
  ofFound [] (Text.scan table.codeTags.read text)

/-- The cells of a raw text. -/
def ofRawText (name content closeTag : List Char) : List Cell :=
  ⟨false, .body (Text.trimRight content)⟩ ::
    if closeTag.isEmpty then [] else [⟨Text.endsBlank content, .rawClose name closeTag⟩]

/-- The cells of pieces behind white space or not. -/
def ofPieces (table : Table) : Bool → List Piece → List Cell
  | _, [] => []
  | _, .gap text :: ps => ofGap table text ++ ofPieces table (Text.endsBlank text) ps
  | apart, .token t :: ps => ⟨apart, .token t⟩ :: ofPieces table false ps
  | _, .rawText name content closeTag :: ps =>
    ofRawText name content closeTag ++ ofPieces table false ps

def ofProtected (p : Protected) : List Cell := ofPieces p.table false (Piece.cut p.working)

/-- A cell as it is to be read. -/
def entry (spelling : Spelling) (c : Cell) : Bool × List Char := (c.apart, c.item.textBy spelling)

end Cell

/-- A piece with the close tag of a raw text in the given spelling. -/
def pieceText (spelling : Spelling) : Piece → List Char
  | .gap t => t
  | .token t => t.text
  | .rawText name content closeTag =>
    content ++ if closeTag.isEmpty then [] else spelling name closeTag

theorem pieceText_asWritten (p : Piece) : pieceText asWritten p = p.text := by
  cases p with
  | gap t => rfl
  | token t => rfl
  | rawText name content closeTag =>
    cases closeTag with
    | nil => rfl
    | cons c s => rfl

theorem reads_blank {items : List (Bool × List Char)} {s g : List Char}
    (h : Reads items false s) (hg : Text.allBlank g = true) : Reads items (!g.isEmpty) (s ++ g) := by
  have hr : Reads [] (!g.isEmpty) g := ⟨[], g, .nil, rfl, hg, by simp⟩
  simpa using h.append hr

theorem reads_ofText (spelling : Spelling) (s : List Char) :
    Reads ((Cell.ofText s).map (Cell.entry spelling)) (Text.endsBlank s) s := by
  have h := Text.reads_words s
  rw [Cell.ofText, List.map_map]
  rwa [show Cell.entry spelling ∘ (fun x : Bool × List Char => (⟨x.1, .word x.2⟩ : Cell)) = id from rfl,
    List.map_id]

theorem ofText_of_allBlank {s : List Char} (h : Text.allBlank s = true) : Cell.ofText s = [] := by
  rw [Cell.ofText, Text.wordItems, Text.words_of_allBlank h]
  rfl

/-- The cells of words that all stand behind white space. -/
def wordCells (ws : List (List Char)) : List Cell := ws.map fun v => ⟨true, .word v⟩

theorem ofText_of_words {s w : List Char} {ws : List (List Char)} (h : Text.words s = w :: ws) :
    Cell.ofText s = ⟨Text.startsBlank s, .word w⟩ :: wordCells ws := by
  rw [Cell.ofText, Text.wordItems, h, List.map_cons, List.map_map]
  rfl

theorem endsBlank_name (n : Name) : Text.endsBlank n.text = false := by
  obtain ⟨u, hu, -⟩ := Name.text_shape n
  rw [hu, ← List.cons_append, ← List.cons_append, Text.endsBlank_append (by simp)]
  rfl

theorem endsBlank_append_name (l : List Char) (n : Name) (s : List Char) :
    Text.endsBlank (l ++ (n.text ++ s)) = Text.endsBlank s := by
  rw [← List.append_assoc]
  by_cases hnil : s = []
  · rw [hnil, List.append_nil, Text.endsBlank_append (Marked.name_ne_nil n), endsBlank_name]
    rfl
  · exact Text.endsBlank_append hnil

theorem reads_ofFound (spelling : Spelling) (cur : List Char)
    (fs : List (Found (Name × List Char))) :
    Reads ((Cell.ofFound cur fs).map (Cell.entry spelling))
      (Text.endsBlank (cur.reverse ++ Found.fill (fun e => e.1.text) fs))
      (cur.reverse ++ Found.fill (fun e => e.1.text) fs) := by
  induction fs generalizing cur with
  | nil => simpa [Cell.ofFound] using reads_ofText spelling cur.reverse
  | cons f fs ih =>
    cases f with
    | char c => simpa [Cell.ofFound] using ih (c :: cur)
    | value e =>
      obtain ⟨n, text⟩ := e
      have hcode := (reads_ofText spelling cur.reverse).snoc n.text
      have hrest := hcode.append (ih [])
      rw [Found.fill_value, endsBlank_append_name, Cell.ofFound]
      simpa [Cell.entry, Item.textBy] using hrest

theorem fill_scan_entries (es : Entries) (s : List Char) :
    Found.fill (fun e => e.1.text) (Text.scan es.read s) = s := by
  refine Text.fill_scan (fun t e n hr => ⟨Marked.name_ne_nil _, ?_, Entries.read_initial hr⟩) s
  rw [Name.length_text]
  exact Entries.read_size hr

theorem reads_ofGap (spelling : Spelling) (table : Table) (text : List Char) :
    Reads ((Cell.ofGap table text).map (Cell.entry spelling)) (Text.endsBlank text) text := by
  have h := reads_ofFound spelling [] (Text.scan table.codeTags.read text)
  rwa [List.reverse_nil, List.nil_append, fill_scan_entries] at h

theorem reads_ofRawText (spelling : Spelling) (name content closeTag : List Char) :
    ∃ apart, (closeTag ≠ [] → apart = false) ∧
      Reads ((Cell.ofRawText name content closeTag).map (Cell.entry spelling)) apart
        (pieceText spelling (.rawText name content closeTag)) := by
  obtain ⟨g, hg, hblank, hend⟩ := Text.trimRight_append content
  have hbody := Text.reads_nil.snoc (Text.trimRight content)
  have hcontent := reads_blank hbody hblank
  rw [List.nil_append, List.nil_append, ← hg, hend] at hcontent
  cases closeTag with
  | nil => exact ⟨_, by simp, by simpa [Cell.ofRawText, pieceText, Cell.entry, Item.textBy] using hcontent⟩
  | cons c s =>
    refine ⟨false, fun _ => rfl, ?_⟩
    simpa [Cell.ofRawText, pieceText, Cell.entry, Item.textBy] using
      hcontent.snoc (spelling name (c :: s))

theorem reads_ofPieces (table : Table) (spelling : Spelling) {raw : Option (List Char)} {ps : List Piece}
    (h : Piece.Ordered raw ps) : ∃ apart,
      Reads ((Cell.ofPieces table false ps).map (Cell.entry spelling)) apart
        (ps.flatMap (pieceText spelling)) := by
  induction h with
  | nil raw => exact ⟨false, Text.reads_nil⟩
  | unclosed name content =>
    obtain ⟨apart, -, hr⟩ := reads_ofRawText spelling name content []
    exact ⟨apart, by simpa [Cell.ofPieces] using hr⟩
  | rawText hne _ ih =>
    rename_i name content closeTag ps _
    obtain ⟨apart, ha, hr⟩ := reads_ofRawText spelling name content closeTag
    obtain rfl := ha hne
    obtain ⟨apart', hr'⟩ := ih
    exact ⟨apart', by simpa [Cell.ofPieces] using hr.append hr'⟩
  | last text =>
    exact ⟨_, by simpa [Cell.ofPieces, pieceText] using reads_ofGap spelling table text⟩
  | token _ ih =>
    rename_i text t ps _
    obtain ⟨apart', hr'⟩ := ih
    have ht := ((reads_ofGap spelling table text).snoc t.text).append hr'
    exact ⟨apart', by simpa [Cell.ofPieces, pieceText, Cell.entry, Item.textBy] using ht⟩

/-- The pieces as they are written are the protected template. -/
theorem flatMap_pieceText (p : Protected) :
    (Piece.cut p.working).flatMap (pieceText asWritten) = p.working := by
  rw [show pieceText asWritten = Piece.text from funext pieceText_asWritten, Piece.cut_text]

theorem reads_ofProtected (p : Protected) :
    ∃ apart, Reads ((Cell.ofProtected p).map (Cell.entry asWritten)) apart p.working := by
  have h := reads_ofPieces p.table asWritten (Piece.cut_ordered p.working)
  rwa [flatMap_pieceText] at h

/-- Two cells of which one is firm, or between which white space stands. -/
def Cell.Joins (c c' : Cell) : Prop :=
  c.item.isFirm = true ∨ c'.apart = true ∨ c'.item.isFirm = true

theorem joins_ofText (s : List Char) : (Cell.ofText s).IsChain Cell.Joins := by
  unfold Cell.ofText Text.wordItems
  split
  · exact .nil
  · rename_i w ws hws
    clear hws
    rw [List.map_cons, List.map_map, List.isChain_cons]
    constructor
    · intro c hc
      cases ws with
      | nil => simp at hc
      | cons v vs =>
        obtain rfl : _ = c := by simpa using hc
        exact .inr (.inl rfl)
    · induction ws with
      | nil => exact .nil
      | cons v vs ih =>
        rw [List.map_cons, List.isChain_cons]
        refine ⟨fun c hc => ?_, ih⟩
        cases vs with
        | nil => simp at hc
        | cons u us =>
          obtain rfl : _ = c := by simpa using hc
          exact .inr (.inl rfl)

theorem joins_cons {c : Cell} {cs : List Cell} (hc : c.item.isFirm = true)
    (h : cs.IsChain Cell.Joins) : (c :: cs).IsChain Cell.Joins :=
  List.isChain_cons.2 ⟨fun _ _ => .inl hc, h⟩

theorem joins_append {cs cs' : List Cell} (h : cs.IsChain Cell.Joins)
    (h' : cs'.IsChain Cell.Joins) (hhead : ∀ c ∈ cs'.head?, c.item.isFirm = true) :
    (cs ++ cs').IsChain Cell.Joins :=
  List.isChain_append.2 ⟨h, h', fun _ _ c hc => .inr (.inr (hhead c hc))⟩

theorem joins_ofFound (cur : List Char) (fs : List (Found (Name × List Char))) :
    (Cell.ofFound cur fs).IsChain Cell.Joins := by
  induction fs generalizing cur with
  | nil => exact joins_ofText _
  | cons f fs ih =>
    cases f with
    | char c => exact ih _
    | value e =>
      refine joins_append (joins_ofText _) (joins_cons rfl (ih [])) fun c hc => ?_
      obtain rfl : _ = c := by simpa using hc
      rfl

theorem joins_ofPieces {table : Table} {raw : Option (List Char)} {ps : List Piece}
    (h : Piece.Ordered raw ps) : (Cell.ofPieces table false ps).IsChain Cell.Joins := by
  induction h with
  | nil raw => exact .nil
  | unclosed name content => exact .singleton _
  | rawText hne _ ih =>
    rw [Cell.ofPieces, Cell.ofRawText, if_neg (by simpa using hne)]
    exact List.isChain_cons.2 ⟨fun c hc => .inr (.inr (by simp_all; subst hc; rfl)),
      joins_cons rfl ih⟩
  | last text =>
    rw [Cell.ofPieces, Cell.ofPieces, List.append_nil]
    exact joins_ofFound _ _
  | token _ ih =>
    rw [Cell.ofPieces, Cell.ofPieces]
    refine joins_append (joins_ofFound _ _) (joins_cons rfl ih) fun c hc => ?_
    obtain rfl : _ = c := by simpa using hc
    rfl

/-- Literal text up to the first code tag that a scan found spells no name of a code tag. -/
theorem scan_literal {es : Entries} {fs : List (Found (Name × List Char))} {l s : List Char}
    (h : Text.scan es.read s = l.map Found.char ++ fs) :
    ∃ t, s = l ++ t ∧ Text.scan es.read t = fs ∧ ∀ e ∈ es, ¬ e.1.text <:+: l := by
  induction l generalizing s with
  | nil =>
    refine ⟨s, rfl, h, fun e he hi => ?_⟩
    exact Marked.name_ne_nil e.1 (List.infix_nil.1 hi)
  | cons c l ih =>
    rcases s with _ | ⟨d, s⟩
    · simp at h
    · cases hr : es.read (d :: s) with
      | some p =>
        have hs : Text.scan es.read (d :: s) = _ :: _ :=
          Text.scan_of_some (by rw [Entries.read_size hr]; decide) hr (by simp)
        rw [hs] at h
        simp at h
      | none =>
        rw [Text.scan_cons_of_none hr] at h
        simp only [List.map_cons, List.cons_append, List.cons.injEq, Found.char.injEq] at h
        obtain ⟨rfl, h⟩ := h
        obtain ⟨t, rfl, ht, hfree⟩ := ih h
        refine ⟨t, rfl, ht, fun e he hi => ?_⟩
        rcases List.infix_cons_iff.1 hi with hp | hi
        · obtain ⟨u, hu⟩ := hp
          have hread := Name.read_eq_some.2 ⟨rfl, List.prefix_append e.1.text (u ++ t)⟩
          rw [← List.append_assoc, hu, List.cons_append] at hread
          have hfind : (es.find? (·.1 == e.1)).isSome = true :=
            List.find?_isSome.2 ⟨e, he, by simp⟩
          obtain ⟨e', he'⟩ := Option.isSome_iff_exists.1 hfind
          simp only [Entries.read, hread, he'] at hr
          exact absurd hr (by simp)
        · exact hfree e he hi

/-- What an item of a protected template is like. -/
def Item.Sound (table : Table) : Item → Prop
  | .word w => Word w ∧ Word (table.restore w)
  | .code n text => (n, text) ∈ table.codeTags
  | .token t => ∃ s, Token.readAny s = some t
  | .body b => Text.endsBlank b = false
  | .rawClose name closeTag => Element.isRawText name = true ∧
    ∃ s n, Piece.readCloseOf name s = some (closeTag, n)

theorem word_restore {es : Entries} (hes : ∀ e ∈ es, Word e.2) {w : List Char} (hw : Word w) :
    Word (es.restore w) := by
  rw [Entries.restore]
  refine ⟨?_, fun c hc => ?_⟩
  · rcases w with _ | ⟨c, w⟩
    · exact absurd rfl hw.ne_nil
    · cases hr : es.read (c :: w) with
      | none => simp [Text.scan_cons_of_none hr]
      | some p =>
        rw [Text.scan_of_some (by rw [Entries.read_size hr]; decide) hr (by simp)]
        simp [(hes p.1 (Entries.read_mem hr)).ne_nil]
  · obtain ⟨f, hf, hc⟩ := List.mem_flatMap.1 hc
    cases f with
    | char d =>
      simp only [List.mem_singleton] at hc
      subst hc
      exact hw.solid c (Text.char_of_mem_scan hf)
    | value e => exact (hes e (mem_of_mem_scan hf)).solid c hc

theorem word_restore_of_free {table : Table} (h : table.Proper) {w l : List Char} (hw : Word w)
    (hl : ∀ e ∈ table.codeTags, ¬ e.1.text <:+: l) (hwl : w <:+: l) : Word (table.restore w) := by
  rw [Table.restore, Table.restoreCodeTags,
    Entries.restore_eq_self fun e he hi => hl e he (hi.trans hwl)]
  exact word_restore h.solid hw

theorem mem_ofText {c : Cell} {s : List Char} (h : c ∈ Cell.ofText s) :
    ∃ w ∈ Text.words s, c.item = .word w := by
  unfold Cell.ofText Text.wordItems at h
  split at h
  · simp at h
  · rename_i w ws hws
    rw [hws]
    simp only [List.map_cons, List.mem_cons, List.mem_map] at h
    rcases h with rfl | ⟨_, ⟨v, hv, rfl⟩, rfl⟩
    · exact ⟨w, List.mem_cons_self, rfl⟩
    · exact ⟨v, List.mem_cons_of_mem w hv, rfl⟩

theorem mem_ofFound {c : Cell} {cur : List Char} {fs : List (Found (Name × List Char))}
    (h : c ∈ Cell.ofFound cur fs) : (∃ w, c.item = .word w) ∨ ∃ n text, c.item = .code n text := by
  induction fs generalizing cur with
  | nil =>
    obtain ⟨w, -, hw⟩ := mem_ofText h
    exact .inl ⟨w, hw⟩
  | cons f fs ih =>
    cases f with
    | char d => exact ih h
    | value e =>
      rw [Cell.ofFound, List.mem_append, List.mem_cons] at h
      rcases h with h | rfl | h
      · obtain ⟨w, -, hw⟩ := mem_ofText h
        exact .inl ⟨w, hw⟩
      · exact .inr ⟨_, _, rfl⟩
      · exact ih h

theorem token_mem_of_mem {table : Table} {apart : Bool} {ps : List Piece} {c : Cell} {t : Token}
    (h : c ∈ Cell.ofPieces table apart ps) (hc : c.item = .token t) : .token t ∈ ps := by
  induction ps generalizing apart with
  | nil => simp [Cell.ofPieces] at h
  | cons p ps ih =>
    cases p with
    | gap text =>
      rw [Cell.ofPieces, List.mem_append] at h
      rcases h with h | h
      · rcases mem_ofFound h with ⟨w, hw⟩ | ⟨n, text, hcode⟩
        · rw [hw] at hc
          simp at hc
        · rw [hcode] at hc
          simp at hc
      · exact List.mem_cons_of_mem _ (ih h)
    | token t' =>
      rw [Cell.ofPieces, List.mem_cons] at h
      rcases h with rfl | h
      · obtain rfl : t' = t := by simpa using hc
        exact List.mem_cons_self
      · exact List.mem_cons_of_mem _ (ih h)
    | rawText name content closeTag =>
      rw [Cell.ofPieces, List.mem_append, Cell.ofRawText, List.mem_cons] at h
      rcases h with (rfl | h) | h
      · simp at hc
      · split at h
        · simp at h
        · rw [List.mem_singleton] at h
          subst h
          simp at hc
      · exact List.mem_cons_of_mem _ (ih h)

theorem sound_ofFound {table : Table} (h : table.Proper) (cur s : List Char)
    {fs : List (Found (Name × List Char))}
    (hs : Text.scan table.codeTags.read s = cur.reverse.map Found.char ++ fs) :
    ∀ c ∈ Cell.ofFound cur fs, c.item.Sound table := by
  have htext {l t : List Char} {gs : List (Found (Name × List Char))}
      (hl : Text.scan table.codeTags.read t = l.map Found.char ++ gs) :
      ∀ c ∈ Cell.ofText l, c.item.Sound table := by
    intro c hc
    obtain ⟨-, -, -, hfree⟩ := scan_literal hl
    obtain ⟨w, hw, hitem⟩ := mem_ofText hc
    rw [hitem]
    have hword := Text.word_of_mem_words hw
    exact ⟨hword, word_restore_of_free h hword hfree (Text.infix_of_mem_words hw)⟩
  induction fs generalizing cur s with
  | nil => exact htext hs
  | cons f fs ih =>
    cases f with
    | char d => exact ih (d :: cur) s (by simpa using hs)
    | value e =>
      intro c hc
      rw [Cell.ofFound, List.mem_append, List.mem_cons] at hc
      obtain ⟨t, -, ht, -⟩ := scan_literal hs
      rcases hc with hc | rfl | hc
      · exact htext hs c hc
      · exact mem_of_mem_scan (s := t) (by rw [ht]; exact List.mem_cons_self)
      · have hrest : ∃ u, Text.scan table.codeTags.read u = fs := by
          rcases t with _ | ⟨d, t⟩
          · simp at ht
          · cases hr : table.codeTags.read (d :: t) with
            | none =>
              rw [Text.scan_cons_of_none hr] at ht
              simp at ht
            | some p =>
              rw [Text.scan_of_some (by rw [Entries.read_size hr]; decide) hr (by simp)] at ht
              exact ⟨_, (List.cons.inj ht).2⟩
        obtain ⟨u, hu⟩ := hrest
        exact ih [] u (by simpa using hu) c hc

theorem sound_ofPieces {table : Table} (h : table.Proper) {ps : List Piece} {apart : Bool}
    (htoken : ∀ t, Piece.token t ∈ ps → ∃ s, Token.readAny s = some t)
    (hraw : ∀ name content closeTag, Piece.rawText name content closeTag ∈ ps →
      Element.isRawText name = true ∧
        (closeTag ≠ [] → ∃ s n, Piece.readCloseOf name s = some (closeTag, n))) :
    ∀ c ∈ Cell.ofPieces table apart ps, c.item.Sound table := by
  induction ps generalizing apart with
  | nil => simp [Cell.ofPieces]
  | cons p ps ih =>
    have hrest {a : Bool} : ∀ c ∈ Cell.ofPieces table a ps, c.item.Sound table :=
      ih (fun t ht => htoken t (List.mem_cons_of_mem p ht))
        (fun name content closeTag hr => hraw name content closeTag (List.mem_cons_of_mem p hr))
    intro c hc
    cases p with
    | gap text =>
      rw [Cell.ofPieces, List.mem_append] at hc
      rcases hc with hc | hc
      · exact sound_ofFound h [] text (by simp) c hc
      · exact hrest c hc
    | token t =>
      rw [Cell.ofPieces, List.mem_cons] at hc
      rcases hc with rfl | hc
      · exact htoken t List.mem_cons_self
      · exact hrest c hc
    | rawText name content closeTag =>
      obtain ⟨hname, hclose⟩ := hraw name content closeTag List.mem_cons_self
      rw [Cell.ofPieces, List.mem_append, Cell.ofRawText, List.mem_cons] at hc
      rcases hc with (rfl | hc) | hc
      · exact Text.endsBlank_trimRight content
      · split at hc
        · simp at hc
        · rename_i hne
          rw [List.mem_singleton] at hc
          subst hc
          exact ⟨hname, hclose (by simpa using hne)⟩
      · exact hrest c hc

theorem sound_ofProtected {p : Protected} (h : p.table.Proper) :
    ∀ c ∈ Cell.ofProtected p, c.item.Sound p.table :=
  sound_ofPieces h (fun _ ht => Piece.mem_cut_token ht)
    (fun _ _ _ hr => Piece.mem_cut_rawText hr)

end ErbLayout.Template
