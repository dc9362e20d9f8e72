import ErbLayout.Proofs.Template.Indentation
import ErbLayout.Proofs.Template.Outline
/-!
Layout is local: two templates one behind the other are laid out one behind the other.
-/

namespace ErbLayout.Placeholder

/-- A text in which no word has the outline of a name. -/
def Nameless (s : List Char) : Prop := ∀ t ∈ s.tails, lookalike t = none

instance (s : List Char) : Decidable (Nameless s) :=
  inferInstanceAs (Decidable (∀ t ∈ s.tails, lookalike t = none))

theorem lookalikes_eq_nil {source : List Char} (h : Nameless source) (names : Names) :
    (protect names source).table.lookalikes = [] := by
  refine List.eq_nil_iff_forall_not_mem.2 fun e he => ?_
  obtain ⟨s, n, hs, hr⟩ := exists_of_mem_lookalikes he
  rw [h s ((List.mem_tails s source).2 hs)] at hr
  simp at hr

theorem lookalike_append {c : Char} (hc : isNameChar c = false) {s : List Char} (t : List Char)
    (h : lookalike s = none) : lookalike (s ++ c :: t) = none := by
  unfold lookalike
  split
  · rename_i r hr
    have hne (d : Char) (hd : isNameChar d = true) : c ≠ d := by
      rintro rfl
      rw [hc] at hd
      exact absurd hd (by simp)
    obtain ⟨u, rfl, rfl⟩ : ∃ u, s = 'e' :: 'r' :: 'b' :: u ∧ r = u ++ c :: t := by
      rcases s with _ | ⟨c₁, _ | ⟨c₂, _ | ⟨c₃, u⟩⟩⟩
      · exact absurd (List.cons.inj hr).1 (hne 'e' (by decide))
      · exact absurd (List.cons.inj (List.cons.inj hr).2).1 (hne 'r' (by decide))
      · exact absurd (List.cons.inj (List.cons.inj (List.cons.inj hr).2).2).1
          (hne 'b' (by decide))
      · simp only [List.cons_append, List.cons.injEq] at hr
        obtain ⟨rfl, rfl, rfl, rfl⟩ := hr
        exact ⟨u, rfl, rfl⟩
    rw [lookalike] at h
    rw [Text.takeWhile_append_cons hc]
    split
    · rfl
    · rename_i d v hrun
      rw [hrun] at h
      dsimp only at h
      split at h
      · simp at h
      · rfl
  · rfl

theorem nameless_append {a b : List Char} (ha : Nameless a) (hb : Nameless b) :
    Nameless (a ++ '\n' :: b) := by
  intro t ht
  obtain ⟨s, hs⟩ := (List.mem_tails _ _).1 ht
  rcases List.append_eq_append_iff.1 hs with ⟨u, rfl, hu⟩ | ⟨u, rfl, hu⟩
  · rw [hu]
    exact lookalike_append (by decide) b (ha u ((List.mem_tails _ _).2 (List.suffix_append s u)))
  · cases u with
    | nil =>
      rw [List.nil_append] at hu
      rw [← hu]
      rfl
    | cons c u =>
      obtain ⟨-, rfl⟩ := List.cons.inj hu
      exact hb t ((List.mem_tails _ _).2 (List.suffix_append u t))

theorem Entries.restore_empty (s : List Char) : Entries.restore [] s = s :=
  restore_eq_self fun e he => by simp at he

theorem fill_reveal (t : Table) (s : List Char) :
    Text.Found.fill id (t.glossary.reveal s) = t.restoreCodeTags s := by
  rw [Glossary.reveal, Table.restoreCodeTags, Entries.restore, Text.Found.fill, Text.Found.fill,
    List.flatMap_map]
  congr 1
  funext f
  cases f <;> rfl

/-- Where the words that look like names are the same, the tags are all that differs. -/
theorem restore_of_renamed {t t' : Table} (ht : t.lookalikes = t'.lookalikes)
    {s s' : List Char} (h : Renamed t.glossary t'.glossary s s') : t.restore s = t'.restore s' := by
  rw [Table.restore, Table.restore, ht, ← fill_reveal, ← fill_reveal, h]

end ErbLayout.Placeholder

namespace ErbLayout.Text

variable {s u v : List Char}

theorem trim_append_lineFeed (hu : allBlank u = false) (hend : endsBlank u = false)
    (hv : allBlank v = false) (hstart : startsBlank v = false) :
    trim (u ++ '\n' :: v) = trim u ++ '\n' :: trim v := by
  have hright : trim u = trimLeft u := by
    refine trimRight_eq_self ?_
    by_cases hnil : trimLeft u = []
    · rw [hnil]
      rfl
    · rw [← List.takeWhile_append_dropWhile (p := isBlank) (l := u)] at hend
      exact (endsBlank_append hnil).symm.trans hend
  have hleft : trim v = trimRight v := by rw [trim, trimLeft_eq_self hstart]
  rw [hright, hleft, trim, trimLeft_append_of_not_blank hu, ← List.singleton_append,
    ← List.append_assoc, trimRight_append_of_not_blank hv, List.append_assoc]
  rfl

end ErbLayout.Text

namespace ErbLayout.Template

open Layout Markup Placeholder
open Text (allBlank startsBlank endsBlank)

variable {style : Style} {names names₁ names₂ : Names} {source a b t : List Char}
variable {j j' : Job} {p p' q : Pen} {xs ys : List (Part (List Char))} {x : Part (List Char)}

theorem format_eq_ok_iff (style : Style) (names : Names) (source t : List Char) :
    let j : Job := ⟨style, protect names source⟩
    let xs := Part.ofProtected (protect names source)
    format style names source = .ok t ↔ Untagged (xs.map Part.letter) ∧
      ∃ b, j.Finishes ⟨j.start, []⟩ xs b ∧ t = Text.trim (j.table.restore b.text) ++ ['\n'] := by
  intro j xs
  have hends (b : Buffer) : j.Ends 0 (Piece.cut j.protected_.working) j.start b ↔
      Untagged (xs.map Part.letter) ∧ j.Finishes ⟨j.start, []⟩ xs b :=
    Job.ends_iff (Piece.cut_ordered _) j.start 0
  constructor
  · intro h
    obtain ⟨r, hr, rfl⟩ := run_of_format h
    obtain ⟨htags, hend⟩ := (hends r.buffer).1 ⟨r, hr, rfl⟩
    exact ⟨htags, r.buffer, hend, rfl⟩
  · rintro ⟨htags, b, hend, rfl⟩
    obtain ⟨r, hr, rfl⟩ := (hends b).2 ⟨htags, hend⟩
    have hrun : j.run = .ok r := hr
    simp only [format, report]
    rw [hrun]
    rfl

theorem ahead_of_writesAll (h : j.WritesAll p xs q) : q.ahead ys <:+: p.ahead (xs ++ ys) := by
  induction h with
  | nil p => exact List.infix_refl _
  | cons hx _ ih => exact ih.trans (ahead_of_writes hx)

/-- Text is held back only behind literal text. -/
theorem head_held_of_writesAll (h : j.WritesAll p xs q) (hp : p.held = []) {c : Char}
    (hc : q.held.head? = some c) : xs.getLast? = some (.char c) := by
  rcases List.eq_nil_or_concat xs with rfl | ⟨xs, x, rfl⟩
  · cases h
    simp [hp] at hc
  · rw [List.concat_eq_append] at h ⊢
    obtain ⟨q₀, -, hx⟩ := h.split
    rw [List.getLast?_concat]
    cases hx with
    | cons hx hnil =>
      cases hnil
      cases hx with
      | char r cur d =>
        obtain rfl := Option.some.inj hc
        rfl
      | code _ | comment | close _ _ | opening _ _ | rawText => simp at hc

section Parts

variable (ha : names.Ample (3 * source.length))
include ha

theorem sound_parts : ∀ x ∈ Part.ofProtected (protect names source),
    x.Sound (protect names source).table.codeTags := by
  obtain ⟨ws, ts, hm⟩ := exists_marking ha
  refine Part.sound_ofPieces hm.proper fun tok htok => ?_
  obtain ⟨s, hr⟩ := Piece.mem_cut_token htok
  exact Token.readAny_framed hr

theorem solid_last (hs : endsBlank source = false) {c : Char}
    (h : (Part.ofProtected (protect names source)).getLast? = some (.char c)) :
    isBlank c = false := by
  obtain ⟨ws, ts, hm⟩ := exists_marking ha
  obtain ⟨r, hr⟩ := Part.last_ofPieces (Piece.cut_ordered _) h
  rw [Piece.cut_text] at hr
  cases hc : isBlank c with
  | false => rfl
  | true =>
    rw [← hm.restore_working, hr, Table.restore_concat r (isNameChar_of_isBlank hc),
      Text.endsBlank_append (by simp)] at hs
    exact hc.symm.trans hs

theorem solid_head (hs : startsBlank source = false) {c : Char}
    (h : (Part.ofProtected (protect names source)).head? = some (.char c)) :
    isBlank c = false := by
  obtain ⟨ws, ts, hm⟩ := exists_marking ha
  obtain ⟨r, hr⟩ := Part.head_ofPieces (Piece.cut_ordered _) h
  rw [Piece.cut_text] at hr
  cases hc : isBlank c with
  | false => rfl
  | true =>
    rw [← hm.restore_working, hr, Table.restore_cons (isNameChar_of_isBlank hc)] at hs
    exact hc.symm.trans hs

theorem parts_ne_nil (hs : source ≠ []) : Part.ofProtected (protect names source) ≠ [] := by
  obtain ⟨ws, ts, hm⟩ := exists_marking ha
  refine Part.ofPieces_ne_nil (Piece.cut_ordered _) fun hnil => hs ?_
  rw [← hm.restore_working, ← Piece.cut_text (protect names source).working, hnil,
    Table.restore_nil]

end Parts

theorem restoring_of_nameless (h : Nameless a) (h' : Nameless b) (names₁ names₂ : Names) :
    Restoring (protect names₁ a).table.glossary (protect names₂ b).table.glossary
      (protect names₁ a).table (protect names₂ b).table :=
  fun _ _ hs => restore_of_renamed
    ((lookalikes_eq_nil h names₁).trans (lookalikes_eq_nil h' names₂).symm) hs

theorem level_start {α : Type} (g g' : Glossary α) (j j' : Job) :
    Level g g' [] ⟨j.start, []⟩ ⟨j'.start, []⟩ := by
  refine ⟨⟨.nil, ?_, rfl, rfl, rfl⟩, by simp [LastFree, HeadFree, Job.start, Run.note,
    Buffer.text], rfl⟩
  exact ⟨[], [], [], ⟨rfl, fun _ => rfl⟩, ⟨rfl, rfl, rfl, rfl, .nil, rfl, .none⟩, .inl rfl⟩

/-- Output of two runs side by side, restored. -/
theorem Abreast.restored {t t' : Table} {pre' : List Char} {b b' : Buffer}
    (ht : t.lookalikes = []) (ht' : t'.lookalikes = [])
    (h : Abreast t.glossary t'.glossary pre' b b') :
    ∃ pre x x', allBlank pre = true ∧ b.text = pre ++ x ∧ b'.text = pre' ++ x' ∧
      t.restore x = t'.restore x' ∧ Grown pre' x := by
  obtain ⟨pre, x, x', ⟨hblank, -⟩, hfollows, hgrown⟩ := h
  exact ⟨pre, x, x', hblank, hfollows.text, hfollows.text',
    restore_of_renamed (ht.trans ht'.symm) hfollows.renamed, hgrown⟩

/-- The output behind a template that ends with no white space. -/
theorem solid_release (hend : q.held.reverse ≠ [] → endsBlank q.held.reverse = false)
    (hsettled : q.held = [] → Settled q.run) :
    (j.release q).buffer.text ≠ [] ∧ endsBlank (j.release q).buffer.text = false := by
  by_cases hnil : q.held = []
  · obtain ⟨u, hu⟩ := hsettled hnil
    have hsame : (j.release q).buffer = q.run.buffer := by
      rw [Job.release, hnil]
      rfl
    rw [hsame, hu]
    exact ⟨by simp, Text.endsBlank_append (s := u) (t := ['>']) (by simp)⟩
  · have hne : q.held.reverse ≠ [] := by simpa using hnil
    exact endsBlank_text q.run j.len j.width hne (hend hne)

section Restored

variable {table : Table} (ht : table.Proper) (hlooks : table.lookalikes = [])
include ht hlooks

theorem restore_ne_nil (hs : a ≠ []) : table.restore a ≠ [] := by
  rw [Table.restore, hlooks, Entries.restore_empty]
  exact Table.restoreCodeTags_ne_nil ht hs

theorem restore_endsBlank (hs : a ≠ []) (hend : endsBlank a = false) :
    allBlank (table.restore a) = false ∧ endsBlank (table.restore a) = false := by
  have hplain : table.lookalikes.Plain := by simp [hlooks, Entries.Plain]
  have hend' := Table.endsBlank_restore ht hplain hend
  exact ⟨Text.allBlank_of_endsBlank (restore_ne_nil ht hlooks hs) hend', hend'⟩

theorem restore_startsBlank (hs : a ≠ []) (hstart : startsBlank a = false) :
    allBlank (table.restore a) = false ∧ startsBlank (table.restore a) = false := by
  have hplain : table.lookalikes.Plain := by simp [hlooks, Entries.Plain]
  have hstart' := Table.startsBlank_restore ht hplain hstart
  exact ⟨Text.allBlank_of_startsBlank (restore_ne_nil ht hlooks hs) hstart', hstart'⟩

end Restored

theorem solid_of_append {pre x : List Char} (hpre : allBlank pre = true) (hne : pre ++ x ≠ [])
    (hend : endsBlank (pre ++ x) = false) : x ≠ [] ∧ endsBlank x = false := by
  by_cases hx : x = []
  · subst hx
    rw [List.append_nil] at hne hend
    rw [Text.endsBlank_of_allBlank hpre hne] at hend
    exact absurd hend (by simp)
  · exact ⟨hx, (Text.endsBlank_append hx).symm.trans hend⟩

/-- Two outputs, the white space around each trimmed off, and both together. -/
theorem trim_restore_append {t₁ t₂ : Table} {pre₁ pre₂ x₁ x₂ : List Char} (ht₁ : t₁.Proper)
    (ht₂ : t₂.Proper) (hlooks₁ : t₁.lookalikes = []) (hlooks₂ : t₂.lookalikes = [])
    (hblank₁ : allBlank pre₁ = true) (hblank₂ : allBlank pre₂ = true) (hne₁ : pre₁ ++ x₁ ≠ [])
    (hend : endsBlank (pre₁ ++ x₁) = false) (hne₂ : x₂ ≠ []) (hstart : startsBlank x₂ = false) :
    Text.trim (t₁.restore (pre₁ ++ x₁)) ++ ['\n'] ++
        (Text.trim (t₂.restore (pre₂ ++ x₂)) ++ ['\n']) =
      Text.trim (t₁.restore x₁ ++ '\n' :: t₂.restore x₂) ++ ['\n'] := by
  obtain ⟨hx₁, hx₁'⟩ := solid_of_append hblank₁ hne₁ hend
  obtain ⟨hsolid₁, hend₁⟩ := restore_endsBlank ht₁ hlooks₁ hx₁ hx₁'
  obtain ⟨hsolid₂, hstart₂⟩ := restore_startsBlank ht₂ hlooks₂ hne₂ hstart
  rw [Text.trim_append_lineFeed hsolid₁ hend₁ hsolid₂ hstart₂,
    Table.restore_allBlank_append hblank₁, Table.restore_allBlank_append hblank₂,
    Text.trim_allBlank_append hblank₁, Text.trim_allBlank_append hblank₂]
  simp

theorem letters_eq_of_outline {p p' : Protected} {xs : List (Part (List Char))}
    (h : xs.map (Part.map p.table.glossary.reveal) = outline p') :
    xs.map Part.letter = (Part.ofProtected p').map Part.letter := by
  rw [← Part.letters_map p.table.glossary.reveal xs, h, outline, Part.letters_map]

/-- Two templates one behind the other, with a line feed between them, are laid out one behind the
other if each keeps its tokens and no literal text runs from one into the other. -/
theorem format_append (style : Style) (names names₁ names₂ : Names) (a b t₁ t₂ : List Char)
    (hp : style.reformatter = Ruby.passThrough) (ha : names.Ample (3 * (a ++ '\n' :: b).length))
    (ha₁ : names₁.Ample (3 * a.length)) (ha₂ : names₂.Ample (3 * b.length))
    (hne₁ : a ≠ []) (hne₂ : b ≠ []) (hend : endsBlank a = false) (hstart : startsBlank b = false)
    (hplain₁ : Nameless a) (hplain₂ : Nameless b)
    (h₁ : format style names₁ a = .ok t₁) (h₂ : format style names₂ b = .ok t₂)
    (hparts : outline (protect names (a ++ '\n' :: b)) =
      outline (protect names₁ a) ++ .char '\n' :: outline (protect names₂ b))
    (hbeside : (∀ c, (outline (protect names₁ a)).getLast? ≠ some (.char c)) ∨
      ∀ c, (outline (protect names₂ b)).head? ≠ some (.char c)) :
    format style names (a ++ '\n' :: b) = .ok (t₁ ++ t₂) := by
  have hplain := nameless_append hplain₁ hplain₂
  have hlooks := lookalikes_eq_nil hplain names
  have hlooks₁ := lookalikes_eq_nil hplain₁ names₁
  have hlooks₂ := lookalikes_eq_nil hplain₂ names₂
  obtain ⟨htags₁, _, ⟨q₁, hw₁, hn₁, rfl⟩, rfl⟩ := (format_eq_ok_iff style names₁ a t₁).1 h₁
  obtain ⟨htags₂, _, ⟨q₂, hw₂, hn₂, rfl⟩, rfl⟩ := (format_eq_ok_iff style names₂ b t₂).1 h₂
  have hended₁ := ended_of_format ha₁ h₁
  have hended₂ := ended_of_format ha₂ h₂
  have hsound := sound_parts ha
  have hwhole := Part.plain_ofPieces (protect names (a ++ '\n' :: b)).table
    (Piece.cut_ordered (protect names (a ++ '\n' :: b)).working)
  set j : Job := ⟨style, protect names (a ++ '\n' :: b)⟩ with hj
  set j₁ : Job := ⟨style, protect names₁ a⟩ with hj₁
  set j₂ : Job := ⟨style, protect names₂ b⟩ with hj₂
  obtain ⟨xs, rest, hxs, hmap₁, hrest⟩ := List.map_eq_append_iff.1 hparts
  obtain ⟨x, ys, rfl, hx, hmap₂⟩ := List.map_eq_cons_iff.1 hrest
  cases x <;> simp only [Part.map, Part.char.injEq, reduceCtorEq] at hx
  subst hx
  change Part.Plain _ (Part.ofProtected (protect names (a ++ '\n' :: b))) at hwhole
  rw [hxs] at hsound hwhole
  have hsame₁ : Restoring j₁.table.glossary j.table.glossary j₁.table j.table :=
    restoring_of_nameless hplain₁ hplain names₁ names
  have hsame₂ : Restoring j₂.table.glossary j.table.glossary j₂.table j.table :=
    restoring_of_nameless hplain₂ hplain names₂ names
  -- the first template
  obtain ⟨p, hp₁, hlevel, htracks₁, hsettled⟩ := (level_start j₁.table.glossary j.table.glossary j₁
    j).writesAll hsame₁ rfl hp (sound_parts ha₁)
    (fun x hx => hsound x (List.mem_append_left _ hx)) hended₁
    (Part.plain_ofPieces _ (Piece.cut_ordered _)) (hwhole.among (List.prefix_append _ _).isInfix)
    hmap₁.symm hw₁
  have hahead : Part.Plain j.table.glossary.entries (p.ahead (.char '\n' :: ys)) :=
    hwhole.among (ahead_of_writesAll hp₁)
  have hheld : q₁.held.reverse ≠ [] → endsBlank q₁.held.reverse = false := by
    intro hne
    obtain ⟨c, cur, hcur⟩ := List.exists_cons_of_ne_nil (List.reverse_ne_nil_iff.1 hne)
    rw [endsBlank, List.reverse_reverse, hcur]
    exact solid_last ha₁ hend (head_held_of_writesAll hw₁ rfl (by rw [hcur]; rfl))
  obtain ⟨hout, hsolid⟩ := solid_release hheld (hsettled (parts_ne_nil ha₁ hne₁))
  -- the second behind it
  have hborders : Borders j.len j.width p.run p.held.reverse := by
    obtain ⟨_, _, _, -, hfollows, -⟩ := htracks₁.buffer
    have hnesting := htracks₁.nesting
    rw [hn₁, List.forall₂_nil_left_iff] at hnesting
    exact ⟨hnesting, hfollows.size', hlevel.held ▸ hheld⟩
  have hfirst : p.held = [] ∨ ∀ c, (Part.ofProtected (protect names₂ b)).head? ≠ some (.char c) := by
    refine hbeside.imp (fun hlast => ?_) fun hhead c hc => hhead c ?_
    · cases hp : p.held with
      | nil => rfl
      | cons c cur =>
        have hc := head_held_of_writesAll hw₁ rfl (c := c) (by rw [hlevel.held, hp]; rfl)
        refine absurd ?_ (hlast c)
        rw [outline, List.getLast?_map, hc]
        rfl
    · rw [outline, List.head?_map, hc]
      rfl
  obtain ⟨q, hq, htracks₂⟩ := hborders.writesAll (unwritten_start j₂)
    hsame₂ rfl hp (sound_parts ha₂)
    (fun x hx => hsound x (List.mem_append_right _ (List.mem_cons_of_mem _ hx))) hended₂
    (Part.plain_ofPieces _ (Piece.cut_ordered _)) hahead hmap₂.symm (parts_ne_nil ha₂ hne₂)
    (fun c hc => solid_head ha₂ hstart hc)
    (fun t name content closeTag zs => Part.ofPieces_ne_rawText (Piece.cut_ordered _) t name content
      closeTag zs) hfirst hw₂
  -- the outputs, restored
  obtain ⟨_, _, hm₁⟩ := exists_marking ha₁
  obtain ⟨_, _, hm₂⟩ := exists_marking ha₂
  obtain ⟨pre₁, x₁, y₁, hblank₁, htext₁, htext₁', hrestore₁, -⟩ :=
    htracks₁.buffer.restored hlooks₁ hlooks
  obtain ⟨pre₂, x₂, y₂, hblank₂, htext₂, htext₂', hrestore₂, hgrown⟩ :=
    htracks₂.buffer.restored hlooks₂ hlooks
  rw [htext₁] at hout hsolid
  obtain ⟨hx₂, hx₂'⟩ := hgrown.resolve_left (by simp)
  refine (format_eq_ok_iff style names _ _).2 ⟨?_, _, ⟨q, ?_, ?_, rfl⟩, ?_⟩
  · rw [hxs, List.map_append, List.map_cons, letters_eq_of_outline hmap₁,
      letters_eq_of_outline hmap₂]
    exact (untagged_append_iff (by decide) (by decide) (by decide) _ _).2 ⟨htags₁, htags₂⟩
  · rw [hxs]
    exact hp₁.append hq
  · have hnesting := htracks₂.nesting
    rwa [hn₂, List.forall₂_nil_left_iff] at hnesting
  · have hjoint : j.table.restore (j.release q).buffer.text =
        j₁.table.restore x₁ ++ '\n' :: j₂.table.restore x₂ := by
      rw [htext₂', htext₁', List.nil_append, List.append_assoc, List.singleton_append,
        Table.restore_append_cons _ (by decide)]
      exact congrArg₂ (· ++ '\n' :: ·) hrestore₁.symm hrestore₂.symm
    rw [hjoint, htext₁, htext₂]
    exact trim_restore_append hm₁.proper hm₂.proper hlooks₁ hlooks₂ hblank₁ hblank₂ hout hsolid hx₂
      hx₂'

theorem format_append_inline :
    let style : Style := { checker := fun code => code != "if x".toList }
    let a := "<div><% if x %>b<% end %></div>".toList
    let b := "c <i id=\"<%= d %>\">e</i>".toList
    let t := "<div>\n  <% if x %>\n    b\n  <% end %>\n</div>\n".toList ++
      "c\n<i id=\"<%= d %>\">e</i>\n".toList
    Nameless a ∧ Nameless b ∧ format style (Names.counting 512) (a ++ '\n' :: b) = .ok t := by
  intro style a b t
  have hlength : 3 * (a ++ '\n' :: b).length < 512 ∧ 3 * a.length < 512 ∧ 3 * b.length < 512 := by
    decide
  have ha : Nameless a := by decide +kernel
  have hb : Nameless b := by decide +kernel
  exact ⟨ha, hb, format_append style (Names.counting 512) (Names.counting 512)
    (Names.counting 512) a b "<div>\n  <% if x %>\n    b\n  <% end %>\n</div>\n".toList
    "c\n<i id=\"<%= d %>\">e</i>\n".toList rfl
    (Names.ample_counting hlength.1 (by decide)) (Names.ample_counting hlength.2.1 (by decide))
    (Names.ample_counting hlength.2.2 (by decide)) (by decide) (by decide) (by decide) (by decide)
    ha hb (by decide +kernel) (by decide +kernel) (by decide +kernel)
    (.inl (by
      have hlast : (outline (protect (Names.counting 512) a)).getLast? = some (.close
          ("</div>".toList.map .char) ("div".toList.map .char)) := by decide +kernel
      intro c
      rw [hlast]
      simp))⟩

end ErbLayout.Template
