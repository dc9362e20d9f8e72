import ErbLayout.Proofs.Erb.Shape
import ErbLayout.Proofs.Text.Dedent
/-!
A tag that is built from the code of a tag is read back as that tag, with the lines of its code
behind the margin that the indent asks for. Nothing of an earlier indent is left in it.
-/

namespace ErbLayout.Erb

open Text (allBlank startsBlank endsBlank isIndentOnly splitOn joinLines trimRight margin Moved
  moveTo)

/-- Two spaces behind an indent. -/
def inner (indent : List Char) : List Char := indent ++ [' ', ' ']

/-- What stands between an opener and code: nothing before a number sign. -/
def separator (code : List Char) : List Char := if code.head? = some '#' then [] else [' ']

theorem isIndentOnly_inner {indent : List Char} (h : ∀ c ∈ indent, c = ' ') :
    isIndentOnly (inner indent) = true := by
  refine List.all_eq_true.2 fun c hc => ?_
  obtain rfl : c = ' ' := by
    rcases List.mem_append.1 hc with hc | hc
    · exact h c hc
    · simpa using hc
  decide

theorem allBlank_separator (code : List Char) : allBlank (separator code) = true := by
  unfold separator
  split <;> rfl

theorem head?_separator {first code : List Char} (h : first.head? = code.head?) :
    (separator first ++ code).head? = some '#' ∨ (separator first ++ code).head? = some ' ' := by
  unfold separator
  split
  · rename_i hfirst
    exact .inl (h ▸ hfirst)
  · exact .inr rfl

/-- The lines of code in a tag: the further ones stand behind the margin that the indent asks for. -/
theorem Tag.build_eq {code first : List Char} {rest : List (List Char)}
    (hcode : allBlank code = false) (hlines : splitOn '\n' (Text.trim code) = first :: rest)
    (opener closer indent : List Char) :
    Tag.build opener code closer indent =
      opener ++ ((separator first ++ joinLines (trimRight first :: moveTo (inner indent) rest)) ++
        ' ' :: closer) := by
  have hrest : (Text.dedent rest).map (fun l => if allBlank l then [] else
      trimRight (indent ++ ' ' :: ' ' :: l)) = moveTo (inner indent) rest := by
    rw [Text.dedent, List.map_map]
    refine List.map_congr_left fun l _ => ?_
    simp [Text.moveLine, inner]
  unfold Tag.build
  rw [if_neg (by simp [hcode]), hlines]
  simp only [hrest, separator, List.append_assoc]

theorem Tag.split?_closed (o : Opener) (x : Closer) (inside : List Char)
    (h : inside.head? ≠ some '=') (h' : inside.head? ≠ some '-') :
    Tag.split? (o.text ++ (inside ++ ' ' :: x.text)) =
      some ⟨o, Text.trim (inside ++ [' ']), x⟩ := by
  have hhead {c : Char} (hc : c ≠ ' ') (hne : inside.head? ≠ some c) :
      (inside ++ ' ' :: x.text).head? ≠ some c := by
    cases inside with
    | nil => simpa using hc.symm
    | cons d inside => exact hne
  have hread := Opener.read_text o _ (hhead (by decide) h) (hhead (by decide) h')
  have hrest : (inside ++ ' ' :: x.text).reverse =
      '>' :: '%' :: (inside ++ ' ' :: x.dash).reverse := by
    simp [Closer.text_eq]
  rw [Tag.split?, hread]
  simp only [Option.bind_eq_bind, Option.bind_some, hrest, List.reverse_reverse, Tag.ofInside_dash]
  rfl

theorem Tag.split?_separated (o : Opener) (x : Closer) {first code : List Char}
    (h : first.head? = code.head?) (hstart : startsBlank code = false)
    (hend : endsBlank code = false) :
    Tag.split? (o.text ++ ((separator first ++ code) ++ ' ' :: x.text)) = some ⟨o, code, x⟩ := by
  have hhead := head?_separator h
  have htrim : Text.trim ((separator first ++ code) ++ [' ']) = code := by
    rw [List.append_assoc]
    exact Text.trim_between (allBlank_separator first) (by decide) hstart hend
  rw [Tag.split?_closed o x _, htrim]
  · rcases hhead with hd | hd <;> simp [hd]
  · rcases hhead with hd | hd <;> simp [hd]

theorem head?_ne_newline {s : List Char} (h : startsBlank s = false) : s.head? ≠ some '\n' := by
  intro hhead
  obtain ⟨r, rfl⟩ := List.head?_eq_some_iff.1 hhead
  exact absurd (show isBlank '\n' = false from h) (by decide)

section Lines

/-! Code that no white space surrounds, and its lines. -/

variable {code first : List Char} {rest : List (List Char)} (hcode : code ≠ [])
  (hstart : startsBlank code = false) (hend : endsBlank code = false)
  (hlines : splitOn '\n' code = first :: rest)

include hcode hstart hlines in
theorem exists_first : ∃ c u, first = c :: u ∧ isBlank c = false := by
  obtain ⟨c, s, rfl⟩ := List.exists_cons_of_ne_nil hcode
  have hc : isBlank c = false := hstart
  obtain ⟨u, hu⟩ := List.head?_eq_some_iff.1 (head_splitOn (head?_ne_newline hstart) hlines)
  exact ⟨c, u, hu, hc⟩

include hcode hend hlines in
theorem exists_last (hrest : rest ≠ []) : ∃ l, rest.getLast? = some l ∧ allBlank l = false := by
  have hlast := Text.allBlank_getLast?_splitOn hend hcode
  rw [hlines, List.getLast?_cons_of_ne_nil hrest, List.getLast?_eq_some_getLast hrest] at hlast
  exact ⟨_, List.getLast?_eq_some_getLast hrest, hlast _ rfl⟩

include hcode hstart hend hlines in
/-- The lines that code is built with are the lines of what is read back, with nothing around it. -/
theorem split_built (hblank : ∀ l ∈ rest, allBlank l = true → isIndentOnly l = true)
    {m : List Char} (hm : isIndentOnly m = true) :
    let lines := trimRight first :: moveTo m rest
    startsBlank (joinLines lines) = false ∧ endsBlank (joinLines lines) = false ∧
      splitOn '\n' (joinLines lines) = lines := by
  intro lines
  obtain ⟨c, u, hfirst, hc⟩ := exists_first hcode hstart hlines
  have htrim : trimRight first = c :: trimRight u := by rw [hfirst, trimRight_cons hc]
  have hmoved : ∀ l' ∈ moveTo m rest, ∃ l ∈ rest, Moved (margin rest) m l l' := by
    intro l' hl'
    obtain ⟨l, hl, rfl⟩ := List.mem_map.1 hl'
    exact ⟨l, hl, Text.moved_moveLine hblank hl m⟩
  have hflat : ∀ l ∈ first :: rest, '\n' ∉ l := fun l hl =>
    Text.not_mem_of_mem_splitOn (hlines ▸ hl)
  obtain ⟨hflatFirst, hflatRest⟩ := List.forall_mem_cons.1 hflat
  have hlast : lines.getLast? ≠ some [] := by
    by_cases hrest : rest = []
    · simp [lines, hrest, moveTo, htrim]
    obtain ⟨l, hl, hcontent⟩ := exists_last hcode hend hlines hrest
    have hmovedLast := Text.moved_moveLine hblank (List.mem_of_getLast? hl) m
    intro hnil
    rw [List.getLast?_cons_of_ne_nil (by simpa [moveTo] using hrest), moveTo, List.getLast?_map, hl,
      Option.map_some, Option.some.injEq] at hnil
    rw [hnil] at hmovedLast
    rw [Text.allBlank_of_isIndentOnly hmovedLast.eq_nil] at hcontent
    exact absurd hcontent (by simp)
  refine ⟨?_, (Text.endsBlank_joinLines ?_ hlast).1, Text.splitOn_joinLines ?_ (by simp [lines])⟩
  · obtain ⟨r, hr⟩ := joinLines_cons (trimRight first) (moveTo m rest)
    rw [hr, htrim]
    exact hc
  · refine List.forall_mem_cons.2 ⟨Text.endsBlank_trimRight first, fun l' hl' => ?_⟩
    obtain ⟨l, -, hl⟩ := hmoved l' hl'
    exact hl.endsBlank
  · refine List.forall_mem_cons.2 ⟨fun hmem => ?_, fun l' hl' => ?_⟩
    · obtain ⟨g, hg, -⟩ := Text.trimRight_append first
      exact hflatFirst (hg ▸ List.mem_append_left g hmem)
    · obtain ⟨l, hl, hm'⟩ := hmoved l' hl'
      exact hm'.newline_not_mem hm (hflatRest l hl)

end Lines

theorem Tag.ends_code_ofInside (o : Opener) (inside : List Char) :
    startsBlank (Tag.ofInside o inside).code = false ∧
      endsBlank (Tag.ofInside o inside).code = false := by
  unfold Tag.ofInside
  split
  · exact ⟨Text.startsBlank_trim _, Text.endsBlank_trim _⟩
  · exact ⟨Text.startsBlank_trim _, Text.endsBlank_trim _⟩

theorem Tag.ends_code {s : List Char} {tag : Tag} (h : Tag.split? s = some tag) :
    startsBlank tag.code = false ∧ endsBlank tag.code = false := by
  simp only [Tag.split?, Option.bind_eq_bind, Option.bind_eq_some_iff, Prod.exists] at h
  obtain ⟨o, rest, -, h⟩ := h
  split at h
  · obtain rfl := Option.some.inj h
    exact Tag.ends_code_ofInside o _
  · simp at h

/-- A tag that is built with an indent is read back as a tag that is built with every indent as the
first one is. The lines of its code are those of the first one, and the further lines stand behind
the indent and two spaces as they stood behind the margin that they shared. -/
theorem Tag.text_reindented {s : List Char} {tag : Tag} (h : Tag.split? s = some tag)
    (hblank : ∀ l ∈ splitOn '\n' tag.code, allBlank l = true → isIndentOnly l = true)
    {indent : List Char} (hindent : ∀ c ∈ indent, c = ' ') :
    ∃ tag', Tag.split? (tag.text indent) = some tag' ∧
      tag'.opener = tag.opener ∧ tag'.closer = tag.closer ∧
      (∀ indent', tag'.text indent' = tag.text indent') ∧
      ∃ first rest rest', splitOn '\n' tag.code = first :: rest ∧
        splitOn '\n' tag'.code = trimRight first :: rest' ∧ rest'.length = rest.length ∧
        List.Forall₂ (Moved (margin rest) (inner indent)) rest rest' ∧
        (rest ≠ [] → margin rest' = inner indent) := by
  obtain ⟨hstart, hend⟩ := Tag.ends_code h
  have hself : Text.trim tag.code = tag.code := Text.trim_eq_self hstart hend
  by_cases hcode : tag.code = []
  · -- one empty line
    have hempty (indent : List Char) :
        tag.text indent = tag.opener.text ++ ' ' :: tag.closer.text := by
      rw [Tag.text, Tag.build, hcode]
      rfl
    refine ⟨⟨tag.opener, [], tag.closer⟩, ?_, rfl, rfl, fun indent' => ?_, [], [], [], ?_, rfl, rfl,
      .nil, fun hne => absurd rfl hne⟩
    · rw [hempty]
      exact Tag.split?_closed tag.opener tag.closer [] (by simp) (by simp)
    · rw [hempty]
      rfl
    · rw [hcode]
      rfl
  · obtain ⟨first, rest, hlines⟩ := List.exists_cons_of_ne_nil (Text.splitOn_ne_nil '\n' tag.code)
    have hrest : ∀ l ∈ rest, allBlank l = true → isIndentOnly l = true := fun l hl =>
      hblank l (hlines ▸ List.mem_cons_of_mem first hl)
    have hinner := isIndentOnly_inner hindent
    obtain ⟨hstart', hend', hlines'⟩ := split_built hcode hstart hend hlines hrest hinner
    obtain ⟨c, u, hfirst, hc⟩ := exists_first hcode hstart hlines
    have hhead : (trimRight first).head? = first.head? := by
      rw [hfirst, trimRight_cons hc]
      rfl
    set code := joinLines (trimRight first :: moveTo (inner indent) rest) with hcode'
    have hne : code ≠ [] := by
      intro hnil
      rw [hnil] at hlines'
      rw [← (List.cons.inj hlines').1, hfirst] at hhead
      simp at hhead
    have hbuild (indent' : List Char) := Tag.build_eq (Text.allBlank_of_startsBlank hcode hstart)
      (hself.symm ▸ hlines) tag.opener.text tag.closer.text indent'
    have hbuild' (indent' : List Char) := Tag.build_eq (Text.allBlank_of_startsBlank hne hstart')
      ((Text.trim_eq_self hstart' hend').symm ▸ hlines') tag.opener.text tag.closer.text indent'
    refine ⟨⟨tag.opener, code, tag.closer⟩, ?_, rfl, rfl, fun indent' => ?_, first, rest,
      moveTo (inner indent) rest, hlines, hlines', by simp [moveTo],
      Text.moved_moveTo hrest (inner indent), fun hmore => ?_⟩
    · have hsame := hhead.symm.trans (head_splitOn (head?_ne_newline hstart') hlines')
      rw [Tag.text, hbuild]
      exact Tag.split?_separated tag.opener tag.closer hsame hstart' hend'
    · rw [Tag.text, Tag.text, hbuild, hbuild', Text.moveTo_moveTo hrest hinner, separator, hhead,
        Text.trimRight_eq_self (Text.endsBlank_trimRight first), ← separator]
    · obtain ⟨l, hl, hcontent⟩ := exists_last hcode hend hlines hmore
      refine Text.margin_moveTo hrest hinner (List.all_eq_false.2 ⟨l, List.mem_of_getLast? hl, ?_⟩)
      simp [Text.isIndentOnly_eq_false hcontent]

/-- A call whose arguments stand behind a tab and two spaces. -/
theorem Tag.text_reindented_call :
    let s := "<%= f(1,\n\t  2,\n \n\t    3) %>".toList
    let tag : Tag := ⟨.output, "f(1,\n\t  2,\n \n\t    3)".toList, .plain⟩
    let indent := [' ', ' ']
    Tag.split? s = some tag ∧
      (∀ l ∈ splitOn '\n' tag.code, allBlank l = true → isIndentOnly l = true) ∧
      (∀ c ∈ indent, c = ' ') ∧
      tag.text indent = "<%= f(1,\n    2,\n\n      3) %>".toList ∧
      ∃ tag', Tag.split? "<%= f(1,\n    2,\n\n      3) %>".toList = some tag' ∧
        ∀ indent', tag'.text indent' = tag.text indent' := by
  intro s tag indent
  have hsplit : Tag.split? s = some tag := by decide
  have hblank : ∀ l ∈ splitOn '\n' tag.code, allBlank l = true → isIndentOnly l = true := by decide
  have hindent : ∀ c ∈ indent, c = ' ' := by simp [indent]
  have htext : tag.text indent = "<%= f(1,\n    2,\n\n      3) %>".toList := by decide
  obtain ⟨tag', hread, -, -, hsame, -⟩ := Tag.text_reindented hsplit hblank hindent
  exact ⟨hsplit, hblank, hindent, htext, tag', htext ▸ hread, hsame⟩

end ErbLayout.Erb
