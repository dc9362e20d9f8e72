import ErbLayout.Files.Pathname
import ErbLayout.Ignore.Rules
import ErbLayout.Proofs.Text.Split
/-!
Patterns of one name. Such a pattern describes a directory by its path only where it describes a
directory on that path by its name.
-/

namespace ErbLayout

namespace Text.Wildcard

theorem exists_of_manyThen {rest : List Char → Bool} {s : List Char} (h : manyThen rest s = true) :
    ∃ x y, s = x ++ y ∧ '/' ∉ x ∧ rest y = true := by
  induction s with
  | nil => exact ⟨[], [], rfl, by simp, h⟩
  | cons c s ih =>
    rw [manyThen, Bool.or_eq_true, Bool.and_eq_true] at h
    rcases h with h | ⟨hc, h⟩
    · exact ⟨[], c :: s, rfl, by simp, h⟩
    · obtain ⟨x, y, rfl, hx, hy⟩ := ih h
      exact ⟨c :: x, y, rfl, by simpa [hx] using Ne.symm (bne_iff_ne.1 hc), hy⟩

theorem manyThen_append {rest : List Char → Bool} {x y : List Char} (hx : '/' ∉ x)
    (hy : rest y = true) : manyThen rest (x ++ y) = true := by
  induction x with
  | nil => cases y <;> simp [manyThen, hy]
  | cons c x ih =>
    have hc : (c != '/') = true := bne_iff_ne.2 fun h => hx (h ▸ List.mem_cons_self)
    rw [List.cons_append, manyThen, hc, ih fun h => hx (List.mem_cons_of_mem _ h)]
    simp

/-- Atoms that stand for no slash take a stretch without one, whatever comes after it. -/
theorem exists_of_matchThen {rest : List Char → Bool} {as : List Atom} {s : List Char}
    (ha : ∀ a ∈ as, a.takes '/' = false) (h : matchThen rest as s = true) :
    ∃ x y, s = x ++ y ∧ '/' ∉ x ∧ rest y = true ∧
      ∀ (rest' : List Char → Bool) y', rest' y' = true → matchThen rest' as (x ++ y') = true := by
  induction as generalizing s with
  | nil => exact ⟨[], s, rfl, by simp, h, fun _ _ h => h⟩
  | cons a as ih =>
    have ha' : ∀ b ∈ as, b.takes '/' = false := fun b hb => ha b (List.mem_cons_of_mem _ hb)
    have one (hm : a ≠ .many) : ∃ x y, s = x ++ y ∧ '/' ∉ x ∧ rest y = true ∧
        ∀ (rest' : List Char → Bool) y', rest' y' = true →
          matchThen rest' (a :: as) (x ++ y') = true := by
      cases s with
      | nil => cases a <;> simp [matchThen] at h hm
      | cons c s =>
        have hstep (rest : List Char → Bool) (s : List Char) :
            matchThen rest (a :: as) (c :: s) = (a.takes c && matchThen rest as s) := by
          cases a <;> first | rfl | exact absurd rfl hm
        rw [hstep, Bool.and_eq_true] at h
        obtain ⟨x, y, rfl, hx, hy, hall⟩ := ih ha' h.2
        refine ⟨c :: x, y, rfl, fun hc => ?_, hy, fun rest' y' hy' => ?_⟩
        · rcases List.mem_cons.1 hc with rfl | hc
          · rw [ha a List.mem_cons_self] at h
            cases h.1
          · exact hx hc
        · rw [List.cons_append, hstep, h.1, hall rest' y' hy']
          rfl
    by_cases hm : a = .many
    · subst hm
      rw [matchThen] at h
      obtain ⟨x, z, rfl, hx, hz⟩ := exists_of_manyThen h
      obtain ⟨x', y, rfl, hx', hy, hall⟩ := ih ha' hz
      refine ⟨x ++ x', y, by simp, by simp [hx, hx'], hy, fun rest' y' hy' => ?_⟩
      rw [matchThen, List.append_assoc]
      exact manyThen_append hx (hall rest' y' hy')
    · exact one hm

end Text.Wildcard

namespace Ignore

open Files Text

namespace Part

def Single : Part → Prop
  | .anyWay => False
  | .anyName => True
  | .name as => ∀ a ∈ as, a.takes '/' = false

theorem exists_of_nameThen {rest : List Char → Bool} {p : Part} {s : List Char} (hp : p.Single)
    (h : nameThen rest p s = true) :
    ∃ x y, s = x ++ y ∧ '/' ∉ x ∧ rest y = true ∧
      ∀ (rest' : List Char → Bool) y', rest' y' = true → nameThen rest' p (x ++ y') = true := by
  cases p with
  | anyWay => exact hp.elim
  | name as => exact Wildcard.exists_of_matchThen hp h
  | anyName =>
    cases s with
    | nil => cases h
    | cons c s =>
      rw [nameThen, Bool.and_eq_true] at h
      · obtain ⟨x, y, rfl, hx, hy⟩ := Wildcard.exists_of_manyThen h.2
        refine ⟨c :: x, y, rfl, by simpa [hx] using Ne.symm (bne_iff_ne.1 h.1), hy,
          fun rest' y' hy' => ?_⟩
        rw [List.cons_append, nameThen, h.1, Wildcard.manyThen_append hx hy']
        · rfl
        · simp
      · simp

theorem exists_of_wayThen {rest : List Char → Bool} {s : List Char} (h : wayThen rest s = true) :
    ∃ b t, s = b ++ '/' :: t ∧ '\n' ∉ b ∧ rest t = true := by
  induction s with
  | nil => cases h
  | cons c s ih =>
    simp only [wayThen, Bool.or_eq_true, Bool.and_eq_true, beq_iff_eq, bne_iff_ne] at h
    rcases h with ⟨rfl, h⟩ | ⟨hc, h⟩
    · exact ⟨[], s, rfl, by simp, h⟩
    · obtain ⟨b, t, rfl, hb, ht⟩ := ih h
      exact ⟨c :: b, t, rfl, by simpa [hb] using Ne.symm hc, ht⟩

theorem wayThen_append {rest : List Char → Bool} {b t : List Char} (hb : '\n' ∉ b)
    (ht : rest t = true) : wayThen rest (b ++ '/' :: t) = true := by
  induction b with
  | nil => simp [wayThen, ht]
  | cons c b ih =>
    have hc : (c != '\n') = true := bne_iff_ne.2 fun h => hb (h ▸ List.mem_cons_self)
    rw [List.cons_append, wayThen, hc, ih fun h => hb (List.mem_cons_of_mem _ h)]
    simp

theorem leadingThen_of_start {rest : List Char → Bool} {s : List Char} (h : rest s = true) :
    leadingThen rest s = true := by
  unfold leadingThen
  rw [h, Bool.true_or]

theorem leadingThen_cons_of_way {rest : List Char → Bool} {c : Char} {b t : List Char}
    (hb : '\n' ∉ c :: b) (ht : rest t = true) : leadingThen rest (c :: b ++ '/' :: t) = true := by
  have hc : (c != '\n') = true := bne_iff_ne.2 fun h => hb (h ▸ List.mem_cons_self)
  have hway := wayThen_append (fun h => hb (List.mem_cons_of_mem _ h)) ht
  unfold leadingThen
  simp [hc, hway]

end Part

/-- A directory on a path is written with a slash behind each of the names. -/
def directoryText (names : List Name) : List Char := names.flatMap (· ++ ['/'])

theorem directoryText_eq {names : List Name} (h : names ≠ []) :
    (Pathname.mk [] names).text ++ ['/'] = directoryText names := by
  have hjoin (ns : List Name) (hne : ns ≠ []) :
      joinWith ['/'] ns ++ ['/'] = directoryText ns := by
    induction ns with
    | nil => exact absurd rfl hne
    | cons n ns ih =>
      cases ns with
      | nil => simp [joinWith, directoryText]
      | cons m ns =>
        rw [joinWith, List.append_assoc, ih (by simp), directoryText, directoryText,
          List.flatMap_cons]
        · simp
        · simp
  have hempty : names.isEmpty = false := by simpa using h
  simp only [Pathname.text, hempty, Bool.and_false, Bool.false_eq_true, if_false, List.nil_append]
  exact hjoin names h

/-- That a text is a name between slashes, and not the one for the same place. -/
structure IsName (n : Name) : Prop where
  ne_nil : n ≠ []
  ne_here : n ≠ here
  slash : '/' ∉ n

theorem isName_of_mem_splitNames {s : List Char} {n : Name} (h : n ∈ splitNames s) :
    IsName n := by
  rw [splitNames, List.mem_filter] at h
  simp only [Bool.and_eq_true, Bool.not_eq_true', List.isEmpty_eq_false_iff, bne_iff_ne] at h
  exact ⟨h.2.1, h.2.2, Text.not_mem_of_mem_splitOn h.1⟩

theorem plainPath_directoryText {names : List Name} (h : ∀ n ∈ names, IsName n) :
    plainPath (directoryText names) = directoryText names := by
  cases names with
  | nil => rfl
  | cons n names =>
    obtain ⟨hne, hhere, hslash⟩ := h n List.mem_cons_self
    cases n with
    | nil => exact absurd rfl hne
    | cons c n =>
      have hc : c ≠ '/' := fun hc => hslash (hc ▸ List.mem_cons_self)
      cases n with
      | nil =>
        have hdot : c ≠ '.' := fun hc => hhere (hc ▸ rfl)
        simp [directoryText, plainPath, hc, hdot]
      | cons d n =>
        have hd : d ≠ '/' := fun hd => hslash (by simp [hd])
        simp [directoryText, plainPath, hc, hd]

section Names

variable {names : List Name} (hn : ∀ n ∈ names, IsName n)

include hn

theorem exists_of_slash {b t : List Char} (h : directoryText names = b ++ '/' :: t) :
    ∃ before after, names = before ++ after ∧ before ≠ [] ∧ t = directoryText after ∧
      b ++ ['/'] = directoryText before := by
  induction names generalizing b with
  | nil => simp [directoryText] at h
  | cons n names ih =>
    have hslash := (hn n List.mem_cons_self).slash
    rw [directoryText, List.flatMap_cons, List.append_assoc, List.singleton_append] at h
    rcases List.append_eq_append_iff.1 h with ⟨m, rfl, hm⟩ | ⟨m, rfl, hm⟩
    · cases m with
      | nil =>
        rw [List.nil_append, List.cons.injEq] at hm
        exact ⟨[n], names, rfl, by simp, hm.2.symm, by simp [directoryText]⟩
      | cons c m =>
        rw [List.cons_append, List.cons.injEq] at hm
        obtain ⟨rfl, hm⟩ := hm
        obtain ⟨before, after, rfl, -, ht, hb⟩ :=
          ih (fun a ha => hn a (List.mem_cons_of_mem _ ha)) hm
        refine ⟨n :: before, after, rfl, by simp, ht, ?_⟩
        simp only [directoryText, List.flatMap_cons] at hb ⊢
        simp [← hb]
    · cases m with
      | nil =>
        rw [List.nil_append, List.cons.injEq] at hm
        exact ⟨[b], names, by simp, by simp, hm.2, by simp [directoryText]⟩
      | cons c m =>
        rw [List.cons_append, List.cons.injEq] at hm
        exact absurd (by simp [← hm.1]) hslash

omit hn in
/-- That a predicate asks for the end of a name, as patterns do. -/
def EndsName (after : List Char → Bool) : Prop :=
  (∀ y, after y = true → y = [] ∨ y = ['\n'] ∨ ∃ z, y = '/' :: z) ∧
    ∀ z, after ('/' :: z) = true

omit hn in
theorem nameThen_name {after : List Char → Bool} (ha : EndsName after) {q : Part} (hq : q.Single)
    {n : Name} (hslash : '/' ∉ n) {s : List Char}
    (h : Part.nameThen after q (n ++ '/' :: s) = true) :
    Part.nameThen after q (n ++ ['/']) = true := by
  obtain ⟨x, y, hxy, hx, hy, hall⟩ := Part.exists_of_nameThen hq h
  have hmem : '/' ∈ x ++ y := hxy ▸ by simp
  have hmem : '/' ∈ y := (List.mem_append.1 hmem).resolve_left hx
  rcases ha.1 y hy with rfl | rfl | ⟨z, rfl⟩
  · cases hmem
  · simp at hmem
  · have hnx : n = x := by
      rcases List.append_eq_append_iff.1 hxy with ⟨m, rfl, hm⟩ | ⟨m, rfl, hm⟩
      · cases m with
        | nil => simp
        | cons c m =>
          rw [List.cons_append, List.cons.injEq] at hm
          exact absurd (by simp [← hm.1]) hx
      · cases m with
        | nil => simp
        | cons c m =>
          rw [List.cons_append, List.cons.injEq] at hm
          exact absurd (by simp [← hm.1]) hslash
    exact hnx ▸ hall after ['/'] (ha.2 [])

/-- What describes a directory after some way down describes a directory on that way by its
name. -/
theorem exists_name_of_leadingThen {after : List Char → Bool} (ha : EndsName after) {q : Part}
    (hq : q.Single) (hne : names ≠ [])
    (h : Part.leadingThen (Part.nameThen after q) (directoryText names) = true) :
    ∃ n ∈ names, Part.leadingThen (Part.nameThen after q) (n ++ ['/']) = true := by
  have first {n : Name} {rest : List Name} (hm : n ∈ names)
      (h : Part.nameThen after q (directoryText (n :: rest)) = true) :
      ∃ n ∈ names, Part.leadingThen (Part.nameThen after q) (n ++ ['/']) = true := by
    rw [directoryText, List.flatMap_cons, List.append_assoc, List.singleton_append] at h
    have hslash := (hn n hm).slash
    exact ⟨n, hm, Part.leadingThen_of_start (nameThen_name ha hq hslash h)⟩
  unfold Part.leadingThen at h
  rw [Bool.or_eq_true] at h
  rcases h with h | h
  · obtain ⟨n, rest, rfl⟩ := List.exists_cons_of_ne_nil hne
    exact first List.mem_cons_self h
  · cases hd : directoryText names with
    | nil => simp [hd] at h
    | cons c s =>
      simp only [hd, Bool.and_eq_true, bne_iff_ne] at h
      obtain ⟨b, t, rfl, hb, ht⟩ := Part.exists_of_wayThen h.2
      obtain ⟨before, rest, rfl, hbefore, rfl, htext⟩ := exists_of_slash hn (b := c :: b) hd
      cases rest with
      | cons n rest => exact first (by simp) ht
      | nil =>
        -- The way ends where the path does: the last name is the way then.
        obtain ⟨u, n, rfl⟩ := (List.eq_nil_or_concat before).resolve_left hbefore
        rw [List.concat_eq_append] at htext hn ⊢
        have htext : c :: b = directoryText u ++ n := by
          rw [directoryText, List.flatMap_append, List.flatMap_singleton, ← List.append_assoc]
            at htext
          exact List.append_cancel_right htext
        have hline : '\n' ∉ n := fun hm => by
          have : '\n' ∈ c :: b := htext ▸ List.mem_append_right _ hm
          simp [Ne.symm h.1, hb] at this
        refine ⟨n, by simp, ?_⟩
        cases n with
        | nil => exact absurd rfl (hn [] (by simp)).ne_nil
        | cons d n => exact Part.leadingThen_cons_of_way hline ht

end Names

namespace Shape

/-- That a shape describes single names, wherever they stand. -/
def OneName : Shape → Prop
  | .everything => True
  | .nested => True
  | .parts [.anyWay, q] => q.Single
  | .parts [.anyWay, q, .anyWay] => q.Single
  | .parts _ => False

theorem matchFrom_single {q : Part} (hq : q.Single) (ps : List Part) :
    Part.matchFrom false (q :: ps) = Part.nameThen (Part.matchFrom true ps) q := by
  funext s
  cases q with
  | anyWay => exact hq.elim
  | anyName => simp [Part.matchFrom, Part.afterSlash]
  | name as => simp [Part.matchFrom, Part.afterSlash]

theorem endsName_nil : EndsName (Part.matchFrom true []) := by
  refine ⟨fun y hy => ?_, fun z => by simp [Part.matchFrom, Part.atEnd]⟩
  rw [Part.matchFrom] at hy
  unfold Part.atEnd at hy
  split at hy
  · exact .inl rfl
  · exact .inr (.inl rfl)
  · exact .inr (.inr ⟨_, by rw [beq_iff_eq.1 hy]⟩)

theorem endsName_anyWay : EndsName (Part.matchFrom true [.anyWay]) := by
  refine ⟨fun y hy => .inr (.inr ?_), fun z => by simp [Part.matchFrom]⟩
  rw [Part.matchFrom, beq_iff_eq, List.head?_eq_some_iff] at hy
  exact hy

theorem exists_name_of_matches {s : Shape} (hs : s.OneName) {names : List Name}
    (hn : ∀ n ∈ names, IsName n) (hne : names ≠ [])
    (h : s.matches_ (directoryText names) = true) :
    ∃ n ∈ names, s.matches_ (n ++ ['/']) = true := by
  have hfirst := List.head_mem hne
  match s, hs with
  | .everything, _ => exact ⟨_, hfirst, by simp [matches_]⟩
  | .nested, _ => exact ⟨_, hfirst, by simp [matches_]⟩
  | .parts [.anyWay, q], hq =>
    simp only [matches_, Part.matchAll, matchFrom_single hq] at h ⊢
    exact exists_name_of_leadingThen hn endsName_nil hq hne h
  | .parts [.anyWay, q, .anyWay], hq =>
    simp only [matches_, Part.matchAll, matchFrom_single hq] at h ⊢
    exact exists_name_of_leadingThen hn endsName_anyWay hq hne h

end Shape

/-- A pattern that is no negation and describes single names. -/
structure Pattern.OneName (p : Pattern) : Prop where
  positive : p.negated = false
  shape : p.shape.OneName

namespace Rules

theorem ignores_iff_of_positive {rs : Rules} (h : ∀ p ∈ rs, p.negated = false)
    {path : List Char} :
    rs.ignores path = true ↔ ∃ p ∈ rs, p.shape.matches_ (plainPath path) = true := by
  rw [ignores, verdict?, beq_iff_eq, Option.map_eq_some_iff]
  constructor
  · rintro ⟨p, hp, -⟩
    have hm := List.find?_some (p := fun p : Pattern => p.shape.matches_ (plainPath path)) hp
    exact ⟨p, List.mem_reverse.1 (List.mem_of_find?_eq_some hp), hm⟩
  · rintro ⟨p, hp, hm⟩
    cases hf : rs.reverse.find? fun p => p.shape.matches_ (plainPath path) with
    | none => exact absurd hm (List.find?_eq_none.1 hf p (List.mem_reverse.2 hp))
    | some q =>
      exact ⟨q, rfl, by simp [h q (List.mem_reverse.1 (List.mem_of_find?_eq_some hf))]⟩

/-- Patterns of one name ignore a directory for its path only where they ignore a directory on that
path for its name. -/
theorem exists_name_of_ignores {rs : Rules} (h : ∀ p ∈ rs, p.OneName) {names : List Name}
    (hn : ∀ n ∈ names, IsName n) (hne : names ≠ [])
    (hi : rs.ignores ((Pathname.mk [] names).text ++ ['/']) = true) :
    ∃ n ∈ names, rs.ignores (n ++ ['/']) = true := by
  have hpos : ∀ p ∈ rs, p.negated = false := fun p hp => (h p hp).positive
  rw [ignores_iff_of_positive hpos, directoryText_eq hne, plainPath_directoryText hn] at hi
  obtain ⟨p, hp, hm⟩ := hi
  obtain ⟨n, hmem, hm⟩ := Shape.exists_name_of_matches (h p hp).shape hn hne hm
  refine ⟨n, hmem, (ignores_iff_of_positive hpos).2 ⟨p, hp, ?_⟩⟩
  have hplain : plainPath (directoryText [n]) = directoryText [n] :=
    plainPath_directoryText (by simpa using hn n hmem)
  rw [directoryText, List.flatMap_singleton] at hplain
  rwa [hplain]

end Rules

end Ignore

end ErbLayout
