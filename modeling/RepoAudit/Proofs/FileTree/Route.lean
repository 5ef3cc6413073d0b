import RepoAudit.FileTree
import RepoAudit.Proofs.Text.Lines

/-!
# The routes that paths name

Without links, what a path names can be told from the path and the working directory alone: every
segment leads one step up or down. File operations that succeed work on the route so told.

## Main definitions

- `Path.stepRoute`, `Path.routeFrom` — the route that a path leads to from a directory
- `FileTree.IsPassable` — a segment of a path leads into a directory
- `FileTree.Arrives` — how a path leads to a place

## Main statements

- `Path.routeFrom_join`, `Path.routeFrom_entry` — the routes of paths written behind one another
- `Path.exists_routeFrom_eq` — the last name of a path that ends in a given character
- `FileTree.place_eq_ok_iff` — a path has a place exactly when it leads there
- `FileTree.place_eq_ok` — the route and the file name of a place
- `FileTree.fileName?_of_place_join` — the name of an entry that a path behind another one names
-/

namespace RepoAudit

namespace Path

open RepoAudit.Text

/-- The route that one segment of a path leads to. -/
def stepRoute (r : Route) (segment : List Char) : Route :=
  if segment == ['.', '.'] then r.dropLast
  else if isSilent segment then r
  else r ++ [String.ofList segment]

/-- The route that a path leads to from a directory. -/
def routeFrom (here : Route) (p : Path) : Route :=
  p.segments.foldl stepRoute (if p.isAbsolute then [] else here)

theorem stepRoute_nil (r : Route) : stepRoute r [] = r := rfl

theorem foldl_stepRoute_filter (segments : List (List Char)) (r : Route) :
    (segments.filter fun s => !s.isEmpty).foldl stepRoute r = segments.foldl stepRoute r := by
  induction segments generalizing r with
  | nil => rfl
  | cons s segments ih =>
    cases s with
    | nil => exact ih r
    | cons c cs => exact ih (stepRoute r (c :: cs))

/-- The route that the text of a path leads to, once its root is told. -/
def routeOfText (start : Route) (cs : List Char) : Route :=
  (splitOn '/' cs).foldl stepRoute start

theorem routeOfText_append_cons (start : Route) (as bs : List Char) :
    routeOfText start (as ++ '/' :: bs) = routeOfText (routeOfText start as) bs := by
  rw [routeOfText, splitOn_append_cons, List.foldl_append]
  rfl

theorem routeOfText_append_slash (start : Route) (as : List Char) :
    routeOfText start (as ++ ['/']) = routeOfText start as :=
  routeOfText_append_cons start as []

theorem routeOfText_cons_slash (start : Route) (cs : List Char) :
    routeOfText start ('/' :: cs) = routeOfText start cs := by
  simp [routeOfText, splitOn, stepRoute_nil]

theorem routeFrom_eq (here : Route) (p : Path) :
    p.routeFrom here = routeOfText (if p.isAbsolute then [] else here) p.chars := by
  rw [routeFrom, segments]
  cases h : p.isAbsolute with
  | false => rfl
  | true =>
    rw [isAbsolute] at h
    cases hchars : p.chars with
    | nil => simp [hchars] at h
    | cons c rest =>
      obtain rfl : c = '/' := by simpa [hchars] using h
      exact (routeOfText_cons_slash [] rest).symm

theorem chars_ofList (cs : List Char) : (ofList cs).chars = cs :=
  String.toList_ofList

theorem isAbsolute_append {p : Path} (h : p.chars ≠ []) (cs : List Char) :
    (ofList (p.chars ++ cs)).isAbsolute = p.isAbsolute := by
  rw [isAbsolute, isAbsolute, chars_ofList]
  cases hp : p.chars with
  | nil => exact (h hp).elim
  | cons c rest => rfl

/-- A relative path is written behind another one after exactly one slash. -/
theorem join_eq {q : Path} (hq : q.isAbsolute = false) (p : Path) :
    p.join q =
      if p.chars = [] then q
      else if p.chars.getLast? = some '/' then ofList (p.chars ++ q.chars)
      else ofList (p.chars ++ '/' :: q.chars) := by
  rw [join, hq, if_neg Bool.false_ne_true]
  split
  · next hlast => rw [if_pos (List.getLast?_eq_none_iff.mp hlast)]
  · next hlast =>
    rw [if_neg (by rintro hnil; simp [hnil] at hlast), if_pos hlast]
  · next c hc hlast =>
    rw [if_neg (by rintro hnil; simp [hnil] at hlast), if_neg]
    rw [hlast]
    exact fun h => hc (Option.some.inj h)

/-- A relative path behind another one leads on from where that one leads. -/
theorem routeFrom_join {q : Path} (hq : q.isAbsolute = false) (here : Route) (p : Path) :
    (p.join q).routeFrom here = q.routeFrom (p.routeFrom here) := by
  have hqroute : ∀ r, q.routeFrom r = routeOfText r q.chars := by
    intro r
    rw [routeFrom_eq, hq]
    rfl
  rw [join_eq hq, hqroute, routeFrom_eq here p]
  split
  · next hp =>
    rw [hqroute, isAbsolute, hp]
    rfl
  · next hp =>
    split
    · next hlast =>
      obtain ⟨body, hbody⟩ := List.getLast?_eq_some_iff.mp hlast
      rw [routeFrom_eq, isAbsolute_append hp, chars_ofList, hbody, List.append_assoc,
        List.singleton_append, routeOfText_append_cons, routeOfText_append_slash]
    · rw [routeFrom_eq, isAbsolute_append hp, chars_ofList, routeOfText_append_cons]

/-- The route of an entry whose name is one plain segment. -/
theorem routeFrom_entry {name : String} (habsolute : (Path.mk name).isAbsolute = false)
    (hplain : ∀ r, (Path.mk name).routeFrom r = r ++ [name]) (here : Route) (p : Path) :
    (p.entry name).routeFrom here = p.routeFrom here ++ [name] := by
  rw [entry, routeFrom_join habsolute, hplain]

/-- A text written behind a name is part of the name. -/
theorem entry_append {name ending : String} (hname : (Path.mk name).isAbsolute = false)
    (happended : (Path.mk (name ++ ending)).isAbsolute = false) (p : Path) :
    (⟨(p.entry name).text ++ ending⟩ : Path) = p.entry (name ++ ending) := by
  rw [entry, entry, join_eq hname, join_eq happended]
  split
  · rfl
  · split
    · simp [ofList, chars, String.ofList_append, String.append_assoc]
    · simp [ofList, chars, String.ofList_append, String.append_assoc]

/-- The last part of a text that does not end with the separator ends as the text does. -/
theorem exists_splitOn_eq {separator c : Char} (hc : c ≠ separator) {cs : List Char}
    (h : cs.getLast? = some c) :
    ∃ parts part, splitOn separator cs = parts ++ [part] ∧ part.getLast? = some c := by
  induction cs with
  | nil => simp at h
  | cons a as ih =>
    cases as with
    | nil =>
      obtain rfl : a = c := by simpa using h
      exact ⟨[], [a], by simp [splitOn, hc, consFirst], rfl⟩
    | cons b bs =>
      obtain ⟨parts, part, hsplit, hlast⟩ := ih (by simpa using h)
      rw [splitOn, hsplit]
      by_cases ha : a = separator
      · exact ⟨[] :: parts, part, by simp [ha], hlast⟩
      · rw [if_neg ha]
        cases parts with
        | nil =>
          refine ⟨[], a :: part, rfl, ?_⟩
          rw [List.getLast?_cons, hlast]
          rfl
        | cons first parts => exact ⟨(a :: first) :: parts, part, rfl, hlast⟩

/-- The last segment of a path that does not end with a slash ends as the path does. -/
theorem exists_segments_eq {p : Path} {c : Char} (h : p.chars.getLast? = some c)
    (hslash : c ≠ '/') :
    ∃ parts part, p.segments = parts ++ [part] ∧ part.getLast? = some c := by
  rw [segments]
  split
  · next habsolute =>
    cases hchars : p.chars with
    | nil => simp [hchars] at h
    | cons d rest =>
      obtain rfl : d = '/' := by simpa [isAbsolute, hchars] using habsolute
      refine exists_splitOn_eq hslash ?_
      rw [hchars, List.getLast?_cons] at h
      cases hlast : rest.getLast? with
      | none =>
        rw [hlast] at h
        exact absurd (Option.some.inj h).symm hslash
      | some e =>
        rw [hlast] at h
        rw [List.tail_cons, hlast]
        exact h
  · exact exists_splitOn_eq hslash h

/-- A path that ends in a character of a name leads to a name that ends in it. -/
theorem exists_routeFrom_eq {p : Path} {c : Char} (h : p.chars.getLast? = some c) (hslash : c ≠ '/')
    (hdot : c ≠ '.') (here : Route) :
    ∃ r name, p.routeFrom here = r ++ [name] ∧ name.toList.getLast? = some c := by
  obtain ⟨parts, part, hsplit, hlast⟩ := exists_splitOn_eq hslash h
  have hparent : (part == ['.', '.']) = false := by
    apply beq_false_of_ne
    rintro rfl
    exact hdot (Option.some.inj hlast).symm
  have hsilent : isSilent part = false := by
    have hempty : part ≠ [] := by
      rintro rfl
      simp at hlast
    have hcurrent : part ≠ ['.'] := by
      rintro rfl
      exact hdot (Option.some.inj hlast).symm
    simp [isSilent, hempty, hcurrent]
  rw [routeFrom_eq, routeOfText, hsplit, List.foldl_append, List.foldl_cons, List.foldl_nil,
    stepRoute, hparent, hsilent, if_neg Bool.false_ne_true, if_neg Bool.false_ne_true]
  exact ⟨_, _, rfl, by rwa [String.toList_ofList]⟩

/-- The last segment that is not empty gives the file name, unless it is a dot or a double dot. -/
theorem fileName?_of_getLast? {p : Path} {name : List Char}
    (h : (p.segments.filter fun s => !s.isEmpty).getLast? = some name) (hdot : name ≠ ['.'])
    (hparent : name ≠ ['.', '.']) : p.fileName? = some name := by
  have hinner : ((p.segments.filter fun s => !isSilent s).map componentOf).getLast? =
      some (.name name) := by
    obtain ⟨body, hbody⟩ := List.getLast?_eq_some_iff.mp h
    have hfilter : (p.segments.filter fun s => !isSilent s) =
        (p.segments.filter fun s => !s.isEmpty).filter fun s => s != ['.'] := by
      rw [List.filter_filter]
      apply List.filter_congr
      intro s _
      simp [isSilent, bne, Bool.and_comm]
    rw [hfilter, hbody, List.filter_append, List.map_append]
    simp [componentOf, hdot, hparent]
  have hcomponents : p.components.getLast? = some (.name name) := by
    rw [components]
    split
    · rw [List.getLast?_cons, hinner]
      rfl
    · split
      · next rest hrest =>
        rw [hrest] at hinner
        rw [List.getLast?_cons]
        rw [List.filter_cons_of_neg (by decide)] at hinner
        rw [hinner]
        rfl
      · exact hinner
  rw [fileName?, hcomponents]

theorem filter_segments (p : Path) : (p.segments.filter fun s => !s.isEmpty) =
    (splitOn '/' p.chars).filter fun s => !s.isEmpty := by
  rw [segments]
  split
  · next h =>
    obtain ⟨rest, hrest⟩ : ∃ rest, p.chars = '/' :: rest := by
      cases hchars : p.chars with
      | nil => simp [isAbsolute, hchars] at h
      | cons c rest =>
        obtain rfl : c = '/' := by simpa [isAbsolute, hchars] using h
        exact ⟨rest, rfl⟩
    rw [hrest, List.tail_cons, splitOn, if_pos rfl]
    rfl
  · rfl

/-- A path written behind another one is found at its end, after a slash if anything comes first. -/
theorem exists_chars_join {q : Path} (hq : q.isAbsolute = false) (p : Path) :
    ∃ lead, (p.join q).chars = lead ++ q.chars ∧ (lead = [] ∨ lead.getLast? = some '/') := by
  rw [join_eq hq]
  split
  · exact ⟨[], rfl, .inl rfl⟩
  · split
    · next hlast => exact ⟨p.chars, chars_ofList _, .inr hlast⟩
    · refine ⟨p.chars ++ ['/'], ?_, .inr List.getLast?_concat⟩
      rw [chars_ofList, List.append_assoc, List.singleton_append]

/-- The last segment of a path that does not end with a slash stays the last one behind another
path. -/
theorem getLast?_segments_join {p q : Path} {c : Char} (hq : q.isAbsolute = false)
    (h : q.chars.getLast? = some c) (hslash : c ≠ '/') :
    ((p.join q).segments.filter fun s => !s.isEmpty).getLast? =
      (q.segments.filter fun s => !s.isEmpty).getLast? := by
  obtain ⟨lead, hchars, hlead⟩ := exists_chars_join hq p
  obtain ⟨parts, part, hsplit, hpart⟩ := exists_splitOn_eq hslash h
  have hne : part.isEmpty = false := by
    cases part with
    | nil => simp at hpart
    | cons d ds => rfl
  obtain ⟨before, hbefore⟩ :
      ∃ before, splitOn '/' (lead ++ q.chars) = before ++ splitOn '/' q.chars := by
    rcases hlead with rfl | hlead
    · exact ⟨[], rfl⟩
    · obtain ⟨body, rfl⟩ := List.getLast?_eq_some_iff.mp hlead
      refine ⟨splitOn '/' body, ?_⟩
      rw [List.append_assoc, List.singleton_append, splitOn_append_cons]
  rw [filter_segments, filter_segments, hchars, hbefore, hsplit]
  simp [List.filter_append, hne]

end Path

namespace FileTree

open RepoAudit.Path

/-- A segment of a path can be passed: it is a double dot, it is silent, or it is the name of a
directory and short enough. -/
def IsPassable (t : FileTree) (here : Route) (segment : List Char) : Prop :=
  segment = ['.', '.'] ∨ isSilent segment = true ∨
    ¬maxNameLength < Text.byteLength segment ∧
      t.node? (stepRoute here segment) = some .directory

theorem descend_cons_eq_ok_iff {t : FileTree} {here r : Route} {segment : List Char}
    {segments : List (List Char)} : t.descend here (segment :: segments) = .ok r ↔
      t.IsPassable here segment ∧ t.descend (stepRoute here segment) segments = .ok r := by
  rw [descend, IsPassable, stepRoute]
  by_cases hparent : segment == ['.', '.']
  · rw [if_pos hparent, if_pos hparent]
    simp [beq_iff_eq.mp hparent]
  rw [if_neg hparent, if_neg hparent]
  by_cases hsilent : isSilent segment
  · rw [if_pos hsilent, if_pos hsilent]
    simp [hsilent]
  rw [if_neg hsilent, if_neg hsilent]
  rw [beq_iff_eq] at hparent
  dsimp only
  split
  · simp [*]
  · split <;> simp [*]

theorem descend_eq_ok {t : FileTree} {here r : Route} {segments : List (List Char)}
    (h : t.descend here segments = .ok r) : r = segments.foldl stepRoute here := by
  induction segments generalizing here with
  | nil => exact (Except.ok.inj h).symm
  | cons s segments ih => exact ih (descend_cons_eq_ok_iff.mp h).2

theorem exists_of_map_eq_ok {α β : Type} {f : α → β} {act : Except FileError α} {b : β}
    (h : act.map f = .ok b) : ∃ a, act = .ok a ∧ f a = b := by
  cases act with
  | error e => cases h
  | ok a => exact ⟨a, rfl, Except.ok.inj h⟩

/-- How a path that is fit to be followed leads to a place. -/
inductive Arrives (t : FileTree) (here : Route) (p : Path) : Place → Prop
  /-- The path has no segments but empty ones. -/
  | origin (hnone : (p.segments.filter fun s => !s.isEmpty).getLast? = none) :
      Arrives t here p (.directory (if p.isAbsolute then [] else here))
  /-- The last segment is a dot or a double dot. -/
  | dots {last : List Char} {r : Route}
      (hlast : (p.segments.filter fun s => !s.isEmpty).getLast? = some last)
      (hdots : last = ['.'] ∨ last = ['.', '.'])
      (hdescend : t.descend (if p.isAbsolute then [] else here)
        (p.segments.filter fun s => !s.isEmpty) = .ok r) : Arrives t here p (.directory r)
  /-- The last segment is a name that is short enough. -/
  | entry {last : List Char} {parent : Route}
      (hlast : (p.segments.filter fun s => !s.isEmpty).getLast? = some last)
      (hdots : ¬(last = ['.'] ∨ last = ['.', '.'])) (hlength : ¬maxNameLength < Text.byteLength last)
      (hdescend : t.descend (if p.isAbsolute then [] else here)
        (p.segments.filter fun s => !s.isEmpty).dropLast = .ok parent) :
      Arrives t here p
        (.entry parent (String.ofList last) (p.chars.getLast? == some '/'))

/-- A path has a place exactly when it is not empty, holds no null character and leads there. -/
theorem place_eq_ok_iff {t : FileTree} {here : Route} {p : Path} {place : Place} :
    t.place here p = .ok place ↔
      p.chars ≠ [] ∧ Char.ofNat 0 ∉ p.chars ∧ t.Arrives here p place := by
  rw [FileTree.place]
  constructor
  · intro h
    split at h
    · cases h
    next hempty =>
    split at h
    · cases h
    next hnull =>
    refine ⟨by simpa using hempty, by simpa using hnull, ?_⟩
    dsimp only at h
    split at h
    · next hnone =>
      cases h
      exact .origin hnone
    next last hlast =>
    split at h
    · next hdots =>
      obtain ⟨r, hdescend, rfl⟩ := exists_of_map_eq_ok h
      exact .dots hlast (by simpa using hdots) hdescend
    next hdots =>
    split at h
    · cases hdescend : descend t (if p.isAbsolute then [] else here)
        (p.segments.filter fun s => !s.isEmpty).dropLast with
      | error e => simp [hdescend, Except.bind] at h
      | ok r => simp [hdescend, Except.bind] at h
    · next hlength =>
      obtain ⟨r, hdescend, rfl⟩ := exists_of_map_eq_ok h
      exact .entry hlast (by simpa using hdots) hlength hdescend
  · rintro ⟨hempty, hnull, h⟩
    rw [if_neg (by simpa using hempty), if_neg (by simpa using hnull)]
    dsimp only
    cases h with
    | origin hnone => rw [hnone]
    | dots hlast hdots hdescend =>
      rw [hlast]
      dsimp only
      rw [if_pos (by simpa using hdots), hdescend]
      rfl
    | entry hlast hdots hlength hdescend =>
      rw [hlast]
      dsimp only
      rw [if_neg (by simpa using hdots), if_neg hlength, hdescend]
      rfl

/-- The route of a place; the name of a named one is the file name of the path. -/
theorem place_eq_ok {t : FileTree} {here : Route} {p : Path} {place : Place}
    (h : t.place here p = .ok place) :
    match place with
    | .directory r => p.routeFrom here = r
    | .entry parent name _ =>
      p.routeFrom here = parent ++ [name] ∧ p.fileName? = some name.toList := by
  obtain ⟨-, -, harrives⟩ := place_eq_ok_iff.mp h
  rw [routeFrom, ← foldl_stepRoute_filter]
  cases harrives with
  | origin hnone =>
    rw [List.getLast?_eq_none_iff.mp hnone]
    rfl
  | dots hlast hdots hdescend => exact (descend_eq_ok hdescend).symm
  | @entry last parent hlast hdots hlength hdescend =>
    obtain ⟨hdot, hparent⟩ := not_or.mp hdots
    have hempty : last ≠ [] := by
      have hmem := List.mem_of_getLast? hlast
      simpa using (List.mem_filter.mp hmem).2
    refine ⟨?_, by rw [String.toList_ofList]; exact fileName?_of_getLast? hlast hdot hparent⟩
    obtain ⟨body, hbody⟩ := List.getLast?_eq_some_iff.mp hlast
    rw [hbody, List.dropLast_concat] at hdescend
    rw [hbody, List.foldl_append, ← descend_eq_ok hdescend]
    simp [stepRoute, isSilent, hdot, hparent, hempty]

/-- A path that ends in a character of a name names an entry. -/
theorem place_ne_directory {t : FileTree} {here r : Route} {p : Path} {c : Char}
    (h : p.chars.getLast? = some c) (hslash : c ≠ '/') (hdot : c ≠ '.') :
    t.place here p ≠ .ok (.directory r) := by
  obtain ⟨parts, part, hsegments, hlast⟩ := exists_segments_eq h hslash
  have hpart : ∀ body, part ≠ body ++ ['.'] := by
    rintro body rfl
    exact hdot (Option.some.inj (by simpa using hlast)).symm
  have hempty : part ≠ [] := by
    rintro rfl
    simp at hlast
  have hfilter : (p.segments.filter fun s => !s.isEmpty).getLast? = some part := by
    rw [hsegments, List.filter_append]
    simp [hempty]
  intro hplace
  obtain ⟨-, -, harrives⟩ := place_eq_ok_iff.mp hplace
  cases harrives with
  | origin hnone => cases hfilter.symm.trans hnone
  | dots hend hdots hdescend =>
    obtain rfl := Option.some.inj (hfilter.symm.trans hend)
    exact hdots.elim (hpart []) (hpart ['.'])

theorem place_entry {t : FileTree} {here parent : Route} {p : Path} {name : String} {slash : Bool}
    (h : t.place here p = .ok (.entry parent name slash)) :
    p.routeFrom here = parent ++ [name] ∧ p.fileName? = some name.toList :=
  place_eq_ok h

/-- The name of a named place is the last segment of the path that is not empty. -/
theorem getLast?_segments_of_place {t : FileTree} {here parent : Route} {p : Path} {name : String}
    {slash : Bool} (h : t.place here p = .ok (.entry parent name slash)) :
    (p.segments.filter fun s => !s.isEmpty).getLast? = some name.toList ∧
      name.toList ≠ ['.'] ∧ name.toList ≠ ['.', '.'] ∧ slash = (p.chars.getLast? == some '/') := by
  obtain ⟨-, -, harrives⟩ := place_eq_ok_iff.mp h
  cases harrives with
  | entry hlast hdots hlength hdescend =>
    rw [String.toList_ofList]
    exact ⟨hlast, (not_or.mp hdots).1, (not_or.mp hdots).2, rfl⟩

/-- A path that names an entry behind another one has the name of the entry as its own. -/
theorem fileName?_of_place_join {t : FileTree} {here parent : Route} {p q : Path} {name : String}
    (h : t.place here (p.join q) = .ok (.entry parent name false)) :
    q.fileName? = some name.toList := by
  cases hq : q.isAbsolute with
  | true =>
    rw [join, if_pos hq] at h
    exact (place_entry h).2
  | false =>
    obtain ⟨hlast, hdot, hparent, hslash⟩ := getLast?_segments_of_place h
    obtain ⟨lead, hchars, hlead⟩ := exists_chars_join hq p
    have hend : (lead ++ q.chars).getLast? ≠ some '/' := by
      rw [← hchars]
      exact ne_of_beq_false hslash.symm
    cases hqlast : q.chars.getLast? with
    | none =>
      -- An empty path behind another one leaves a slash at the end, or nothing at all.
      rw [List.getLast?_eq_none_iff.mp hqlast, List.append_nil] at hchars hend
      obtain rfl := hlead.resolve_right hend
      rw [FileTree.place, hchars, List.isEmpty_nil, if_pos rfl] at h
      cases h
    | some c =>
      rw [List.getLast?_append, hqlast] at hend
      have hc : c ≠ '/' := fun hc => hend (congrArg some hc)
      exact fileName?_of_getLast? (getLast?_segments_join hq hqlast hc ▸ hlast) hdot hparent

end FileTree

end RepoAudit
