import Mathlib.Algebra.Group.Nat.Even
import RepoAudit.Proofs.Path.Below
import RepoAudit.Session

/-!
# Folding a path by its text

A local repository is named by an absolute path that is folded by its text alone. In the lexical
folding a double dot takes back the name before it, and at the root, where there is none, it stays
at the root. The fold of the components differs at the root: there a double dot is kept, and the
next one that finds no name takes it back again. So the two agree exactly when the number of double
dots in surplus is even.

## Main definitions

- `Path.lexicalNames`, `Path.folding` — the lexical folding of an absolute path
- `Path.surplus` — how many double dots of a path find no name to take back
- `Path.IsPlainName` — a segment that is neither empty nor made of dots that lead elsewhere
- `Session.spelled` — the path that a local repository is named by

## Main statements

- `Path.foldl_foldComponent` — the two folds side by side
- `Path.normalize_eq` — what an absolute path is folded to
- `Session.resolve_eq_folding_iff` — when a repository is resolved to the lexical folding
-/

namespace RepoAudit

namespace Path

open RepoAudit.Text

/-- A segment that names an entry: it is not empty, no dot and no double dot, and has no slash. -/
structure IsPlainName (segment : List Char) : Prop where
  ne_nil : segment ≠ []
  ne_current : segment ≠ ['.']
  ne_parent : segment ≠ ['.', '.']
  notMem : '/' ∉ segment

/-- One component folded into the names passed so far, which are kept in reverse: a double dot takes
back the name before it, if there is one. -/
def lexicalStep (names : List (List Char)) : Component → List (List Char)
  | .name n => n :: names
  | .parent => names.tail
  | .current => names
  | .root => names

/-- The names that are left of a path. -/
def lexicalNames (p : Path) : List (List Char) :=
  (p.components.foldl lexicalStep []).reverse

/-- The lexical folding of an absolute path. -/
def folding (p : Path) : Path :=
  ofSegments true p.lexicalNames

/-- How many double dots find no name to take back when `depth` names have been passed. -/
def surplusFrom (depth : Nat) : List Component → Nat
  | [] => 0
  | .name _ :: cs => surplusFrom (depth + 1) cs
  | .parent :: cs => if depth = 0 then surplusFrom 0 cs + 1 else surplusFrom (depth - 1) cs
  | .current :: cs => surplusFrom depth cs
  | .root :: cs => surplusFrom depth cs

/-- How many double dots of a path find no name to take back. -/
def surplus (p : Path) : Nat :=
  surplusFrom 0 p.components

/-- What the fold keeps below the names after some double dots in surplus. -/
def ground (surplus : Nat) : List Component :=
  if Even surplus then [.root] else [.parent, .root]

/-! ## The two folds -/

theorem foldComponent_ground (n : Nat) : foldComponent (ground n) .parent = ground (n + 1) := by
  by_cases h : Even n
  · have hnext : ¬ Even (n + 1) := by rwa [Nat.even_add_one, not_not]
    rw [ground, if_pos h, ground, if_neg hnext]
    rfl
  · have hnext : Even (n + 1) := by rwa [Nat.even_add_one]
    rw [ground, if_neg h, ground, if_pos hnext]
    rfl

/-- Both folds keep the same names, and below them the one of the components keeps the root and the
double dots in surplus, two of which take each other back. -/
theorem foldl_foldComponent {components : List Component} (hroot : .root ∉ components)
    (names : List (List Char)) (n : Nat) :
    components.foldl foldComponent (names.map .name ++ ground n) =
      (components.foldl lexicalStep names).map .name ++
        ground (n + surplusFrom names.length components) := by
  induction components generalizing names n with
  | nil => rfl
  | cons c cs ih =>
    rw [List.mem_cons, not_or] at hroot
    have ih := ih hroot.2
    rw [List.foldl_cons, List.foldl_cons]
    cases c with
    | root => exact absurd rfl hroot.1
    | current => exact ih names n
    | name m => exact ih (m :: names) n
    | parent =>
      cases names with
      | cons m names => exact ih names n
      | nil =>
        -- Only here the folds differ: the lexical one stays where it is.
        have hstep : surplusFrom 0 (.parent :: cs) = surplusFrom 0 cs + 1 := rfl
        show cs.foldl foldComponent (foldComponent (ground n) .parent) =
          (cs.foldl lexicalStep []).map .name ++ ground (n + surplusFrom 0 (.parent :: cs))
        rw [foldComponent_ground, hstep, ← Nat.add_assoc, Nat.add_right_comm]
        exact ih [] (n + 1)

theorem lexicalNames_map_name (names passed : List (List Char)) :
    (names.map .name).foldl lexicalStep passed = names.reverse ++ passed := by
  induction names generalizing passed with
  | nil => rfl
  | cons n names ih =>
    rw [List.map_cons, List.foldl_cons, lexicalStep, ih, List.reverse_cons, List.append_assoc]
    rfl

theorem surplusFrom_map_name (depth : Nat) (names : List (List Char)) :
    surplusFrom depth (names.map .name) = 0 := by
  induction names generalizing depth with
  | nil => rfl
  | cons n names ih => exact ih (depth + 1)

theorem mem_or_of_mem_foldl_lexicalStep {components : List Component} {names : List (List Char)}
    {n : List Char} (h : n ∈ components.foldl lexicalStep names) :
    n ∈ names ∨ .name n ∈ components := by
  induction components generalizing names with
  | nil => exact .inl h
  | cons c cs ih =>
    rcases ih h with hstep | hrest
    · cases c with
      | root => exact .inl hstep
      | current => exact .inl hstep
      | parent => exact .inl (List.mem_of_mem_tail hstep)
      | name m =>
        rcases List.mem_cons.mp hstep with rfl | hmem
        · exact .inr List.mem_cons_self
        · exact .inl hmem
    · exact .inr (List.mem_cons_of_mem c hrest)

/-! ## Absolute paths -/

theorem IsPlainName.not_isSilent {s : List Char} (h : IsPlainName s) : isSilent s = false := by
  simp [isSilent, h.ne_nil, h.ne_current]

theorem IsPlainName.componentOf_eq {s : List Char} (h : IsPlainName s) :
    componentOf s = .name s := by
  rw [componentOf, if_neg (by simpa using h.ne_parent)]

/-- The names that are left of a path are plain. -/
theorem isPlainName_of_mem_lexicalNames {p : Path} (h : p.isAbsolute = true) {n : List Char}
    (hn : n ∈ p.lexicalNames) : IsPlainName n := by
  rw [lexicalNames, List.mem_reverse] at hn
  have hmem := (mem_or_of_mem_foldl_lexicalStep hn).resolve_left List.not_mem_nil
  rw [components_of_isAbsolute h, named, List.mem_cons, List.mem_map] at hmem
  obtain ⟨s, hs, hcomponent⟩ := hmem.resolve_left (by simp)
  obtain ⟨hsegment, hspoken⟩ := List.mem_filter.mp hs
  rw [componentOf] at hcomponent
  split at hcomponent
  · cases hcomponent
  · next hparent =>
    cases hcomponent
    simp only [isSilent, Bool.not_eq_true', Bool.or_eq_false_iff, beq_eq_false_iff_ne] at hspoken
    exact ⟨by simpa using hspoken.1, hspoken.2, by simpa using hparent,
      notMem_of_mem_segments hsegment⟩

/-- The double dots that the fold leaves behind the root. -/
def lead (p : Path) : List (List Char) :=
  if Even p.surplus then [] else [['.', '.']]

theorem lead_eq_or (p : Path) : p.lead = [] ∨ p.lead = [['.', '.']] := by
  rw [lead]
  split
  · exact .inl rfl
  · exact .inr rfl

/-- An absolute path is folded to the names that are left of it, behind a double dot if the number
of double dots in surplus is odd. -/
theorem normalize_eq {p : Path} (h : p.isAbsolute = true) :
    p.normalize = ofSegments true (p.lead ++ p.lexicalNames) := by
  have hroot : .root ∉ named p.segments := fun hmem => (mem_named hmem).1 rfl
  have hfold := foldl_foldComponent hroot [] 0
  have hcomponents := components_of_isAbsolute h
  have hsame : p.components.foldl foldComponent [] =
      p.lexicalNames.reverse.map .name ++ ground p.surplus := by
    rw [lexicalNames, List.reverse_reverse, surplus, hcomponents]
    rwa [Nat.zero_add, List.map_nil, List.nil_append] at hfold
  have hnames : (p.lexicalNames.map Component.name).map segmentOf = p.lexicalNames := by
    rw [List.map_map]
    exact List.map_id _
  rw [normalize, hsame, List.reverse_append, ← List.map_reverse, List.reverse_reverse, lead,
    ground]
  split
  · show ofSegments true ((p.lexicalNames.map Component.name).map segmentOf) = _
    rw [hnames]
    rfl
  · show ofSegments true (['.', '.'] :: (p.lexicalNames.map Component.name).map segmentOf) = _
    rw [hnames]
    rfl

/-- A path that is spelled by plain names behind at most one double dot folds to itself. -/
theorem normalize_ofSegments {names front : List (List Char)}
    (hnames : ∀ n ∈ names, IsPlainName n) (hfront : front = [] ∨ front = [['.', '.']]) :
    (ofSegments true (front ++ names)).normalize = ofSegments true (front ++ names) := by
  have hslash : ∀ s ∈ front ++ names, '/' ∉ s := by
    intro s hs
    rcases List.mem_append.mp hs with hs | hs
    · rcases hfront with rfl | rfl
      · cases hs
      · rw [List.mem_singleton.mp hs]
        decide
    · exact (hnames s hs).notMem
  have hspoken : ∀ s ∈ front ++ names, isSilent s = false := by
    intro s hs
    rcases List.mem_append.mp hs with hs | hs
    · rcases hfront with rfl | rfl
      · cases hs
      · rw [List.mem_singleton.mp hs]
        rfl
    · exact (hnames s hs).not_isSilent
  obtain ⟨habsolute, hsegments⟩ := segments_ofSegments true hslash (by simp)
  generalize hq : ofSegments true (front ++ names) = q at habsolute hsegments ⊢
  -- No segment is silent, so each of them is a component.
  have hnamed : named q.segments = (front ++ names).map componentOf := by
    rw [hsegments]
    split
    · next hnil =>
      rw [hnil]
      rfl
    · rw [named, List.filter_eq_self.mpr]
      intro s hs
      rw [hspoken s hs]
      rfl
  have hcomponents : q.components = .root :: (front.map componentOf ++ names.map .name) := by
    rw [components_of_isAbsolute habsolute, hnamed, List.map_append]
    congr 2
    exact List.map_congr_left fun n hn => (hnames n hn).componentOf_eq
  have hlexical : q.lexicalNames = names := by
    rw [lexicalNames, hcomponents]
    rcases hfront with rfl | rfl
    · simp [lexicalStep, lexicalNames_map_name]
    · simp [lexicalStep, componentOf, lexicalNames_map_name]
  have hlead : q.lead = front := by
    rw [lead, surplus, hcomponents]
    rcases hfront with rfl | rfl
    · simp [surplusFrom, surplusFrom_map_name]
    · simp [surplusFrom, componentOf, surplusFrom_map_name]
  rw [normalize_eq habsolute, hlead, hlexical, hq]

theorem isAbsolute_ofSegments (segments : List (List Char)) :
    (ofSegments true segments).isAbsolute = true := by
  rw [isAbsolute, ofSegments, chars_ofList]
  rfl

/-- A double dot behind the root makes another path. -/
theorem text_ofSegments_parent_ne (names : List (List Char)) :
    (ofSegments true (['.', '.'] :: names)).text ≠ (ofSegments true names).text := by
  intro h
  have hlength : (ofSegments true (['.', '.'] :: names)).chars.length =
      (ofSegments true names).chars.length := congrArg (fun t : String => t.toList.length) h
  simp only [ofSegments, if_true, chars_ofList, List.length_cons] at hlength
  cases names with
  | nil => revert hlength; decide
  | cons n names =>
    rw [List.intercalate_cons_cons] at hlength
    simp only [List.length_append, List.length_cons] at hlength
    omega

theorem isAbsolute_join {p : Path} (h : p.isAbsolute = true) (q : Path) :
    (p.join q).isAbsolute = true := by
  cases hq : q.isAbsolute with
  | true => rw [join, if_pos hq, hq]
  | false =>
    have hne : p.chars ≠ [] := by
      intro hnil
      rw [isAbsolute, hnil] at h
      cases h
    rw [join_eq hq, if_neg hne]
    split <;> rw [isAbsolute_append hne, h]

end Path

namespace Session

open RepoAudit.Path

/-- The path that a local repository is named by, before it is folded. -/
def spelled (s : Session) (repository : String) : Path :=
  s.workDirectory.join ⟨repository⟩

theorem resolve_eq_normalize {s : Session} {repository : String}
    (hlocal : isRemote repository = false) :
    s.resolve repository = (s.spelled repository).normalize.text := by
  rw [resolve, hlocal]
  rfl

/-- An absolute path names no remote repository. -/
theorem isRemote_of_isAbsolute {p : Path} (h : p.isAbsolute = true) : isRemote p.text = false := by
  obtain ⟨rest, hrest⟩ := List.head?_eq_some_iff.mp (beq_iff_eq.mp h)
  have hchars : p.text.toList = '/' :: rest := hrest
  rw [isRemote, hchars]
  rfl

/-- A local repository is resolved to an absolute path that has no empty component and no dot: the
names that are left of the path it is spelled by, behind a double dot if the number of double dots
in surplus is odd. So this is the lexical folding exactly when that number is even. What is resolved
stays as it is when it is resolved again, and two spellings of which the same names are left name
one repository exactly when their numbers are both even or both odd. -/
theorem resolve_eq_folding_iff {s : Session} (hwork : s.workDirectory.isAbsolute = true)
    {repository : String} (hlocal : isRemote repository = false) :
    (∀ name ∈ (s.spelled repository).lexicalNames, IsPlainName name) ∧
    s.resolve repository = (ofSegments true
      ((s.spelled repository).lead ++ (s.spelled repository).lexicalNames)).text ∧
    (s.resolve repository = (s.spelled repository).folding.text ↔
      Even (s.spelled repository).surplus) ∧
    s.resolve (s.resolve repository) = s.resolve repository ∧
    ∀ other, isRemote other = false →
      (s.spelled other).lexicalNames = (s.spelled repository).lexicalNames →
        (s.resolve other = s.resolve repository ↔
          (Even (s.spelled other).surplus ↔ Even (s.spelled repository).surplus)) := by
  have habsolute : ∀ r, (s.spelled r).isAbsolute = true := fun r => isAbsolute_join hwork _
  have hplain := fun n => isPlainName_of_mem_lexicalNames (n := n) (habsolute repository)
  have hresolve : ∀ r, isRemote r = false →
      s.resolve r = (ofSegments true ((s.spelled r).lead ++ (s.spelled r).lexicalNames)).text := by
    intro r hr
    rw [resolve_eq_normalize hr, normalize_eq (habsolute r)]
  have hresolved := hresolve repository hlocal
  refine ⟨hplain, hresolved, ?_, ?_, fun other hother hnames => ?_⟩
  · rw [hresolved, folding, lead]
    by_cases heven : Even (s.spelled repository).surplus
    · simp [heven]
    · simpa [heven] using text_ofSegments_parent_ne (s.spelled repository).lexicalNames
  · have hagain : (Path.mk (s.resolve repository)).isAbsolute = true := by
      rw [hresolved]
      exact isAbsolute_ofSegments _
    have hspelled : s.spelled (s.resolve repository) = ⟨s.resolve repository⟩ := by
      rw [spelled, join, if_pos hagain]
    rw [resolve_eq_normalize (isRemote_of_isAbsolute hagain), hspelled, hresolved]
    exact congrArg Path.text
      (normalize_ofSegments hplain (lead_eq_or (s.spelled repository)))
  · rw [hresolve other hother, hresolved, hnames, lead, lead]
    have hne := text_ofSegments_parent_ne (s.spelled repository).lexicalNames
    by_cases heven : Even (s.spelled repository).surplus <;>
      by_cases heven' : Even (s.spelled other).surplus
    · simp [heven, heven']
    · simpa [heven, heven'] using hne
    · simpa [heven, heven'] using hne.symm
    · simp [heven, heven']

/-- A session in a directory right below the root. -/
def workSession : Session := .new ⟨"/work"⟩ .default

/-- Four spellings of one path, with no double dot in surplus, with one, with two and with three. -/
theorem resolve_eq_folding_iff_twoSurplus :
    workSession.workDirectory.isAbsolute = true ∧ isRemote "../../../shop" = false ∧
    workSession.resolve "../../../shop" = "/shop" ∧
    workSession.resolve (workSession.resolve "../../../shop") = "/shop" := by
  have hlocal : isRemote "../../../shop" = false := by decide
  have hall := resolve_eq_folding_iff (s := workSession) (by decide) hlocal
  have heven : Even (workSession.spelled "../../../shop").surplus := by decide
  have hfolding : (workSession.spelled "../../../shop").folding.text = "/shop" := by decide
  have hresolved := (hall.2.2.1.mpr heven).trans hfolding
  exact ⟨by decide, hlocal, hresolved, hall.2.2.2.1.trans hresolved⟩

/-- With one double dot in surplus a path is resolved to one that keeps it, although the same path
with none or with two is resolved to the lexical folding. -/
theorem not_resolve_eq_folding_oneSurplus :
    workSession.resolve "../../shop" = "/../shop" ∧
    (workSession.spelled "../../shop").folding.text = "/shop" ∧
    workSession.resolve "../shop" = "/shop" ∧ workSession.resolve "../../../shop" = "/shop" := by
  decide

end Session

end RepoAudit
