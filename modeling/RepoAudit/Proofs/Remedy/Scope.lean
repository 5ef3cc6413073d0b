import Mathlib.Order.Bounds.Basic
import RepoAudit.Proofs.Remedy.Prompt

/-!
# Scopes among inserted preambles

The scope of a line is the nearest function line above it to which nothing between the two is
indented as little. Preambles are only more lines in between, so they never give a line a scope
that it did not have, and they take its scope away exactly when one of them is indented as little
as the function line. That happens where the first line of a body is a comment that stands further
to the left than the statements do.

## Main definitions

- `IsOpen` — a line stands in the body of a function, preambles in between included
- `KeepsScopes` — lines and preambles have the scopes that the original lines had
- `StandInside` — preambles stand deep enough, and directly in the functions that need them

## Main statements

- `scopeAmong_eq_some_iff` — the scope of a line is the last function that is open above it
- `scopeAmong_boundAbove_eq_iff` — when a line keeps its scope
- `keepsScopes_iff` — when all lines do, and each prompt finds a preamble in its own scope
-/

namespace RepoAudit.Remedy.Prompt

open RepoAudit.Text RepoAudit.Python

/-! ### Open functions -/

/-- A function line stands above a place, and everything between the two is indented more than it:
what is searched from there, each line that says something about scope, and each preamble. -/
structure IsOpen (sites : List (Nat × List Char)) (lines : List Line) (index bound d : Nat) :
    Prop where
  above : d < index
  isDef : isDef (lines.getD d []) = true
  bound : indentWidth (lines.getD d []) < bound
  line : ∀ j < index, d < j → isTransparent (lines.getD j []) = false →
    indentWidth (lines.getD d []) < indentWidth (lines.getD j [])
  site : ∀ j < index, d < j → ∀ indentation ∈ indentationAt? sites j,
    indentWidth (lines.getD d []) < byteLength indentation

instance (sites : List (Nat × List Char)) (lines : List Line) (index bound d : Nat) :
    Decidable (IsOpen sites lines index bound d) :=
  decidable_of_iff
    (d < index ∧ Python.isDef (lines.getD d []) = true ∧ indentWidth (lines.getD d []) < bound ∧
      (∀ j < index, d < j → isTransparent (lines.getD j []) = false →
        indentWidth (lines.getD d []) < indentWidth (lines.getD j [])) ∧
      ∀ j < index, d < j → ∀ indentation ∈ indentationAt? sites j,
        indentWidth (lines.getD d []) < byteLength indentation)
    ⟨fun ⟨habove, hdef, hbound, hline, hsite⟩ => ⟨habove, hdef, hbound, hline, hsite⟩,
      fun h => ⟨h.above, h.isDef, h.bound, h.line, h.site⟩⟩

/-- The bound of a search for a scope after a line: a line that says something about scope lowers
it to its own indentation. -/
def boundBelow (line : Line) (bound : Nat) : Nat :=
  if isTransparent line then bound else min bound (indentWidth line)

/-- A line that opens a function says something about scope. -/
theorem isTransparent_of_isDef {line : Line} (h : isDef line = true) :
    isTransparent line = false := by
  by_contra htransparent
  rw [Bool.not_eq_false, isTransparent] at htransparent
  have hnone : isDef line = false := by
    cases hhead : (trimStart line).head? with
    | none =>
      rw [isDef, List.head?_eq_none_iff.mp hhead]
      rfl
    | some c =>
      rw [hhead] at htransparent
      refine isDef_of_head? hhead ?_ ?_ <;>
      · rintro rfl
        exact absurd htransparent (by decide)
  rw [hnone] at h
  cases h

section Open

variable {sites : List (Nat × List Char)} {lines : List Line} {index bound d : Nat}

theorem lt_boundBelow_iff {line : Line} {width : Nat} : width < boundBelow line bound ↔
    width < bound ∧ (isTransparent line = false → width < indentWidth line) := by
  rw [boundBelow]
  cases isTransparent line <;> simp

theorem lt_boundAbove_iff {width : Nat} : width < boundAbove sites index bound ↔
    width < bound ∧ ∀ indentation ∈ indentationAt? sites index, width < byteLength indentation := by
  rw [boundAbove]
  cases indentationAt? sites index <;> simp

/-- The functions that are open below a line are the one it opens and those open above it. -/
theorem isOpen_succ : IsOpen sites lines (index + 1) bound d ↔
    d = index ∧ isDef (lines.getD index []) = true ∧ indentWidth (lines.getD index []) < bound ∨
      IsOpen sites lines index
        (boundAbove sites index (boundBelow (lines.getD index []) bound)) d := by
  constructor
  · intro h
    rcases Nat.lt_succ_iff_lt_or_eq.mp h.above with hlt | rfl
    · refine .inr ⟨hlt, h.isDef, lt_boundAbove_iff.mpr ⟨lt_boundBelow_iff.mpr ⟨h.bound, ?_⟩, ?_⟩,
        fun j hj => h.line j (by omega), fun j hj => h.site j (by omega)⟩
      · exact h.line index (by omega) hlt
      · exact h.site index (by omega) hlt
    · exact .inl ⟨rfl, h.isDef, h.bound⟩
  · rintro (⟨rfl, hdef, hbound⟩ | h)
    · exact ⟨by omega, hdef, hbound, fun j _ _ => by omega, fun j _ _ => by omega⟩
    · obtain ⟨hbelow, hsite⟩ := lt_boundAbove_iff.mp h.bound
      obtain ⟨hbound, hline⟩ := lt_boundBelow_iff.mp hbelow
      refine ⟨Nat.lt_succ_of_lt h.above, h.isDef, hbound, fun j hj hlt => ?_, fun j hj hlt => ?_⟩
      · rcases Nat.lt_succ_iff_lt_or_eq.mp hj with hj | rfl
        · exact h.line j hj hlt
        · exact hline
      · rcases Nat.lt_succ_iff_lt_or_eq.mp hj with hj | rfl
        · exact h.site j hj hlt
        · exact hsite

@[simp] theorem boundAbove_zero : boundAbove sites index 0 = 0 := by
  rw [boundAbove]
  cases indentationAt? sites index <;> simp

/-- Nothing is indented less than not at all. -/
theorem scopeAmong_zero (index : Nat) : scopeAmong sites lines index 0 = none := by
  induction index with
  | zero => rfl
  | succ index ih => simp [scopeAmong, ih]

/-- A search for a scope stops at a function line within its bound, and lowers the bound at any
other line. -/
theorem scopeAmong_succ (index bound : Nat) : scopeAmong sites lines (index + 1) bound =
    if isDef (lines.getD index []) = true ∧ indentWidth (lines.getD index []) < bound then
      some index
    else scopeAmong sites lines index
      (boundAbove sites index (boundBelow (lines.getD index []) bound)) := by
  -- A line without indentation ends the search; a bound of zero finds nothing either.
  rw [scopeAmong]
  generalize hline : lines.getD index [] = line
  by_cases hbound : bound ≤ indentWidth line
  · rw [if_pos (by simp [hbound]), if_neg (by omega), boundBelow, Nat.min_eq_left hbound, ite_self]
  · cases htransparent : isTransparent line with
    | true =>
      have hdef : ¬ isDef line = true := by
        intro hdef
        rw [isTransparent_of_isDef hdef] at htransparent
        cases htransparent
      rw [if_pos (by simp), if_neg (fun h => hdef h.1), boundBelow, htransparent, if_pos rfl]
    | false =>
      have hmin : boundBelow line bound = indentWidth line := by
        rw [boundBelow, htransparent, if_neg Bool.false_ne_true]
        omega
      rw [if_neg (by simp [hbound]), hmin]
      by_cases hdef : isDef line = true
      · rw [if_pos hdef, if_pos ⟨hdef, by omega⟩]
      · have hhere : ¬ (isDef line = true ∧ indentWidth line < bound) := fun h => hdef h.1
        rw [if_neg hdef, if_neg hhere]
        split
        · next hwidth => rw [hwidth, boundAbove_zero, scopeAmong_zero]
        · rfl

/-- The scope of a line is the last function that is open above it. -/
theorem scopeAmong_eq_some_iff : scopeAmong sites lines index bound = some d ↔
    IsGreatest {e | IsOpen sites lines index bound e} d := by
  induction index generalizing bound with
  | zero =>
    have hnone : ∀ e, ¬ IsOpen sites lines 0 bound e := fun e h => absurd h.above (by omega)
    simp [scopeAmong, IsGreatest, hnone]
  | succ index ih =>
    rw [scopeAmong_succ]
    split
    · next hhere =>
      have hopen : IsOpen sites lines (index + 1) bound index := isOpen_succ.mpr (.inl ⟨rfl, hhere⟩)
      have hgreatest : IsGreatest {e | IsOpen sites lines (index + 1) bound e} index :=
        ⟨hopen, fun e he => Nat.le_of_lt_succ he.above⟩
      rw [Option.some_inj]
      exact ⟨fun h => h ▸ hgreatest, hgreatest.unique⟩
    · next hhere =>
      have hset : {e | IsOpen sites lines (index + 1) bound e} =
          {e | IsOpen sites lines index
            (boundAbove sites index (boundBelow (lines.getD index []) bound)) e} := by
        ext e
        exact isOpen_succ.trans (or_iff_right fun h => hhere h.2)
      rw [ih, hset]

/-- Where a function is open, there is a scope. -/
theorem IsOpen.exists_scopeAmong (h : IsOpen sites lines index bound d) :
    ∃ e, scopeAmong sites lines index bound = some e := by
  induction index generalizing bound with
  | zero => exact absurd h.above (by omega)
  | succ index ih =>
    rw [scopeAmong_succ]
    split
    · exact ⟨index, rfl⟩
    · next hhere =>
      rcases isOpen_succ.mp h with ⟨-, hdef⟩ | hopen
      · exact absurd hdef hhere
      · exact ih hopen

/-- Preambles close functions and open none. -/
theorem isOpen_boundAbove_iff : IsOpen sites lines index (boundAbove sites index bound) d ↔
    IsOpen [] lines index bound d ∧ ∀ place ≤ index, d < place →
      ∀ indentation ∈ indentationAt? sites place,
        indentWidth (lines.getD d []) < byteLength indentation := by
  have hnone : ∀ j, indentationAt? [] j = none := fun _ => rfl
  constructor
  · intro h
    obtain ⟨hbound, hsite⟩ := lt_boundAbove_iff.mp h.bound
    refine ⟨⟨h.above, h.isDef, hbound, h.line, fun j _ _ => by simp [hnone]⟩, ?_⟩
    intro place hle hlt
    rcases Nat.lt_or_eq_of_le hle with hle | rfl
    · exact h.site place hle hlt
    · exact hsite
  · rintro ⟨h, hsites⟩
    exact ⟨h.above, h.isDef,
      lt_boundAbove_iff.mpr ⟨h.bound, hsites index (Nat.le_refl _) h.above⟩, h.line,
      fun j hj => hsites j (Nat.le_of_lt hj)⟩

/-- A line keeps its scope exactly when each preamble between the function line and the line is
indented more than the function line. -/
theorem scopeAmong_boundAbove_eq_iff :
    scopeAmong sites lines index (boundAbove sites index bound) =
        scopeAmong [] lines index bound ↔
      ∀ d ∈ scopeAmong [] lines index bound, ∀ place ≤ index, d < place →
        ∀ indentation ∈ indentationAt? sites place,
          indentWidth (lines.getD d []) < byteLength indentation := by
  constructor
  · intro h d hd
    rw [← h, Option.mem_def, scopeAmong_eq_some_iff] at hd
    exact (isOpen_boundAbove_iff.mp hd.1).2
  · intro h
    cases hd : scopeAmong [] lines index bound with
    | some d =>
      have hgreatest := scopeAmong_eq_some_iff.mp hd
      rw [scopeAmong_eq_some_iff]
      exact ⟨isOpen_boundAbove_iff.mpr ⟨hgreatest.1, h d hd⟩,
        fun e he => hgreatest.2 (isOpen_boundAbove_iff.mp he).1⟩
    | none =>
      by_contra hsome
      obtain ⟨d, hd'⟩ := Option.ne_none_iff_exists'.mp hsome
      obtain ⟨e, he⟩ :=
        (isOpen_boundAbove_iff.mp (scopeAmong_eq_some_iff.mp hd').1).1.exists_scopeAmong
      rw [hd] at he
      cases he

/-- The lines of a preamble stand directly in the function of a line below it when the function
is the last one that is open above the preamble. -/
theorem scopeAmong_site_eq_some_iff {place : Nat} {indentation : List Char}
    (hd : scopeAmong [] lines index bound = some d) (hplace : place ≤ index)
    (hindentation : indentation ∈ indentationAt? sites place)
    (hdeeper : ∀ place ≤ index, d < place → ∀ indentation ∈ indentationAt? sites place,
      indentWidth (lines.getD d []) < byteLength indentation) :
    scopeAmong sites lines place (byteLength indentation) = some d ↔
      d < place ∧ ∀ e < place, IsOpen sites lines place (byteLength indentation) e → e ≤ d := by
  have hopen := (scopeAmong_eq_some_iff.mp hd).1
  rw [scopeAmong_eq_some_iff]
  constructor
  · exact fun h => ⟨h.1.above, fun e _ he => h.2 he⟩
  · rintro ⟨hlt, hlast⟩
    refine ⟨⟨hlt, hopen.isDef, hdeeper place hplace hlt indentation hindentation,
      fun j hj => hopen.line j (by omega), fun j hj => hdeeper j (by omega)⟩, ?_⟩
    exact fun e he => hlast e he.above he

end Open

/-! ### The lines of the changed text -/

theorem definesSanitized_getD_preamble {indentation : List Char}
    (h : ∀ c ∈ indentation, isBlank c = true) (k : Nat) :
    definesSanitized ((preamble indentation).getD k []) = (k == 1) := by
  have hguard : ∀ c ∈ indentation ++ guardIndent indentation, isBlank c = true :=
    fun c => isBlank_of_mem_guard h
  obtain ⟨himport, hassign, hcheck, hraise⟩ := definesSanitized_statements
  rw [preamble_eq]
  match k with
  | 0 => exact (definesSanitized_append h _).trans himport
  | 1 => exact (definesSanitized_append h _).trans hassign
  | 2 => exact (definesSanitized_append h _).trans hcheck
  | 3 => exact (definesSanitized_append hguard _).trans hraise
  | k + 4 => rfl

/-- The scope of a line among others. -/
theorem enclosingDef?_append_cons (before : List Line) (line : Line) (after : List Line) :
    enclosingDef? (before ++ line :: after) before.length =
      scopeAbove (indentWidth line) before.reverse := by
  rw [enclosingDef?, List.getD_append_right _ _ _ _ (Nat.le_refl _), Nat.sub_self,
    List.take_left' rfl]
  rfl

theorem scopeAbove_take {lines : List Line} {index : Nat} (h : index ≤ lines.length) (bound : Nat) :
    scopeAbove bound (lines.take index).reverse = scopeAmong [] lines index bound := by
  induction index generalizing bound with
  | zero => rfl
  | succ index ih =>
    have hlength : (lines.take index).reverse.length = index := by
      rw [List.length_reverse, List.length_take_of_le (by omega)]
    have hbound : ∀ bound, boundAbove [] index bound = bound := fun _ => rfl
    rw [reverse_take_succ h, scopeAbove, scopeAmong, hlength]
    simp only [hbound, ih (Nat.le_of_succ_le h)]

/-- Without preambles the scope of a line is the one it has. -/
theorem enclosingDef?_eq_scopeAmong {lines : List Line} {index : Nat} (h : index < lines.length) :
    enclosingDef? lines index = scopeAmong [] lines index (indentWidth (lines.getD index [])) :=
  scopeAbove_take (Nat.le_of_lt h) _

section Lines

variable {sites : List (Nat × List Char)} {lines : List Line} {index : Nat}

/-- The changed lines above a line, its preamble, and the rest. -/
theorem insertPreambles_eq (h : index < lines.length) : ∃ rest,
    insertPreambles sites 0 lines = (linesAbove sites lines index).reverse ++
      (preambleAt sites index ++ switchName (lines.getD index []) :: rest) := by
  have hall := @reverse_insertPreambles_zero sites lines
  have hbelow := @reverse_insertPreambles sites lines index
  rw [Nat.max_eq_right (Nat.le_of_lt h), ← hall, List.drop_eq_getElem_cons h,
    insertPreambles_cons] at hbelow
  refine ⟨insertPreambles sites (index + 1) (lines.drop (index + 1)), ?_⟩
  rw [← List.reverse_inj, ← hbelow, List.getD_eq_getElem _ _ h]
  simp

theorem preambleAt_of_site {indentation : List Char}
    (h : indentationAt? sites index = some indentation) :
    preambleAt sites index = preamble indentation := by
  rw [preambleAt, h]

theorem placeOf_eq : placeOf sites lines index =
    (linesAbove sites lines index).length + (preambleAt sites index).length := by
  rw [placeOf, List.length_append, List.length_reverse, Nat.add_comm]

theorem length_linesAbove_succ :
    (linesAbove sites lines (index + 1)).length = placeOf sites lines index + 1 := rfl

/-- The changed text has each line where the preambles moved it. -/
theorem getD_placeOf (h : index < lines.length) :
    (insertPreambles sites 0 lines).getD (placeOf sites lines index) [] =
      switchName (lines.getD index []) := by
  obtain ⟨rest, hrest⟩ := @insertPreambles_eq sites lines index h
  have hlength : ((linesAbove sites lines index).reverse ++ preambleAt sites index).length =
      placeOf sites lines index := by
    rw [placeOf_eq, List.length_append, List.length_reverse]
  rw [hrest, ← List.append_assoc, ← hlength, List.getD_append_right _ _ _ _ (Nat.le_refl _),
    Nat.sub_self]
  rfl

/-- A line that is no line of the original text belongs to a preamble. -/
theorem exists_preamble_of_lt_placeOf {place : Nat} (h : place < placeOf sites lines index)
    (hplace : place ∉ Set.range (placeOf sites lines)) :
    ∃ site ≤ index, ∃ indentation, indentationAt? sites site = some indentation ∧
      ∃ k < 4, place = (linesAbove sites lines site).length + k := by
  have here : ∀ site, (linesAbove sites lines site).length ≤ place →
      place < placeOf sites lines site → ∃ indentation, indentationAt? sites site = some indentation ∧
        ∃ k < 4, place = (linesAbove sites lines site).length + k := by
    intro site hle hlt
    rw [placeOf_eq] at hlt
    cases hindentation : indentationAt? sites site with
    | none =>
      rw [preambleAt, hindentation, List.length_nil] at hlt
      omega
    | some indentation =>
      rw [preambleAt_of_site hindentation] at hlt
      have hfour : (preamble indentation).length = 4 := rfl
      exact ⟨indentation, rfl, place - (linesAbove sites lines site).length, by omega, by omega⟩
  induction index with
  | zero => exact ⟨0, Nat.le_refl _, here 0 (Nat.zero_le _) h⟩
  | succ index ih =>
    -- The number is in the block of the next line, or it is below that of the line before.
    by_cases hle : (linesAbove sites lines (index + 1)).length ≤ place
    · exact ⟨index + 1, Nat.le_refl _, here (index + 1) hle h⟩
    · have hne : placeOf sites lines index ≠ place := fun heq => hplace ⟨index, heq⟩
      rw [length_linesAbove_succ] at hle
      obtain ⟨site, hsite, hblock⟩ := ih (by omega)
      exact ⟨site, Nat.le_succ_of_le hsite, hblock⟩

/-- The lines of a preamble are no lines of the original text. -/
theorem notMem_range_placeOf {site k : Nat} {indentation : List Char}
    (hsite : indentationAt? sites site = some indentation) (hk : k < 4) :
    (linesAbove sites lines site).length + k ∉ Set.range (placeOf sites lines) := by
  have hplace : placeOf sites lines site = (linesAbove sites lines site).length + 4 := by
    rw [placeOf_eq, preambleAt_of_site hsite]
    rfl
  rintro ⟨index, hindex⟩
  rcases Nat.lt_or_ge index site with hlt | hle
  · obtain ⟨before, rfl⟩ : ∃ before, site = before + 1 := ⟨site - 1, by omega⟩
    have hmono := (@placeOf_strictMono sites lines).monotone (Nat.le_of_lt_succ hlt)
    rw [length_linesAbove_succ] at hindex
    omega
  · have hmono := (@placeOf_strictMono sites lines).monotone hle
    omega

theorem getD_preamble {site k : Nat} {indentation : List Char} (h : site < lines.length)
    (hsite : indentationAt? sites site = some indentation) (hk : k < 4) :
    (insertPreambles sites 0 lines).getD ((linesAbove sites lines site).length + k) [] =
      (preamble indentation).getD k [] := by
  obtain ⟨rest, hrest⟩ := @insertPreambles_eq sites lines site h
  have hfour : (preamble indentation).length = 4 := rfl
  rw [hrest, preambleAt_of_site hsite, List.getD_append_right _ _ _ _ (by simp), List.length_reverse,
    Nat.add_sub_cancel_left, List.getD_append _ _ _ _ (by omega)]

variable (hblank : ∀ index indentation, indentationAt? sites index = some indentation →
  ∀ c ∈ indentation, isBlank c = true)

include hblank

/-- The scope of a line in the changed text. -/
theorem enclosingDef?_placeOf (h : index < lines.length) :
    enclosingDef? (insertPreambles sites 0 lines) (placeOf sites lines index) =
      (scopeAmong sites lines index
        (boundAbove sites index (indentWidth (lines.getD index [])))).map (placeOf sites lines) := by
  obtain ⟨rest, hrest⟩ := @insertPreambles_eq sites lines index h
  have hscope := enclosingDef?_append_cons
    ((linesAbove sites lines index).reverse ++ preambleAt sites index)
    (switchName (lines.getD index [])) rest
  rw [List.append_assoc, ← hrest, List.length_append, List.length_reverse, ← placeOf_eq,
    List.reverse_append, List.reverse_reverse, scopeAbove_preambleAt hblank,
    scopeAbove_linesAbove hblank, indentWidth_switchName] at hscope
  exact hscope

/-- The scope of the assignment in a preamble. -/
theorem enclosingDef?_assignment {indentation : List Char} (h : index < lines.length)
    (hsite : indentationAt? sites index = some indentation) :
    enclosingDef? (insertPreambles sites 0 lines) ((linesAbove sites lines index).length + 1) =
      (scopeAmong sites lines index (byteLength indentation)).map (placeOf sites lines) := by
  obtain ⟨rest, hrest⟩ := @insertPreambles_eq sites lines index h
  have hindentation := hblank index indentation hsite
  rw [preambleAt_of_site hsite, preamble_eq] at hrest
  have hscope := enclosingDef?_append_cons
    ((linesAbove sites lines index).reverse ++ [indentation ++ importStatement])
    (indentation ++ assignStatement)
    ([indentation ++ checkStatement, indentation ++ guardIndent indentation ++ guardRaise] ++
      switchName (lines.getD index []) :: rest)
  rw [List.append_assoc, List.length_append, List.length_reverse, List.reverse_append,
    List.reverse_reverse] at hscope
  rw [hrest]
  refine hscope.trans ?_
  change scopeAbove _ ((indentation ++ importStatement) :: linesAbove sites lines index) = _
  rw [(isStatement_importStatement.append hindentation).scopeAbove,
    indentWidth_statement hindentation rfl, indentWidth_statement hindentation rfl, Nat.min_self,
    scopeAbove_linesAbove hblank]

/-- An inserted assignment above a line has a scope exactly when the lines of some preamble at or
above the line have it. -/
theorem exists_assignment_iff (h : index < lines.length) (scope : Option Nat) :
    (∃ place < placeOf sites lines index, place ∉ Set.range (placeOf sites lines) ∧
        definesSanitized ((insertPreambles sites 0 lines).getD place []) = true ∧
        enclosingDef? (insertPreambles sites 0 lines) place = scope.map (placeOf sites lines)) ↔
      ∃ site ≤ index, ∃ indentation, indentationAt? sites site = some indentation ∧
        scopeAmong sites lines site (byteLength indentation) = scope := by
  have hinjective : Function.Injective (Option.map (placeOf sites lines)) :=
    Option.map_injective placeOf_strictMono.injective
  constructor
  · rintro ⟨place, hlt, hplace, hdefines, hscope⟩
    obtain ⟨site, hle, indentation, hsite, k, hk, rfl⟩ := exists_preamble_of_lt_placeOf hlt hplace
    rw [getD_preamble (by omega) hsite hk,
      definesSanitized_getD_preamble (hblank site indentation hsite), beq_iff_eq] at hdefines
    subst hdefines
    rw [enclosingDef?_assignment hblank (by omega) hsite] at hscope
    exact ⟨site, hle, indentation, hsite, hinjective hscope⟩
  · rintro ⟨site, hle, indentation, hsite, rfl⟩
    have hplace : placeOf sites lines site = (linesAbove sites lines site).length + 4 := by
      rw [placeOf_eq, preambleAt_of_site hsite]
      rfl
    have hmono := (@placeOf_strictMono sites lines).monotone hle
    refine ⟨(linesAbove sites lines site).length + 1, by omega,
      notMem_range_placeOf hsite (by decide), ?_, enclosingDef?_assignment hblank (by omega) hsite⟩
    rw [getD_preamble (by omega) hsite (by decide),
      definesSanitized_getD_preamble (hblank site indentation hsite)]
    rfl

end Lines

/-! ### Scopes that are kept -/

/-- The number of a line in the changed text. -/
def shifted (lines : List Line) : Nat → Nat :=
  placeOf (preambleSites lines) lines

/-- Every line has the scope that it had, and every prompt that needs a preamble in a function has
the sanitized input assigned above it by an inserted line in the scope of that function. -/
structure KeepsScopes (lines lines' : List Line) : Prop where
  image : ∀ index < lines.length,
    lines'.getD (shifted lines index) [] = switchName (lines.getD index [])
  scope : ∀ index < lines.length,
    enclosingDef? lines' (shifted lines index) = (enclosingDef? lines index).map (shifted lines)
  assigned : ∀ prompt ∈ promptLines lines, isSanitizedBefore lines prompt = false →
    ∀ d ∈ enclosingDef? lines prompt, ∃ place < shifted lines prompt,
      place ∉ Set.range (shifted lines) ∧ definesSanitized (lines'.getD place []) = true ∧
        enclosingDef? lines' place = some (shifted lines d)

/-- Preambles in a function are indented more than the line that opens it, and every prompt that
needs one in a function finds one between the two that stands in no function further in. -/
structure StandInside (lines : List Line) : Prop where
  deeper : ∀ index < lines.length, ∀ d ∈ enclosingDef? lines index, ∀ place ≤ index, d < place →
    ∀ indentation ∈ indentationAt? (preambleSites lines) place,
      indentWidth (lines.getD d []) < byteLength indentation
  reached : ∀ prompt ∈ promptLines lines, isSanitizedBefore lines prompt = false →
    ∀ d ∈ enclosingDef? lines prompt, ∃ place ≤ prompt,
      ∃ indentation ∈ indentationAt? (preambleSites lines) place, d < place ∧
        ∀ e < place, IsOpen (preambleSites lines) lines place (byteLength indentation) e → e ≤ d

instance (lines : List Line) : Decidable (StandInside lines) :=
  decidable_of_iff
    ((∀ index < lines.length, ∀ d ∈ enclosingDef? lines index, ∀ place ≤ index, d < place →
        ∀ indentation ∈ indentationAt? (preambleSites lines) place,
          indentWidth (lines.getD d []) < byteLength indentation) ∧
      ∀ prompt ∈ promptLines lines, isSanitizedBefore lines prompt = false →
        ∀ d ∈ enclosingDef? lines prompt, ∃ place ≤ prompt,
          ∃ indentation ∈ indentationAt? (preambleSites lines) place, d < place ∧
            ∀ e < place, IsOpen (preambleSites lines) lines place (byteLength indentation) e →
              e ≤ d)
    ⟨fun ⟨hdeeper, hreached⟩ => ⟨hdeeper, hreached⟩, fun h => ⟨h.deeper, h.reached⟩⟩

section Kept

variable {lines : List Line} {index : Nat}

/-- A line keeps its scope exactly when the preambles between the function line and the line are
indented more than the function line. -/
theorem enclosingDef?_shifted_eq_iff (h : index < lines.length) :
    enclosingDef? (insertPreambles (preambleSites lines) 0 lines) (shifted lines index) =
        (enclosingDef? lines index).map (shifted lines) ↔
      ∀ d ∈ enclosingDef? lines index, ∀ place ≤ index, d < place →
        ∀ indentation ∈ indentationAt? (preambleSites lines) place,
          indentWidth (lines.getD d []) < byteLength indentation := by
  have hinjective : Function.Injective (Option.map (placeOf (preambleSites lines) lines)) :=
    Option.map_injective placeOf_strictMono.injective
  unfold shifted
  rw [enclosingDef?_placeOf (isBlank_of_preambleSites lines) h, hinjective.eq_iff,
    enclosingDef?_eq_scopeAmong h, scopeAmong_boundAbove_eq_iff]

theorem lt_length_of_mem_promptLines {prompt : Nat} (h : prompt ∈ promptLines lines) :
    prompt < lines.length := by
  rw [promptLines, List.mem_filter, List.mem_range] at h
  exact h.1

/-- Where the preambles below a function line are indented more than it, an inserted assignment
has the scope of the function exactly when its preamble stands in no function further in. -/
theorem exists_assigned_iff (h : index < lines.length) {d : Nat} (hd : d ∈ enclosingDef? lines index)
    (hdeeper : ∀ place ≤ index, d < place →
      ∀ indentation ∈ indentationAt? (preambleSites lines) place,
        indentWidth (lines.getD d []) < byteLength indentation) :
    (∃ place < shifted lines index, place ∉ Set.range (shifted lines) ∧
        definesSanitized ((insertPreambles (preambleSites lines) 0 lines).getD place []) = true ∧
        enclosingDef? (insertPreambles (preambleSites lines) 0 lines) place =
          some (shifted lines d)) ↔
      ∃ place ≤ index, ∃ indentation ∈ indentationAt? (preambleSites lines) place, d < place ∧
        ∀ e < place, IsOpen (preambleSites lines) lines place (byteLength indentation) e →
          e ≤ d := by
  rw [Option.mem_def, enclosingDef?_eq_scopeAmong h] at hd
  refine (exists_assignment_iff (isBlank_of_preambleSites lines) h (some d)).trans ?_
  -- Both sides are about the same preambles; only what is said of their scopes differs.
  refine exists_congr fun place => and_congr_right fun hplace => exists_congr fun indentation =>
    and_congr_right fun hindentation => ?_
  exact scopeAmong_site_eq_some_iff hd hplace hindentation hdeeper

/-- Scopes are kept exactly when the preambles stand inside the functions. -/
theorem keepsScopes_insertPreambles_iff :
    KeepsScopes lines (insertPreambles (preambleSites lines) 0 lines) ↔ StandInside lines := by
  constructor
  · intro h
    have hdeeper := fun index (hindex : index < lines.length) =>
      (enclosingDef?_shifted_eq_iff hindex).mp (h.scope index hindex)
    refine ⟨hdeeper, fun prompt hprompt hraw d hd => ?_⟩
    have hlt := lt_length_of_mem_promptLines hprompt
    exact (exists_assigned_iff hlt hd (hdeeper prompt hlt d hd)).mp
      (h.assigned prompt hprompt hraw d hd)
  · intro h
    refine ⟨fun index => getD_placeOf,
      fun index hindex => (enclosingDef?_shifted_eq_iff hindex).mpr (h.deeper index hindex),
      fun prompt hprompt hraw d hd => ?_⟩
    have hlt := lt_length_of_mem_promptLines hprompt
    exact (exists_assigned_iff hlt hd (h.deeper prompt hlt d hd)).mpr
      (h.reached prompt hprompt hraw d hd)

end Kept

/-- Sanitizing the prompts of a text keeps its scopes exactly when the preambles stand inside the
functions. -/
theorem keepsScopes_iff {content text : List Char} (h : transform content = some text) :
    KeepsScopes (splitLines content).1 (splitLines text).1 ↔
      StandInside (splitLines content).1 := by
  rw [splitLines_transform h]
  exact keepsScopes_insertPreambles_iff

/-- A function with another one inside it, each with a prompt. -/
def nestedPrompts : List Char :=
  ["def ask(user_input):\n", "    def again():\n", "        prompt = \"A: \" + user_input\n",
    "    prompt = f\"\x7buser_input\x7d\"\n"].flatMap String.toList

/-- The functions with a preamble each. -/
def nestedPromptsSanitized : List Char :=
  ["def ask(user_input):\n", "    import re\n",
    "    sanitized_input = re.sub(r\"[\\x00-\\x1f\\x7f;]\", \"\", str(user_input))\n",
    "    if any(keyword in sanitized_input.lower() for keyword in (\"ignore\", \"system\")):\n",
    "        raise ValueError(\"Invalid request detected\")\n", "    def again():\n",
    "        import re\n",
    "        sanitized_input = re.sub(r\"[\\x00-\\x1f\\x7f;]\", \"\", str(user_input))\n",
    "        if any(keyword in sanitized_input.lower() for keyword in (\"ignore\", \"system\")):\n",
    "            raise ValueError(\"Invalid request detected\")\n",
    "        prompt = \"A: \" + sanitized_input\n",
    "    prompt = f\"\x7bsanitized_input\x7d\"\n"].flatMap String.toList

theorem keepsScopes_nestedPrompts :
    transform nestedPrompts = some nestedPromptsSanitized ∧
      StandInside (splitLines nestedPrompts).1 ∧
      KeepsScopes (splitLines nestedPrompts).1 (splitLines nestedPromptsSanitized).1 := by
  have htransform : transform nestedPrompts = some nestedPromptsSanitized := by decide +kernel
  have hinside : StandInside (splitLines nestedPrompts).1 := by decide +kernel
  exact ⟨htransform, hinside, (keepsScopes_iff htransform).mpr hinside⟩

/-- A function whose body starts with a comment that is not indented. -/
def commentedPrompt : List Char :=
  ["def f(user_input):\n", "# note\n", "    prompt = \"a\" + user_input\n"].flatMap String.toList

/-- The function with its preamble indented like the comment, outside of it. -/
def commentedPromptSanitized : List Char :=
  ["def f(user_input):\n", "import re\n",
    "sanitized_input = re.sub(r\"[\\x00-\\x1f\\x7f;]\", \"\", str(user_input))\n",
    "if any(keyword in sanitized_input.lower() for keyword in (\"ignore\", \"system\")):\n",
    "    raise ValueError(\"Invalid request detected\")\n", "# note\n",
    "    prompt = \"a\" + sanitized_input\n"].flatMap String.toList

/-- The prompt is in no function any more, and the result is accepted all the same. -/
theorem not_keepsScopes_commentedPrompt :
    transform commentedPrompt = some commentedPromptSanitized ∧
      verify commentedPromptSanitized = .passed ∧
      promptLines (splitLines commentedPrompt).1 = [2] ∧
      isSanitizedBefore (splitLines commentedPrompt).1 2 = false ∧
      enclosingDef? (splitLines commentedPrompt).1 2 = some 0 ∧
      shifted (splitLines commentedPrompt).1 2 = 6 ∧
      enclosingDef? (splitLines commentedPromptSanitized).1 6 = none ∧
      ¬ KeepsScopes (splitLines commentedPrompt).1 (splitLines commentedPromptSanitized).1 := by
  have hplace : shifted (splitLines commentedPrompt).1 2 = 6 := by decide +kernel
  have hbefore : enclosingDef? (splitLines commentedPrompt).1 2 = some 0 := by decide +kernel
  have hafter : enclosingDef? (splitLines commentedPromptSanitized).1 6 = none := by decide +kernel
  refine ⟨by decide +kernel, by decide +kernel, by decide +kernel, by decide +kernel, hbefore,
    hplace, hafter, fun h => ?_⟩
  have hscope := h.scope 2 (by decide +kernel)
  rw [hplace, hbefore, hafter] at hscope
  cases hscope

end RepoAudit.Remedy.Prompt
