import Mathlib.Order.Bounds.Basic
import RepoAudit.Proofs.Python.Scope

/-!
# The function around a line

The search for the function around a line goes upwards with a bound on the indentation, which every
line that counts makes smaller. What it finds is told without the bound: it is the last function
line above from which all lines that count, down to the line itself, are indented more. A search
that ends early, at a line that is not indented, has missed nothing.

## Main definitions

- `Encloses` — a line stands in the body of a function
- `OpensAbove` — the same for some lines and a bound in place of the line
- `narrowed` — the bound above a line

## Main statements

- `scopeAbove_take_succ` — how the search goes over one line
- `isGreatest_scopeAbove` — what it finds among some lines
- `isGreatest_enclosingDef?` — the function around a line is the last one that encloses it
- `Encloses.exists_enclosingDef?` — the functions around the lines of a body are inside it
-/

namespace RepoAudit.Python

open RepoAudit.Text

variable {lines : List Line} {index bound d k n : Nat} {line : Line}

/-- The characters with which a comment and the end of a bracket start. -/
def passedMarks : List Char :=
  ['#', ')', ']', '}']

/-- A line stands in the body of a function: the function line stands above and is indented less
than the line, and less than all lines between the two, where those that are blank or start with a
comment or a closing bracket do not count. -/
structure Encloses (lines : List Line) (d index : Nat) : Prop where
  /-- The function line stands above. -/
  lt : d < index
  /-- It opens a function. -/
  isDef : isDef (lines.getD d []) = true
  /-- It is indented less than the line. -/
  outdented : indentWidth (lines.getD d []) < indentWidth (lines.getD index [])
  /-- No line in between leaves the body. -/
  stays : ∀ k, d < k → k < index → ∀ c ∈ (trimStart (lines.getD k [])).head?, c ∉ passedMarks →
    indentWidth (lines.getD d []) < indentWidth (lines.getD k [])

/-- A function line is indented less than a bound, and less than the lines behind it, up to some
number, that count. -/
structure OpensAbove (lines : List Line) (n bound d : Nat) : Prop where
  /-- The function line is one of the first lines. -/
  lt : d < n
  /-- It opens a function. -/
  isDef : isDef (lines.getD d []) = true
  /-- It is indented less than the bound. -/
  outdented : indentWidth (lines.getD d []) < bound
  /-- No line behind it leaves the body. -/
  stays : ∀ k, d < k → k < n → isTransparent (lines.getD k []) = false →
    indentWidth (lines.getD d []) < indentWidth (lines.getD k [])

/-- The bound for the lines above a line. -/
def narrowed (bound : Nat) (line : Line) : Nat :=
  if isTransparent line then bound else min bound (indentWidth line)

/-! ## Lines that count -/

theorem isTransparent_eq_false_iff : isTransparent line = false ↔
    ∃ c ∈ (trimStart line).head?, c ∉ passedMarks := by
  rw [isTransparent]
  cases (trimStart line).head? with
  | none => simp
  | some c => simp [passedMarks, and_assoc]

/-- A line that opens a function counts. -/
theorem isTransparent_of_isDef (h : isDef line = true) : isTransparent line = false := by
  have hstarts : ∀ {keyword rest : List Char}, afterKeyword? keyword (trimStart line) = some rest →
      ∃ tail, trimStart line = keyword ++ tail := by
    intro keyword rest hrest
    obtain ⟨tail, htail, -⟩ := Option.bind_eq_some_iff.mp hrest
    exact ⟨tail, after?_eq_some.mp htail⟩
  rw [isTransparent_eq_false_iff]
  rw [isDef] at h
  cases hasync : afterKeyword? "async".toList (trimStart line) with
  | some body =>
    obtain ⟨tail, htail⟩ := hstarts hasync
    rw [htail]
    exact ⟨'a', rfl, by decide⟩
  | none =>
    simp only [hasync, Option.getD_none] at h
    cases hdef : afterKeyword? "def".toList (trimStart line) with
    | none =>
      rw [hdef] at h
      cases h
    | some name =>
      obtain ⟨tail, htail⟩ := hstarts hdef
      rw [htail]
      exact ⟨'d', rfl, by decide⟩

/-- A line encloses another one exactly if it opens a function above it, with the indentation of the
line as the bound. -/
theorem encloses_iff :
    Encloses lines d index ↔ OpensAbove lines index (indentWidth (lines.getD index [])) d := by
  have hcounts : ∀ k, isTransparent (lines.getD k []) = false ↔
      ∃ c ∈ (trimStart (lines.getD k [])).head?, c ∉ passedMarks :=
    fun k => isTransparent_eq_false_iff
  constructor
  · intro h
    refine ⟨h.lt, h.isDef, h.outdented, fun k hdk hk hcount => ?_⟩
    obtain ⟨c, hc, hmark⟩ := (hcounts k).mp hcount
    exact h.stays k hdk hk c hc hmark
  · intro h
    exact ⟨h.lt, h.isDef, h.outdented, fun k hdk hk c hc hmark =>
      h.stays k hdk hk ((hcounts k).mpr ⟨c, hc, hmark⟩)⟩

/-! ## The search -/

/-- The search goes over one line: it ends at a function line below the bound, and goes on with the
narrowed bound otherwise. A bound of zero, behind a line that is not indented, ends it too. -/
theorem scopeAbove_take_succ (lines : List Line) (bound n : Nat) :
    scopeAbove bound (lines.take (n + 1)).reverse =
      if isDef (lines.getD n []) = true ∧ indentWidth (lines.getD n []) < bound then some n
      else scopeAbove (narrowed bound (lines.getD n [])) (lines.take n).reverse := by
  by_cases hn : n < lines.length
  · have hlength : (lines.take n).reverse.length = n := by
      rw [List.length_reverse, List.length_take_of_le (Nat.le_of_lt hn)]
    rw [reverse_take_succ hn, scopeAbove, hlength, narrowed]
    generalize lines.getD n [] = line
    by_cases hclear : isTransparent line = true
    · have hdef : ¬isDef line = true := fun hdef => by
        rw [isTransparent_of_isDef hdef] at hclear
        cases hclear
      simp [hclear, hdef]
    by_cases hbound : bound ≤ indentWidth line
    · simp [hclear, hbound, Nat.not_lt_of_le hbound]
    · have hless : indentWidth line < bound := Nat.lt_of_not_le hbound
      have hmin : min bound (indentWidth line) = indentWidth line :=
        Nat.min_eq_right (Nat.le_of_lt hless)
      by_cases hdef : isDef line = true
      · simp [hclear, hbound, hdef, hless]
      · -- A line that is not indented leaves the bound at zero, below which nothing is found.
        by_cases hzero : indentWidth line = 0
        · have hpositive : bound ≠ 0 := by omega
          simp [hclear, hdef, hzero, hpositive]
        · simp [hclear, hbound, hdef, hzero, hmin]
  · have hline : lines.getD n [] = [] := List.getD_eq_default _ _ (Nat.le_of_not_lt hn)
    have hdef : isDef [] = false := rfl
    have hnarrowed : narrowed bound [] = bound := rfl
    rw [List.take_of_length_le (by omega), List.take_of_length_le (by omega), hline, hdef,
      hnarrowed, if_neg (by simp)]

/-- Among one line more, a function line opens above the bound exactly if it is that line, or opens
above the narrowed bound among the lines before. -/
theorem opensAbove_succ_iff : OpensAbove lines (n + 1) bound d ↔
    (d = n ∧ isDef (lines.getD n []) = true ∧ indentWidth (lines.getD n []) < bound) ∨
      OpensAbove lines n (narrowed bound (lines.getD n [])) d := by
  constructor
  · intro h
    rcases Nat.lt_succ_iff_lt_or_eq.mp h.lt with hlt | rfl
    · refine .inr ⟨hlt, h.isDef, ?_, fun k hdk hk => h.stays k hdk (Nat.lt_succ_of_lt hk)⟩
      rw [narrowed]
      split
      · exact h.outdented
      · next hcount =>
        exact Nat.lt_min.mpr ⟨h.outdented,
          h.stays n hlt (Nat.lt_succ_self n) (Bool.eq_false_iff.mpr hcount)⟩
    · exact .inl ⟨rfl, h.isDef, h.outdented⟩
  · rintro (⟨rfl, hdef, hless⟩ | h)
    · exact ⟨Nat.lt_succ_self d, hdef, hless, fun k hdk hk => by omega⟩
    · have hout := h.outdented
      rw [narrowed] at hout
      refine ⟨Nat.lt_succ_of_lt h.lt, h.isDef, ?_, fun k hdk hk hcount => ?_⟩
      · split at hout
        · exact hout
        · exact (Nat.lt_min.mp hout).1
      · rcases Nat.lt_succ_iff_lt_or_eq.mp hk with hlt | rfl
        · exact h.stays k hdk hlt hcount
        · rw [if_neg (Bool.eq_false_iff.mp hcount)] at hout
          exact (Nat.lt_min.mp hout).2

/-- Among some lines the search finds the last function line that opens above the bound, and nothing
exactly if there is none. -/
theorem isGreatest_scopeAbove (lines : List Line) (bound n : Nat) :
    (∀ d, scopeAbove bound (lines.take n).reverse = some d ↔
      IsGreatest {d | OpensAbove lines n bound d} d) ∧
    (scopeAbove bound (lines.take n).reverse = none ↔ ∀ d, ¬OpensAbove lines n bound d) := by
  induction n generalizing bound with
  | zero =>
    have hnone : ∀ d, ¬OpensAbove lines 0 bound d := fun d h => Nat.not_lt_zero d h.lt
    exact ⟨fun d => ⟨nofun, fun h => absurd h.1 (hnone d)⟩, ⟨fun _ => hnone, fun _ => rfl⟩⟩
  | succ n ih =>
    rw [scopeAbove_take_succ]
    by_cases hfound : isDef (lines.getD n []) = true ∧ indentWidth (lines.getD n []) < bound
    · have hopens : OpensAbove lines (n + 1) bound n := opensAbove_succ_iff.mpr (.inl ⟨rfl, hfound⟩)
      have hgreatest : IsGreatest {d | OpensAbove lines (n + 1) bound d} n :=
        ⟨hopens, fun d hd => Nat.le_of_lt_succ hd.lt⟩
      rw [if_pos hfound]
      refine ⟨fun d => ⟨fun h => ?_, fun h => ?_⟩, nofun, fun h => absurd hopens (h n)⟩
      · obtain rfl := Option.some.inj h
        exact hgreatest
      · rw [h.unique hgreatest]
    · have hsame : ∀ d, OpensAbove lines (n + 1) bound d ↔
          OpensAbove lines n (narrowed bound (lines.getD n [])) d := fun d =>
        opensAbove_succ_iff.trans (or_iff_right fun h => hfound h.2)
      rw [if_neg hfound]
      simp only [hsame]
      exact ih _

/-- The function around a line is the last one whose line encloses it, and there is none around it
exactly if no line does. -/
theorem isGreatest_enclosingDef? (lines : List Line) (index : Nat) :
    (∀ d, enclosingDef? lines index = some d ↔ IsGreatest {d | Encloses lines d index} d) ∧
      (enclosingDef? lines index = none ↔ ∀ d, ¬Encloses lines d index) := by
  simp only [encloses_iff]
  exact isGreatest_scopeAbove lines _ index

/-- A line of a body that counts stands in a function that is the same or further in. -/
theorem Encloses.exists_enclosingDef? (h : Encloses lines d index) (hdk : d < k) (hk : k < index)
    {c : Char} (hc : c ∈ (trimStart (lines.getD k [])).head?) (hmark : c ∉ passedMarks) :
    ∃ e, enclosingDef? lines k = some e ∧ d ≤ e := by
  have hinner : OpensAbove lines k (indentWidth (lines.getD k [])) d :=
    encloses_iff.mp ⟨hdk, h.isDef, h.stays k hdk hk c hc hmark, fun k' hdk' hk' =>
      h.stays k' hdk' (Nat.lt_trans hk' hk)⟩
  obtain ⟨hsome, hnone⟩ := isGreatest_scopeAbove lines (indentWidth (lines.getD k [])) k
  cases hfound : enclosingDef? lines k with
  | none => exact absurd hinner (hnone.mp hfound d)
  | some e => exact ⟨e, rfl, ((hsome e).mp hfound).2 hinner⟩

/-- A function behind a comment and the end of a bracket. -/
example : enclosingDef? ["def f(".toList, "    a,".toList, ")".toList, "# note".toList,
    "    prompt = a".toList] 4 = some 0 := by decide

end RepoAudit.Python
