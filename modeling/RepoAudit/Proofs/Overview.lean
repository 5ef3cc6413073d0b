import RepoAudit.Overview
import RepoAudit.Proofs.Staging

/-!
# Reading a table

A table has a line for each issue, with a tab between its cells. It is read back by cutting it at
newlines and its lines at tabs. That gives the cells of every issue exactly if none of them has a
tab or a newline, and then the table tells its issues. Nothing keeps an analyzer from reporting a
file or a message that has one.

## Main definitions

- `Overview.rows` — the cells of every issue
- `Overview.readTable` — the cells that are read in a table
- `Overview.IsTabular` — what is shown of every issue fits into a cell

## Main statements

- `Overview.readTable_table_iff` — when a table is read back
- `Overview.table_eq_noIssues_iff` — when there is no table
- `Overview.table_tells_rows` — what a table tells of its issues
-/

namespace RepoAudit

namespace Overview

open RepoAudit.Text

variable {o o' : Overview}

/-- The cells of every issue. -/
def rows (o : Overview) : List (List String) :=
  o.snapshots.flatMap fun s => s.issues.map fun i => cells s i

/-- The cells that are read in a table: its lines, cut at tabs. -/
def readTable (table : String) : List (List (List Char)) :=
  (splitOn '\n' table.toList).map (splitOn '\t')

/-- A text that fits into a cell. -/
def IsCell (text : List Char) : Prop := '\n' ∉ text ∧ '\t' ∉ text

/-- What is shown of every issue fits into a cell. -/
def IsTabular (o : Overview) : Prop :=
  ∀ s ∈ o.snapshots, ∀ i ∈ s.issues,
    IsCell i.id.toList ∧ IsCell i.description.toList ∧ IsCell (s.shownFile i).toList

instance (text : List Char) : Decidable (IsCell text) :=
  inferInstanceAs (Decidable (_ ∧ _))

instance (o : Overview) : Decidable o.IsTabular :=
  inferInstanceAs (Decidable (∀ s ∈ o.snapshots, ∀ i ∈ s.issues, _))

/-! ## Rows of cells -/

theorem mem_of_mem_splitOn {sep c : Char} {cs part : List Char} (hpart : part ∈ splitOn sep cs)
    (hc : c ∈ part) : c ∈ cs := by
  have hback : [sep].intercalate (cs.splitOn sep) = cs := List.intercalate_splitOn sep
  rw [splitOn_eq] at hpart
  rw [← hback]
  exact mem_intercalate_of_mem hpart hc

/-- Rows of cells, each in a line of its own, are read back exactly if every cell is one. -/
theorem readRows_iff {rows : List (List (List Char))} (hrows : rows ≠ [])
    (hcells : ∀ row ∈ rows, row ≠ []) :
    (splitOn '\n' (['\n'].intercalate (rows.map ['\t'].intercalate))).map (splitOn '\t') = rows ↔
      ∀ row ∈ rows, ∀ cell ∈ row, IsCell cell := by
  constructor
  · intro hread row hrow cell hcell
    rw [← hread] at hrow
    obtain ⟨line, hline, rfl⟩ := List.mem_map.mp hrow
    refine ⟨fun hmem => ?_, notMem_of_mem_splitOn hcell⟩
    exact notMem_of_mem_splitOn hline (mem_of_mem_splitOn hcell hmem)
  · intro h
    have hlines : ∀ line ∈ rows.map ['\t'].intercalate, '\n' ∉ line := by
      intro line hline hmem
      obtain ⟨row, hrow, rfl⟩ := List.mem_map.mp hline
      rcases mem_intercalate hmem with htab | ⟨cell, hcell, hmem⟩
      · exact absurd htab (by decide)
      · exact (h row hrow cell hcell).1 hmem
    rw [splitOn_eq, List.splitOn_intercalate '\n' hlines (by simpa using hrows), List.map_map]
    have hread : ∀ row ∈ rows, (splitOn '\t' ∘ ['\t'].intercalate) row = id row := by
      intro row hrow
      rw [Function.comp_apply, splitOn_eq,
        List.splitOn_intercalate '\t' (fun cell hcell => (h row hrow cell hcell).2)
          (hcells row hrow)]
      rfl
    rw [List.map_congr_left hread, List.map_id]

/-! ## The table -/

theorem toList_line (cells : List String) :
    (line cells).toList = ['\t'].intercalate (cells.map String.toList) := by
  rw [line, String.toList_intercalate]
  rfl

/-- The lines of a table are its titles and the rows of its issues. -/
theorem toList_table (h : o.isEmpty = false) : o.table.toList = ['\n'].intercalate
    (((titles :: o.rows).map (List.map String.toList)).map ['\t'].intercalate) := by
  have hlines : (o.snapshots.flatMap fun s => s.issues.map fun i => line (cells s i)) =
      o.rows.map line := by
    simp [rows, List.map_flatMap, Function.comp_def]
  rw [table, h, hlines, ← List.map_cons (f := line)]
  simp only [Bool.false_eq_true, if_false]
  rw [String.toList_intercalate, List.map_map, List.map_map]
  congr 1
  exact List.map_congr_left fun row _ => toList_line row

theorem isCell_rows_iff :
    (∀ row ∈ o.rows, ∀ cell ∈ row, IsCell cell.toList) ↔ o.IsTabular := by
  have hseverity : ∀ v : Severity, IsCell v.name.toList := by
    intro v
    cases v <;> decide
  have hstage : ∀ v : Stage, IsCell v.name.toList := by
    intro v
    cases v <;> decide
  have hcells : ∀ (s : Snapshot) (i : Issue), (∀ cell ∈ cells s i, IsCell cell.toList) ↔
      IsCell i.id.toList ∧ IsCell i.description.toList ∧ IsCell (s.shownFile i).toList := by
    intro s i
    simp [cells, hseverity, hstage]
  simp only [rows, List.mem_flatMap, List.mem_map]
  constructor
  · intro h s hs i hi
    exact (hcells s i).mp (h _ ⟨s, hs, i, hi, rfl⟩)
  · rintro h row ⟨s, hs, i, hi, rfl⟩
    exact (hcells s i).mpr (h s hs i hi)

/-- A table is read back exactly if what is shown of every issue fits into a cell. -/
theorem readTable_table_iff (h : o.isEmpty = false) :
    readTable o.table = (titles :: o.rows).map (List.map String.toList) ↔ o.IsTabular := by
  have hne : ∀ row ∈ titles :: o.rows, row ≠ [] := by
    intro row hrow
    rcases List.mem_cons.mp hrow with rfl | hrow
    · exact List.cons_ne_nil _ _
    · simp only [rows, List.mem_flatMap, List.mem_map] at hrow
      obtain ⟨s, -, i, -, rfl⟩ := hrow
      exact List.cons_ne_nil _ _
  have htitles : ∀ cell ∈ titles, IsCell cell.toList := by decide
  rw [readTable, toList_table h, readRows_iff (by simp) (by simpa using hne), ← isCell_rows_iff]
  simp only [List.forall_mem_map, List.forall_mem_cons]
  exact and_iff_right htitles

/-! ## Nothing to show -/

theorem isEmpty_iff_rows : o.isEmpty = true ↔ o.rows = [] := by
  simp [isEmpty, rows]

/-- The titles of a table stand in its first line, so it is never taken for the absence of
issues. -/
theorem table_eq_noIssues_iff : o.table = noIssues ↔ o.isEmpty = true := by
  constructor
  · intro h
    by_contra hempty
    rw [Bool.not_eq_true] at hempty
    have htab : '\t' ∈ o.table.toList := by
      rw [toList_table hempty]
      refine mem_intercalate_of_mem (List.mem_cons_self) ?_
      decide
    rw [h] at htab
    exact absurd htab (by decide)
  · intro h
    rw [table, if_pos h]

/-- An array that is written as two brackets has no items. -/
theorem pretty_array_eq_iff (js : List Json) : (Json.array js).pretty = "[]" ↔ js = [] := by
  constructor
  · intro h
    cases js with
    | nil => rfl
    | cons j js =>
      have hchars := congrArg String.toList h
      rw [Json.pretty, String.toList_ofList, Json.prettyAt] at hchars
      cases hchars
  · rintro rfl
    decide

/-- The overview is written as two brackets exactly if there are no issues. -/
theorem write_eq_iff : o.write = "[]" ↔ o.isEmpty = true := by
  rw [write, toJson, pretty_array_eq_iff, List.map_eq_nil_iff, List.filter_eq_nil_iff, isEmpty,
    List.all_eq_true]
  simp

/-! ## What a table tells -/

theorem rows_injective {rows rows' : List (List String)}
    (h : rows.map (List.map String.toList) = rows'.map (List.map String.toList)) : rows = rows' :=
  List.map_injective_iff.mpr (List.map_injective_iff.mpr fun _ _ => String.toList_inj.mp) h

/-- Two tables that are read back and are the same have the same rows. -/
theorem rows_eq_of_table_eq (h : o.IsTabular) (h' : o'.IsTabular) (htable : o.table = o'.table) :
    o.rows = o'.rows := by
  cases hempty : o.isEmpty with
  | true =>
    have hempty' : o'.isEmpty = true :=
      table_eq_noIssues_iff.mp (htable ▸ table_eq_noIssues_iff.mpr hempty)
    rw [isEmpty_iff_rows.mp hempty, isEmpty_iff_rows.mp hempty']
  | false =>
    have hempty' : o'.isEmpty = false := by
      rw [← Bool.not_eq_true, ← table_eq_noIssues_iff, ← htable, table_eq_noIssues_iff, hempty]
      exact Bool.false_ne_true
    have hread := (readTable_table_iff hempty).mpr h
    rw [htable, (readTable_table_iff hempty').mpr h'] at hread
    exact (List.cons.inj (rows_injective hread)).2.symm

/-- There is no table exactly if the array of the issues is empty. Else the table has a line for
each issue, cut at tabs into the cells of the issue, exactly if what is shown of every issue has no
tab and no newline, and such tables are the same only for the same rows. -/
theorem table_tells_rows (o : Overview) :
    (o.table = noIssues ↔ o.write = "[]") ∧
      (o.isEmpty = false →
        (readTable o.table = (titles :: o.rows).map (List.map String.toList) ↔ o.IsTabular)) ∧
      (o.IsTabular → ∀ o' : Overview, o'.IsTabular → o.table = o'.table → o.rows = o'.rows) :=
  ⟨table_eq_noIssues_iff.trans write_eq_iff.symm, readTable_table_iff,
    fun h _ h' => rows_eq_of_table_eq h h'⟩

/-- A repository with an issue, behind some others without any. -/
def namedOverview (others : List String) : Overview :=
  ⟨others.map .new ++ [{ Snapshot.new "/r" with issues := [namedIssue] }]⟩

theorem table_tells_rows_namedOverview :
    (namedOverview ["/e"]).isEmpty = false ∧ (namedOverview ["/e"]).IsTabular ∧
      (namedOverview []).IsTabular ∧ (namedOverview ["/e"]).table = (namedOverview []).table ∧
      readTable (namedOverview ["/e"]).table =
        [titles, ["001", "", "Medium", "Planning Remediation", "a.js"]].map
          (List.map String.toList) ∧
      (namedOverview ["/e"]).rows = (namedOverview []).rows := by
  have hempty : (namedOverview ["/e"]).isEmpty = false := by decide
  have htabular : (namedOverview ["/e"]).IsTabular := by decide
  have htabular' : (namedOverview []).IsTabular := by decide
  have htable : (namedOverview ["/e"]).table = (namedOverview []).table := by decide
  obtain ⟨-, hread, htells⟩ := table_tells_rows (namedOverview ["/e"])
  exact ⟨hempty, htabular, htabular', htable, (hread hempty).mpr htabular,
    htells htabular _ htabular' htable⟩

/-! ## A reported tab -/

open Act Session Store

/-- The overview of a repository shows the snapshot that is loaded. -/
theorem overview_eq_ok {session : Session} {repository : String} {s : Snapshot} {w w' : World}
    (h : session.loadSnapshot repository w = (.ok s, w')) :
    session.overview (some repository) w = (.ok ⟨[s]⟩, w') := by
  have hloads : session.loadEach [session.resolve repository] w = (.ok [s], w') := by
    rw [loadEach, run_bind]
    rw [loadSnapshot] at h
    rw [h]
    rfl
  rw [overview, run_bind, hloads]
  rfl

/-- What is shown after a scan of the reporting world, evaluated but for the snapshot that it
stores. -/
theorem shown_reportingWorld :
    comesTo (pinnedSession.scan "r" (some .markup)) (reportingWorld "a\\tb.js") (fun r _ =>
      r.1.issues.all (fun i => i.line.isNone) && decide ((Overview.mk [r.1]).rows =
        [["001", "ESLint: innerHTML", "Medium", "Planning Remediation", "a\tb.js"]])) = true := by
  decide +kernel

/-- An analyzer reports a file with a tab in its name, and the line of its issue is read as six
cells. -/
theorem not_readTable_reportedWorld :
    Reachable ["s"] (reportedWorld "a\\tb.js") ∧ ∃ o : Overview,
      (pinnedSession.overview (some "r") (reportedWorld "a\\tb.js")).1 = .ok o ∧
      o.rows = [["001", "ESLint: innerHTML", "Medium", "Planning Remediation", "a\tb.js"]] ∧
      (readTable o.table).map List.length = [5, 6] ∧
      readTable o.table ≠ (titles :: o.rows).map (List.map String.toList) := by
  refine ⟨reachable_reportedWorld _, ?_⟩
  obtain ⟨⟨s, report⟩, w, hscan, hruns⟩ := exists_of_comesTo shown_reportingWorld
  obtain ⟨hlines, hrows⟩ := Bool.and_eq_true_iff.mp hruns
  replace hrows : (Overview.mk [s]).rows =
      [["001", "ESLint: innerHTML", "Medium", "Planning Remediation", "a\tb.js"]] :=
    of_decide_eq_true hrows
  obtain ⟨-, hload⟩ := load_reportedWorld hscan hlines
  refine ⟨⟨[s]⟩, congrArg Prod.fst (overview_eq_ok hload), hrows, ?_⟩
  have hempty : (Overview.mk [s]).isEmpty = false := by
    rw [← Bool.not_eq_true, isEmpty_iff_rows, hrows]
    exact List.cons_ne_nil _ _
  have hread : readTable (Overview.mk [s]).table =
      [titles, ["001", "ESLint: innerHTML", "Medium", "Planning Remediation", "a", "b.js"]].map
        (List.map String.toList) := by
    rw [readTable, toList_table hempty, hrows]
    decide
  rw [hread, hrows]
  decide

end Overview

end RepoAudit
