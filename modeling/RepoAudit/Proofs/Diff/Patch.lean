import RepoAudit.Proofs.Diff.Apply
import RepoAudit.Proofs.Diff.Hunk

/-!
# Patches apply

A patch is read as the hunks that were written, as long as no line is cut where a reader goes on: at
a carriage return that no newline follows. The patch applies exactly when the headers of its hunks
are right. They are wrong where a hunk starts or ends with a run that another run has passed, which
does not know its place on the other side.

## Main definitions

- `Diff.EndsReturns` — every carriage return of a text is followed by a newline
- `Diff.AreHeaded` — the headers of some hunks are right

## Main statements

- `Diff.linesOf_eq` — the lines of a text end at its newlines
- `Diff.readPatch?_patch` — what is read of a patch
- `Diff.applyPatch?_patch` — patches apply, and can be reverted, when the headers are right
-/

namespace RepoAudit.Diff

open RepoAudit.Text

/-! ## Lines -/

/-- Every carriage return of a text is followed by a newline. -/
def EndsReturns : List Char → Prop
  | [] => True
  | c :: cs => (c = '\r' → cs.head? = some '\n') ∧ EndsReturns cs

instance decidableEndsReturns : (cs : List Char) → Decidable (EndsReturns cs)
  | [] => .isTrue trivial
  | _ :: cs => @instDecidableAnd _ _ _ (decidableEndsReturns cs)

theorem EndsReturns.of_append {as bs : List Char} (h : EndsReturns (as ++ bs)) :
    EndsReturns bs := by
  induction as with
  | nil => exact h
  | cons a as ih => exact ih h.2

theorem linesFrom_eq (held cs : List Char) (hheld : '\n' ∉ held) (h : EndsReturns cs) :
    linesFrom held cs = splitTerminated (held.reverse ++ cs) := by
  fun_induction linesFrom held cs with
  | case1 held hempty =>
    rw [List.isEmpty_iff.mp hempty]
    rfl
  | case2 held hempty =>
    have hne : held.reverse ≠ [] := by simpa using hempty
    rw [List.append_nil, splitTerminated_of_notMem (by simpa using hheld), if_neg hne]
  | case3 held cs ih =>
    have hline : '\n' ∉ held.reverse ++ ['\r'] := by
      simpa using hheld
    have hsplit : held.reverse ++ '\r' :: '\n' :: cs = (held.reverse ++ ['\r']) ++ '\n' :: cs := by
      simp
    rw [hsplit, splitTerminated_append_cons hline, ih (by simp) h.2.2]
    simp
  | case4 held c cs hnot hend ih =>
    -- A lone carriage return is the one case that is left out.
    have hc : c = '\n' := by
      rcases Bool.or_eq_true_iff.mp hend with hreturn | hnewline
      · obtain rfl := of_decide_eq_true hreturn
        have hnext := h.1 rfl
        obtain ⟨rest, rfl⟩ := List.head?_eq_some_iff.mp hnext
        exact (hnot rest rfl rfl).elim
      · exact of_decide_eq_true hnewline
    subst hc
    rw [splitTerminated_append_cons (by simpa using hheld), ih (by simp) h.2]
    simp
  | case5 held c cs hnot hend ih =>
    have hc : c ≠ '\n' := by
      rintro rfl
      simp at hend
    rw [ih (by simpa [hc.symm] using hheld) h.2]
    simp

/-- The lines of a text end at its newlines. -/
theorem linesOf_eq {cs : List Char} (h : EndsReturns cs) : linesOf cs = splitTerminated cs :=
  linesFrom_eq [] cs (by simp) h

theorem flatten_splitTerminated (cs : List Char) : (splitTerminated cs).flatten = cs := by
  induction cs with
  | nil => rfl
  | cons c cs ih =>
    rw [splitTerminated]
    split
    · rw [List.flatten_cons, ih]
      rfl
    · cases hcs : splitTerminated cs with
      | nil =>
        rw [hcs] at ih
        rw [← ih]
        rfl
      | cons line lines =>
        rw [hcs] at ih
        rw [← ih]
        rfl

/-- A line that is written so that it can be read: it ends at its only newline, or it has none and
no carriage return at its end. -/
def IsReadable (line : List Char) : Prop :=
  (∃ body, '\n' ∉ body ∧ line = body ++ ['\n']) ∨ '\n' ∉ line ∧ line.getLast? ≠ some '\r'

theorem EndsReturns.getLast?_ne {cs : List Char} (h : EndsReturns cs) :
    cs.getLast? ≠ some '\r' := by
  intro hlast
  obtain ⟨front, rfl⟩ := List.getLast?_eq_some_iff.mp hlast
  have hreturn := h.of_append.1 rfl
  cases hreturn

theorem isReadable_of_mem_splitTerminated {cs line : List Char} (h : EndsReturns cs)
    (hline : line ∈ splitTerminated cs) : IsReadable line := by
  induction hlength : cs.length using Nat.strongRecOn generalizing cs with
  | ind n ih =>
    by_cases hnewline : '\n' ∈ cs
    · obtain ⟨body, rest, rfl, hbody⟩ := List.eq_append_cons_of_mem hnewline
      rw [splitTerminated_append_cons hbody] at hline
      rcases List.mem_cons.mp hline with rfl | hrest
      · exact .inl ⟨body, hbody, rfl⟩
      · refine ih rest.length ?_ (h.of_append.2) hrest rfl
        rw [← hlength, List.length_append, List.length_cons]
        omega
    · rw [splitTerminated_of_notMem hnewline] at hline
      split at hline
      · cases hline
      · rw [List.mem_singleton] at hline
        subst hline
        exact .inr ⟨hnewline, h.getLast?_ne⟩

theorem IsReadable.of_mem_window {cs : List Char} (h : EndsReturns cs) {i n : Nat}
    {line : List Char} (hline : line ∈ window (linesOf cs).toArray i n) : IsReadable line := by
  rw [window_eq, linesOf_eq h] at hline
  exact isReadable_of_mem_splitTerminated h (List.mem_of_mem_drop (List.mem_of_mem_take hline))

/-! ## Rows -/

/-- The rows of a patch as they are read. -/
def patchRows (patch : List Char) : List (List Char) :=
  foldMarks (splitTerminated patch)

theorem foldMarks_cons {row : List Char} {rows : List (List Char)}
    (h : ∀ next ∈ rows.head?, next.head? ≠ some '\\') :
    foldMarks (row :: rows) = row :: foldMarks rows := by
  rw [foldMarks]
  rintro mark rest rfl
  exact h _ rfl rfl

/-- The first row of a text starts as the text does. -/
theorem head?_of_head?_splitTerminated {cs row : List Char}
    (h : row ∈ (splitTerminated cs).head?) : row.head? = cs.head? := by
  cases cs with
  | nil => cases h
  | cons c cs =>
    rw [splitTerminated] at h
    split at h
    · obtain rfl := Option.some.inj h
      rfl
    · cases hcs : splitTerminated cs with
      | nil =>
        rw [hcs] at h
        obtain rfl := Option.some.inj h
        rfl
      | cons line lines =>
        rw [hcs] at h
        obtain rfl := Option.some.inj h
        rfl

/-- A row is read as it is unless a mark follows it. -/
theorem patchRows_row {row rest : List Char} (hrow : '\n' ∉ row) (hrest : rest.head? ≠ some '\\') :
    patchRows (row ++ '\n' :: rest) = (row ++ ['\n']) :: patchRows rest := by
  rw [patchRows, splitTerminated_append_cons hrow, foldMarks_cons]
  · rfl
  · intro next hnext
    rwa [head?_of_head?_splitTerminated hnext]

/-- How a line of a hunk is written. -/
def HunkLine.written (l : HunkLine) : List Char :=
  writeLine l.side.sign l.text

theorem HunkLine.head?_written (l : HunkLine) (rest : List Char) :
    (l.written ++ rest).head? ≠ some '\\' := by
  obtain ⟨side, text⟩ := l
  cases side <;> simp [written, writeLine, Side.sign]

/-- A line of a hunk is read as it was. -/
theorem patchRows_line {l : HunkLine} {rest : List Char} (h : IsReadable l.text)
    (hrest : rest.head? ≠ some '\\') : patchRows (l.written ++ rest) = l.row :: patchRows rest := by
  have hsign : l.side.sign ≠ '\n' := by
    cases l.side <;> decide
  obtain ⟨body, hbody, htext⟩ | ⟨hnewline, hlast⟩ := h
  · have hwritten : l.written ++ rest = (l.side.sign :: body) ++ '\n' :: rest := by
      simp [HunkLine.written, writeLine, htext, endMark]
    have hrow : l.row = (l.side.sign :: body) ++ ['\n'] := by
      rw [HunkLine.row, htext]
      rfl
    rw [hwritten, hrow, patchRows_row (by simp [hsign.symm, hbody]) hrest]
  · -- The mark after the line takes its newline away.
    have hmark : endMark l.text = "\n\\ No newline at end of file\n".toList := by
      rw [endMark]
      split
      · next hend => exact absurd (List.mem_of_getLast? hend) hnewline
      · next hend => exact absurd hend hlast
      · rfl
    have hwritten : l.written ++ rest = l.row ++ '\n' :: ("\\ No newline at end of file".toList ++
        '\n' :: rest) := by
      rw [HunkLine.written, writeLine, hmark, HunkLine.row]
      simp
    have hmarkRow : '\n' ∉ "\\ No newline at end of file".toList := by decide
    have hrow : '\n' ∉ l.row := by
      simp [HunkLine.row, hsign.symm, hnewline]
    rw [hwritten, patchRows, splitTerminated_append_cons hrow, splitTerminated_append_cons hmarkRow]
    change foldMarks ((l.row ++ ['\n']) :: ('\\' :: _) :: splitTerminated rest) = _
    rw [foldMarks, List.dropLast_concat]
    rfl

theorem patchRows_lines {lines : List HunkLine} {rest : List Char}
    (h : ∀ l ∈ lines, IsReadable l.text) (hrest : rest.head? ≠ some '\\') :
    patchRows (lines.flatMap HunkLine.written ++ rest) =
      lines.map HunkLine.row ++ patchRows rest := by
  induction lines with
  | nil => rfl
  | cons l lines ih =>
    obtain ⟨hl, hlines⟩ := List.forall_mem_cons.mp h
    rw [List.flatMap_cons, List.append_assoc, patchRows_line hl, ih hlines]
    · rfl
    · cases lines with
      | nil => exact hrest
      | cons next lines =>
        rw [List.flatMap_cons, List.append_assoc]
        exact next.head?_written _

/-! ## Hunks as they are read -/

/-- Lines of one side. -/
def linesOn (side : Side) (lines : List (List Char)) : List HunkLine :=
  lines.map (⟨side, ·⟩)

/-- The lines of an edit. -/
def editLines (olds news : Array (List Char)) : Edit → List HunkLine
  | .keep old _ size => linesOn .both (window olds old size)
  | .delete old _ size => linesOn .old (window olds old size)
  | .insert _ new size => linesOn .new (window news new size)
  | .replace old new oldSize newSize =>
    linesOn .old (window olds old oldSize) ++ linesOn .new (window news new newSize)

/-- The lines of the edits of a hunk. -/
def hunkLines (olds news : Array (List Char)) (edits : Script) : List HunkLine :=
  edits.flatMap (editLines olds news)

/-- A hunk as its header tells it. -/
def toHunk (olds news : Array (List Char)) (edits : Script) : Hunk :=
  match edits.head?, edits.getLast? with
  | some first, some last => ⟨first.oldStart, last.oldStop - first.oldStart, first.newStart,
      last.newStop - first.newStart, hunkLines olds news edits⟩
  | _, _ => ⟨0, 0, 0, 0, []⟩

/-- The header of a hunk counts the lines of its edits. -/
def IsCounted (edits : Script) : Prop :=
  ∀ first ∈ edits.head?, ∀ last ∈ edits.getLast?,
    last.oldStop - first.oldStart = oldTotal edits ∧ last.newStop - first.newStart = newTotal edits

/-- The headers of some hunks are right: each counts the lines of its hunk, and the first one starts
on the same line on both sides. -/
def AreHeaded (hunks : List Script) : Prop :=
  (∀ h ∈ hunks, IsCounted h) ∧ ∀ h ∈ hunks.head?, ∀ first ∈ h.head?, first.oldStart = first.newStart

instance (edits : Script) : Decidable (IsCounted edits) :=
  inferInstanceAs (Decidable (∀ first ∈ edits.head?, ∀ last ∈ edits.getLast?, _ ∧ _))

instance (hunks : List Script) : Decidable (AreHeaded hunks) :=
  inferInstanceAs (Decidable (_ ∧ ∀ h ∈ hunks.head?, ∀ first ∈ h.head?, _))

variable {olds news : Array (List Char)} {i j : Nat}

theorem writeLines_eq (side : Side) (lines : List (List Char)) :
    writeLines side.sign lines = (linesOn side lines).flatMap HunkLine.written := by
  rw [writeLines, linesOn, List.flatMap_map]
  rfl

theorem writeEdit_eq (e : Edit) :
    writeEdit olds news e = (editLines olds news e).flatMap HunkLine.written := by
  cases e with
  | keep => exact writeLines_eq .both _
  | delete => exact writeLines_eq .old _
  | insert => exact writeLines_eq .new _
  | replace =>
    rw [editLines, List.flatMap_append, ← writeLines_eq, ← writeLines_eq]
    rfl

theorem writeHunk_eq (olds news : Array (List Char)) {edits : Script} (hne : edits ≠ []) :
    ∃ first last, edits.head? = some first ∧ edits.getLast? = some last ∧
      writeHunk olds news edits =
        writeHeader first last ++ (hunkLines olds news edits).flatMap HunkLine.written := by
  obtain ⟨first, hfirst⟩ := Option.ne_none_iff_exists'.mp (mt List.head?_eq_none_iff.mp hne)
  obtain ⟨last, hlast⟩ := Option.ne_none_iff_exists'.mp (mt List.getLast?_eq_none_iff.mp hne)
  refine ⟨first, last, hfirst, hlast, ?_⟩
  rw [writeHunk, hfirst, hlast, hunkLines, List.flatMap_assoc]
  dsimp only
  congr 2
  funext e
  exact writeEdit_eq e

/-! ### Counting -/

theorem oldCount_append (ls ms : List HunkLine) : oldCount (ls ++ ms) = oldCount ls + oldCount ms := by
  simp [oldCount]

theorem newCount_append (ls ms : List HunkLine) : newCount (ls ++ ms) = newCount ls + newCount ms := by
  simp [newCount]

theorem oldCount_linesOn (side : Side) (lines : List (List Char)) :
    oldCount (linesOn side lines) = lines.length * side.oldSize := by
  have hconst : (linesOn side lines).map (fun l => l.side.oldSize) =
      lines.map fun _ => side.oldSize := by
    rw [linesOn, List.map_map]
    rfl
  rw [oldCount, hconst, List.map_const', List.sum_replicate_nat]

theorem newCount_linesOn (side : Side) (lines : List (List Char)) :
    newCount (linesOn side lines) = lines.length * side.newSize := by
  have hconst : (linesOn side lines).map (fun l => l.side.newSize) =
      lines.map fun _ => side.newSize := by
    rw [linesOn, List.map_map]
    rfl
  rw [newCount, hconst, List.map_const', List.sum_replicate_nat]

theorem counts_editLines {e : Edit} (h : e.Stands olds news i j) :
    oldCount (editLines olds news e) = e.oldSize ∧ newCount (editLines olds news e) = e.newSize := by
  cases e with
  | keep old new size =>
    obtain ⟨rfl, rfl, hold, -, -⟩ := h
    rw [editLines, oldCount_linesOn, newCount_linesOn, length_window hold]
    exact ⟨Nat.mul_one _, Nat.mul_one _⟩
  | delete old new size =>
    obtain ⟨rfl, hold⟩ := h
    rw [editLines, oldCount_linesOn, newCount_linesOn, length_window hold]
    exact ⟨Nat.mul_one _, Nat.mul_zero _⟩
  | insert old new size =>
    obtain ⟨rfl, hnew⟩ := h
    rw [editLines, oldCount_linesOn, newCount_linesOn, length_window hnew]
    exact ⟨Nat.mul_zero _, Nat.mul_one _⟩
  | replace old new oldSize newSize =>
    obtain ⟨rfl, rfl, hold, hnew⟩ := h
    rw [editLines, oldCount_append, newCount_append, oldCount_linesOn, oldCount_linesOn,
      newCount_linesOn, newCount_linesOn, length_window hold, length_window hnew]
    constructor <;> simp [Side.oldSize, Side.newSize, Edit.oldSize, Edit.newSize]

/-- A hunk has as many lines as its edits cover. -/
theorem counts_hunkLines {edits : Script} (h : Leads olds news i j edits) :
    oldCount (hunkLines olds news edits) = oldTotal edits ∧
      newCount (hunkLines olds news edits) = newTotal edits := by
  induction edits generalizing i j with
  | nil => exact ⟨rfl, rfl⟩
  | cons e edits ih =>
    obtain ⟨hold, hnew⟩ := counts_editLines h.1
    obtain ⟨hold', hnew'⟩ := ih h.2
    rw [hunkLines, List.flatMap_cons, ← hunkLines, oldCount_append, newCount_append, hold, hnew,
      hold', hnew', oldTotal_cons, newTotal_cons]
    exact ⟨rfl, rfl⟩

/-! ### The lines of both sides -/

theorem oldTexts_append (ls ms : List HunkLine) : oldTexts (ls ++ ms) = oldTexts ls ++ oldTexts ms := by
  rw [oldTexts, List.filter_append, List.map_append]
  rfl

theorem newTexts_append (ls ms : List HunkLine) : newTexts (ls ++ ms) = newTexts ls ++ newTexts ms := by
  rw [newTexts, List.filter_append, List.map_append]
  rfl

theorem oldTexts_linesOn (side : Side) (lines : List (List Char)) :
    oldTexts (linesOn side lines) = if side.oldSize = 1 then lines else [] := by
  rw [oldTexts, linesOn, List.filter_map, List.map_map]
  cases side <;> simp [Function.comp_def, Side.oldSize]

theorem newTexts_linesOn (side : Side) (lines : List (List Char)) :
    newTexts (linesOn side lines) = if side.newSize = 1 then lines else [] := by
  rw [newTexts, linesOn, List.filter_map, List.map_map]
  cases side <;> simp [Function.comp_def, Side.newSize]

theorem texts_editLines {e : Edit} (h : e.Stands olds news i j) :
    oldTexts (editLines olds news e) = window olds i e.oldSize ∧
      newTexts (editLines olds news e) = window news j e.newSize := by
  cases e with
  | keep old new size =>
    obtain ⟨rfl, rfl, -, -, hsame⟩ := h
    rw [editLines, oldTexts_linesOn, newTexts_linesOn]
    exact ⟨rfl, hsame⟩
  | delete old new size =>
    obtain ⟨rfl, -⟩ := h
    rw [editLines, oldTexts_linesOn, newTexts_linesOn]
    exact ⟨rfl, (window_zero _ _).symm⟩
  | insert old new size =>
    obtain ⟨rfl, -⟩ := h
    rw [editLines, oldTexts_linesOn, newTexts_linesOn]
    exact ⟨(window_zero _ _).symm, rfl⟩
  | replace old new oldSize newSize =>
    obtain ⟨rfl, rfl, -, -⟩ := h
    rw [editLines, oldTexts_append, newTexts_append, oldTexts_linesOn, oldTexts_linesOn,
      newTexts_linesOn, newTexts_linesOn]
    exact ⟨List.append_nil _, rfl⟩

/-- The lines of a hunk are those of both sequences that its edits cover. -/
theorem texts_hunkLines {edits : Script} (h : Leads olds news i j edits) :
    oldTexts (hunkLines olds news edits) = window olds i (oldTotal edits) ∧
      newTexts (hunkLines olds news edits) = window news j (newTotal edits) := by
  induction edits generalizing i j with
  | nil => exact ⟨(window_zero _ _).symm, (window_zero _ _).symm⟩
  | cons e edits ih =>
    obtain ⟨hold, hnew⟩ := texts_editLines h.1
    obtain ⟨hold', hnew'⟩ := ih h.2
    rw [hunkLines, List.flatMap_cons, ← hunkLines, oldTexts_append, newTexts_append, hold, hnew,
      hold', hnew', oldTotal_cons, newTotal_cons, window_add, window_add]
    exact ⟨rfl, rfl⟩

theorem mem_hunkLines {edits : Script} {l : HunkLine} (h : l ∈ hunkLines olds news edits) :
    ∃ i n, l.text ∈ window olds i n ∨ l.text ∈ window news i n := by
  obtain ⟨e, -, hl⟩ := List.mem_flatMap.mp h
  have hmem : ∀ {side lines}, l ∈ linesOn side lines → l.text ∈ lines := by
    intro side lines hl
    obtain ⟨text, htext, rfl⟩ := List.mem_map.mp hl
    exact htext
  cases e with
  | keep old new size => exact ⟨old, size, .inl (hmem hl)⟩
  | delete old new size => exact ⟨old, size, .inl (hmem hl)⟩
  | insert old new size => exact ⟨new, size, .inr (hmem hl)⟩
  | replace old new oldSize newSize =>
    rcases List.mem_append.mp hl with hold | hnew
    · exact ⟨old, oldSize, .inl (hmem hold)⟩
    · exact ⟨new, newSize, .inr (hmem hnew)⟩

/-! ### Reading hunks -/

/-- The rows of hunks. -/
def hunkRows (olds news : Array (List Char)) (hs : List Script) : List (List Char) :=
  hs.flatMap fun h => match h.head?, h.getLast? with
    | some first, some last =>
      writeHeader first last :: (hunkLines olds news h).map HunkLine.row
    | _, _ => []

theorem head?_writeHeader (first last : Edit) (rest : List Char) :
    (writeHeader first last ++ rest).head? = some '@' := by
  simp [writeHeader]

/-- A header ends at its only newline. -/
theorem exists_writeHeader (first last : Edit) :
    ∃ body, '\n' ∉ body ∧ writeHeader first last = body ++ ['\n'] := by
  have hrange : ∀ start stop, '\n' ∉ writeRange start stop := by
    intro start stop hmem
    have hdigit : ∀ n, '\n' ∉ Nat.toDigits 10 n := by
      intro n hn
      have hcontra := isDigit_of_mem_toDigits hn
      contradiction
    rw [writeRange] at hmem
    split at hmem
    · exact hdigit _ hmem
    · rcases List.mem_append.mp hmem with hstart | hsize
      · exact hdigit _ hstart
      · rcases List.mem_cons.mp hsize with hcomma | hsize
        · cases hcomma
        · exact hdigit _ hsize
  refine ⟨"@@ -".toList ++ writeRange first.oldStart last.oldStop ++ " +".toList ++
    writeRange first.newStart last.newStop ++ " @@".toList, ?_, ?_⟩
  · simp [hrange]
  · simp [writeHeader]

theorem hunkRows_cons {h : Script} {first last : Edit} (hfirst : h.head? = some first)
    (hlast : h.getLast? = some last) (hs : List Script) :
    hunkRows olds news (h :: hs) = writeHeader first last ::
      ((hunkLines olds news h).map HunkLine.row ++ hunkRows olds news hs) := by
  rw [hunkRows, List.flatMap_cons, hfirst, hlast]
  rfl

theorem endsHunk_hunkRows {hs : List Script} (hne : ∀ h ∈ hs, h ≠ []) :
    EndsHunk (hunkRows olds news hs) := by
  cases hs with
  | nil =>
    intro row hrow
    cases hrow
  | cons h hs =>
    obtain ⟨first, last, hfirst, hlast, -⟩ :=
      writeHunk_eq olds news (hne h List.mem_cons_self)
    rw [hunkRows_cons hfirst hlast]
    intro row hrow
    obtain rfl := Option.some.inj hrow
    have hhead := head?_writeHeader first last []
    rwa [List.append_nil] at hhead

/-- The rows of written hunks. -/
theorem patchRows_hunks {hs : List Script} (hne : ∀ h ∈ hs, h ≠ [])
    (hreadable : ∀ h ∈ hs, ∀ l ∈ hunkLines olds news h, IsReadable l.text) :
    patchRows (hs.flatMap (writeHunk olds news)) = hunkRows olds news hs := by
  induction hs with
  | nil => rfl
  | cons h hs ih =>
    obtain ⟨hh, hhs⟩ := List.forall_mem_cons.mp hne
    obtain ⟨hlines, hrest⟩ := List.forall_mem_cons.mp hreadable
    obtain ⟨first, last, hfirst, hlast, hwritten⟩ := writeHunk_eq olds news hh
    obtain ⟨body, hbody, hheader⟩ := exists_writeHeader first last
    have hnext : (hs.flatMap (writeHunk olds news)).head? ≠ some '\\' := by
      cases hs with
      | nil => simp
      | cons h' hs =>
        obtain ⟨first', last', -, -, hwritten'⟩ :=
          writeHunk_eq olds news (hhs h' List.mem_cons_self)
        rw [List.flatMap_cons, hwritten', List.append_assoc, head?_writeHeader]
        simp
    have hstart : ((hunkLines olds news h).flatMap HunkLine.written ++
        hs.flatMap (writeHunk olds news)).head? ≠ some '\\' := by
      cases hunkLines olds news h with
      | nil => exact hnext
      | cons l lines =>
        rw [List.flatMap_cons, List.append_assoc]
        exact l.head?_written _
    rw [List.flatMap_cons, hwritten, hheader, List.append_assoc, List.append_assoc,
      List.singleton_append, patchRows_row hbody hstart, patchRows_lines hlines hnext, ih hhs hrest,
      hunkRows_cons hfirst hlast, hheader]

theorem forall_ne_nil_of_chained {hs : List Script} (h : Chained olds news i j hs) :
    ∀ h ∈ hs, h ≠ [] := by
  induction hs generalizing i j with
  | nil => exact List.forall_mem_nil _
  | cons hunk hs ih =>
    obtain ⟨k, -, -, -, hne, -, hrest⟩ := h
    exact List.forall_mem_cons.mpr ⟨hne, ih hrest⟩

/-- Written hunks are read when their headers count their lines, and only then. -/
theorem readHunks?_hunkRows {hs : List Script} (h : Chained olds news i j hs) :
    readHunks? 0 0 (hunkRows olds news hs) =
      if ∀ h ∈ hs, IsCounted h then some ([], hs.map (toHunk olds news)) else none := by
  induction hs generalizing i j with
  | nil =>
    rw [if_pos (List.forall_mem_nil _)]
    rfl
  | cons hunk hs ih =>
    have hne := forall_ne_nil_of_chained h
    obtain ⟨hhunk, hhs⟩ := List.forall_mem_cons.mp hne
    obtain ⟨k, -, -, -, -, hleads, hrest⟩ := h
    obtain ⟨first, last, hfirst, hlast, -⟩ := writeHunk_eq olds news hhunk
    obtain ⟨hold, hnew⟩ := counts_hunkLines hleads
    have htoHunk : toHunk olds news hunk = ⟨first.oldStart, last.oldStop - first.oldStart,
        first.newStart, last.newStop - first.newStart, hunkLines olds news hunk⟩ := by
      rw [toHunk, hfirst, hlast]
    have hcounted : IsCounted hunk ↔ last.oldStop - first.oldStart = oldTotal hunk ∧
        last.newStop - first.newStart = newTotal hunk := by
      rw [IsCounted, hfirst, hlast]
      simp
    rw [hunkRows_cons hfirst hlast, readHunks?_header (readHeader?_writeHeader first last)]
    dsimp only
    by_cases hcount : IsCounted hunk
    · obtain ⟨holdSize, hnewSize⟩ := hcounted.mp hcount
      have happend := readHunks?_append (hunkLines olds news hunk) 0 0 (hunkRows olds news hs)
      rw [Nat.add_zero, Nat.add_zero, hold, hnew] at happend
      rw [holdSize, hnewSize, happend, ih hrest]
      by_cases hall : ∀ h ∈ hs, IsCounted h
      · rw [if_pos hall, if_pos (List.forall_mem_cons.mpr ⟨hcount, hall⟩), List.map_cons, htoHunk,
          holdSize, hnewSize]
        simp
      · rw [if_neg hall, if_neg fun hboth => hall (List.forall_mem_cons.mp hboth).2]
        rfl
    · rw [if_neg fun hboth => hcount (List.forall_mem_cons.mp hboth).1]
      cases hread : readHunks? (last.oldStop - first.oldStart) (last.newStop - first.newStart)
          ((hunkLines olds news hunk).map HunkLine.row ++ hunkRows olds news hs) with
      | none => rfl
      | some r =>
        obtain ⟨hm, hn⟩ := eq_of_readHunks? (endsHunk_hunkRows hhs) hread
        exact absurd (hcounted.mpr ⟨hm.trans hold, hn.trans hnew⟩) hcount

/-! ### Hunks that fit -/

/-- A hunk whose first edit knows its place on both sides. -/
theorem places_of_startsKept {h : Script} (hleads : Leads olds news i j h) (hkept : StartsKept h) :
    ∀ first ∈ h.head?, first.oldStart = i ∧ first.newStart = j := by
  obtain ⟨old, new, size, rest, rfl⟩ := hkept
  intro first hfirst
  obtain rfl := Option.some.inj hfirst
  exact ⟨hleads.1.1, hleads.1.2.1⟩

/-- An edit knows its place on one side, so on both if that is the same line. -/
theorem places_of_level {h : Script} (hleads : Leads olds news i i h)
    (hlevel : ∀ first ∈ h.head?, first.oldStart = first.newStart) :
    ∀ first ∈ h.head?, first.oldStart = i ∧ first.newStart = i := by
  intro first hfirst
  have hsame := hlevel first hfirst
  cases h with
  | nil => cases hfirst
  | cons e rest =>
    obtain rfl := Option.some.inj hfirst
    cases e with
    | keep old new size => exact ⟨hleads.1.1, hleads.1.2.1⟩
    | delete old new size => exact ⟨hleads.1.1, hsame.symm.trans hleads.1.1⟩
    | insert old new size => exact ⟨hsame.trans hleads.1.1, hleads.1.1⟩
    | replace old new size size' => exact ⟨hleads.1.1, hleads.1.2.1⟩

theorem fits_cons {h : Script} {hs : List Script} {k : Nat} (hi : i + k ≤ olds.size)
    (hj : j + k ≤ news.size) (hgap : window olds i k = window news j k) (hne : h ≠ [])
    (hleads : Leads olds news (i + k) (j + k) h) (hcounted : IsCounted h)
    (hplaced : ∀ first ∈ h.head?, first.oldStart = i + k ∧ first.newStart = j + k)
    (hrest : Fits olds.toList news.toList (i + k + oldTotal h) (j + k + newTotal h)
      (hs.map (toHunk olds news))) :
    Fits olds.toList news.toList i j ((h :: hs).map (toHunk olds news)) := by
  obtain ⟨first, last, hfirst, hlast, -⟩ := writeHunk_eq olds news hne
  obtain ⟨hold, hnew⟩ := hplaced first hfirst
  obtain ⟨holdSize, hnewSize⟩ := hcounted first hfirst last hlast
  obtain ⟨holds, hnews⟩ := texts_hunkLines hleads
  have htoHunk : toHunk olds news h =
      ⟨i + k, oldTotal h, j + k, newTotal h, hunkLines olds news h⟩ := by
    rw [toHunk, hfirst, hlast]
    dsimp only
    rw [holdSize, hnewSize, hold, hnew]
  rw [List.map_cons, htoHunk]
  refine ⟨k, rfl, rfl, by simpa using hi, by simpa using hj, ?_, ?_, ?_, hrest⟩
  · rw [← window_eq, ← window_eq]
    exact hgap
  · rw [← window_eq]
    exact holds
  · rw [← window_eq]
    exact hnews

theorem fits_of_startsKept {hs : List Script} (h : Chained olds news i j hs)
    (hkept : ∀ h ∈ hs, StartsKept h) (hcounted : ∀ h ∈ hs, IsCounted h) :
    Fits olds.toList news.toList i j (hs.map (toHunk olds news)) := by
  induction hs generalizing i j with
  | nil => exact h
  | cons hunk hs ih =>
    obtain ⟨hhunk, hhs⟩ := List.forall_mem_cons.mp hkept
    obtain ⟨hcount, hcounts⟩ := List.forall_mem_cons.mp hcounted
    obtain ⟨k, hi, hj, hgap, hne, hleads, hrest⟩ := h
    exact fits_cons hi hj hgap hne hleads hcount (places_of_startsKept hleads hhunk)
      (ih hrest hhs hcounts)

/-- Hunks with the right headers fit both sequences. -/
theorem fits_of_areHeaded {hs : List Script} (h : Chained olds news 0 0 hs)
    (hkept : ∀ h ∈ hs.tail, StartsKept h) (hheaded : AreHeaded hs) :
    Fits olds.toList news.toList 0 0 (hs.map (toHunk olds news)) := by
  cases hs with
  | nil => exact h
  | cons hunk hs =>
    obtain ⟨hcount, hcounts⟩ := List.forall_mem_cons.mp hheaded.1
    obtain ⟨k, hi, hj, hgap, hne, hleads, hrest⟩ := h
    exact fits_cons hi hj hgap hne hleads hcount (places_of_level hleads (hheaded.2 hunk rfl))
      (fits_of_startsKept hrest hkept hcounts)

/-! ## Patches -/

/-- A path as a patch shows it. -/
def shownPath (path : String) : List Char :=
  path.toList.map fun c => if c = '\\' then '/' else c

/-- The hunks of the changes from one text to another. -/
def changedHunks (before after : List Char) : List Script :=
  hunks (script (linesOf before) (linesOf after))

theorem notMem_shownPath {path : String} (h : '\n' ∉ path.toList) : '\n' ∉ shownPath path := by
  intro hmem
  obtain ⟨c, hc, heq⟩ := List.mem_map.mp hmem
  split at heq
  · cases heq
  · exact h (heq ▸ hc)

theorem chained_changedHunks (before after : List Char) :
    Chained (linesOf before).toArray (linesOf after).toArray 0 0 (changedHunks before after) :=
  chained_hunks (covers_script _ _)

theorem isReadable_of_mem_hunkLines {before after : List Char} (hbefore : EndsReturns before)
    (hafter : EndsReturns after) {edits : Script} {l : HunkLine}
    (hl : l ∈ hunkLines (linesOf before).toArray (linesOf after).toArray edits) :
    IsReadable l.text := by
  obtain ⟨i, n, hold | hnew⟩ := mem_hunkLines hl
  · exact .of_mem_window hbefore hold
  · exact .of_mem_window hafter hnew

theorem patch_of_unchanged {before after : List Char} (h : changedHunks before after = [])
    (path : String) : patch path before after =
      ("diff --git a/".toList ++ shownPath path ++ " b/".toList ++ shownPath path) ++ '\n' :: [] := by
  have hbody : writeBody (shownPath path) before after = [] := by
    rw [changedHunks] at h
    rw [writeBody, h]
  rw [← hbody]
  rfl

theorem patch_of_changed {before after : List Char} (h : changedHunks before after ≠ [])
    (path : String) : patch path before after =
      ("diff --git a/".toList ++ shownPath path ++ " b/".toList ++ shownPath path) ++ '\n' ::
        (("--- a/".toList ++ shownPath path) ++ '\n' ::
          (("+++ b/".toList ++ shownPath path) ++ '\n' ::
            (changedHunks before after).flatMap
              (writeHunk (linesOf before).toArray (linesOf after).toArray))) := by
  have hbody : writeBody (shownPath path) before after =
      ("--- a/".toList ++ shownPath path) ++ '\n' :: (("+++ b/".toList ++ shownPath path) ++ '\n' ::
        (changedHunks before after).flatMap
          (writeHunk (linesOf before).toArray (linesOf after).toArray)) := by
    rw [changedHunks] at h ⊢
    rw [writeBody]
    simp
  rw [← hbody]
  rfl

/-- A patch is read as the hunks that were written when their headers count their lines, and only
then. -/
theorem readPatch?_patch {path : String} {before after : List Char} (hpath : '\n' ∉ path.toList)
    (hbefore : EndsReturns before) (hafter : EndsReturns after) :
    readPatch? (shownPath path) (patch path before after) =
      if ∀ h ∈ changedHunks before after, IsCounted h then
        some ((changedHunks before after).map
          (toHunk (linesOf before).toArray (linesOf after).toArray))
      else none := by
  have hshown := notMem_shownPath hpath
  have hchained := chained_changedHunks before after
  have hgit : '\n' ∉ "diff --git a/".toList ++ shownPath path ++ " b/".toList ++ shownPath path := by
    simp [hshown]
  have hold : '\n' ∉ "--- a/".toList ++ shownPath path := by simp [hshown]
  have hnew : '\n' ∉ "+++ b/".toList ++ shownPath path := by simp [hshown]
  cases hhunks : changedHunks before after with
  | nil =>
    rw [patch_of_unchanged hhunks, readPatch?, ← patchRows, patchRows_row hgit (by simp)]
    simp [patchRows, splitTerminated, foldMarks]
  | cons h hs =>
    rw [hhunks] at hchained
    have hne := forall_ne_nil_of_chained hchained
    obtain ⟨first, last, -, -, hwritten⟩ := writeHunk_eq (linesOf before).toArray
      (linesOf after).toArray (hne h List.mem_cons_self)
    have hbody : ((h :: hs).flatMap
        (writeHunk (linesOf before).toArray (linesOf after).toArray)).head? ≠ some '\\' := by
      rw [List.flatMap_cons, hwritten, List.append_assoc, head?_writeHeader]
      simp
    rw [patch_of_changed (by simp [hhunks]), hhunks, readPatch?, ← patchRows,
      patchRows_row hgit (by simp), patchRows_row hold (by simp), patchRows_row hnew hbody,
      patchRows_hunks hne fun h _ l hl => isReadable_of_mem_hunkLines hbefore hafter hl]
    dsimp only
    rw [if_pos rfl, if_pos ⟨rfl, rfl⟩, readHunks?_hunkRows hchained]
    split <;> rfl

/-- Hunks of which the first starts on different lines do not apply. -/
theorem applyHunks_of_not_level {h : Hunk} (hlevel : h.oldPlace ≠ h.newPlace) (hs : List Hunk)
    (lines : List (List Char)) : applyHunks 0 0 (h :: hs) lines = none := by
  rw [applyHunks, if_neg]
  intro hplaced
  omega

theorem flatten_linesOf {cs : List Char} (h : EndsReturns cs) :
    (linesOf cs).toArray.toList.flatten = cs := by
  rw [linesOf_eq h]
  exact flatten_splitTerminated cs

/-- A patch applies to the text before the change and yields the text after it, and is reverted,
exactly when the headers of its hunks are right. -/
theorem applyPatch?_patch {path : String} {before after : List Char} (hpath : '\n' ∉ path.toList)
    (hbefore : EndsReturns before) (hafter : EndsReturns after) :
    applyPatch? (shownPath path) (patch path before after) before =
        (if AreHeaded (changedHunks before after) then some after else none) ∧
      revertPatch? (shownPath path) (patch path before after) after =
        (if AreHeaded (changedHunks before after) then some before else none) := by
  have hread := readPatch?_patch hpath hbefore hafter
  have hchained := chained_changedHunks before after
  rw [applyPatch?, revertPatch?, hread, ← linesOf_eq hbefore, ← linesOf_eq hafter]
  by_cases hheaded : AreHeaded (changedHunks before after)
  · have hfits := fits_of_areHeaded hchained (startsKept_of_mem_tail _) hheaded
    have happly := hfits.applyHunks_eq
    have hrevert := hfits.flip.applyHunks_eq
    simp only [List.drop_zero] at happly hrevert
    rw [if_pos hheaded.1, if_pos hheaded, if_pos hheaded]
    simp only [Option.bind_eq_bind, Option.bind_some]
    rw [happly, hrevert, Option.map_some, Option.map_some, flatten_linesOf hbefore,
      flatten_linesOf hafter]
    exact ⟨rfl, rfl⟩
  rw [if_neg hheaded, if_neg hheaded]
  by_cases hcounted : ∀ h ∈ changedHunks before after, IsCounted h
  · -- The first hunk starts on different lines.
    rw [if_pos hcounted]
    cases hhunks : changedHunks before after with
    | nil => exact absurd ⟨hcounted, by simp [hhunks]⟩ hheaded
    | cons h hs =>
      rw [hhunks] at hchained
      obtain ⟨first, last, hfirst, hlast, -⟩ := writeHunk_eq (linesOf before).toArray
        (linesOf after).toArray (forall_ne_nil_of_chained hchained h List.mem_cons_self)
      have hlevel : first.oldStart ≠ first.newStart := by
        intro hsame
        refine hheaded ⟨hcounted, ?_⟩
        rw [hhunks]
        rintro _ ⟨⟩ _ hmem
        obtain rfl := Option.some.inj (hfirst.symm.trans hmem)
        exact hsame
      simp only [Option.bind_eq_bind, Option.bind_some, List.map_cons]
      rw [applyHunks_of_not_level, applyHunks_of_not_level]
      · exact ⟨rfl, rfl⟩
      · rw [toHunk, hfirst, hlast]
        exact hlevel.symm
      · rw [toHunk, hfirst, hlast]
        exact hlevel
  · rw [if_neg hcounted]
    exact ⟨rfl, rfl⟩

/-- A pinned version that is changed. -/
theorem applyPatch?_patch_requirements :
    AreHeaded (changedHunks "flask==2.0\nshopify-sdk==1.2.3\n".toList
        "flask==2.0\nshopify-sdk==2.0.1\n".toList) ∧
      applyPatch? "requirements.txt".toList
        (patch "requirements.txt" "flask==2.0\nshopify-sdk==1.2.3\n".toList
          "flask==2.0\nshopify-sdk==2.0.1\n".toList) "flask==2.0\nshopify-sdk==1.2.3\n".toList =
        some "flask==2.0\nshopify-sdk==2.0.1\n".toList := by
  have happly := (@applyPatch?_patch "requirements.txt" "flask==2.0\nshopify-sdk==1.2.3\n".toList
    "flask==2.0\nshopify-sdk==2.0.1\n".toList (by decide +kernel) (by decide +kernel)
    (by decide +kernel)).1
  have hheaded : AreHeaded (changedHunks "flask==2.0\nshopify-sdk==1.2.3\n".toList
      "flask==2.0\nshopify-sdk==2.0.1\n".toList) := by
    decide +kernel
  rw [if_pos hheaded] at happly
  exact ⟨hheaded, happly⟩

/-- A carriage return alone ends a line when lines are compared, but not when their patch is read.
In the other change the inserted line passes the deleted one, and the header counts one old line too
few. -/
theorem not_applyPatch?_patch :
    applyPatch? "a.txt".toList (patch "a.txt" "a\rb\n".toList "a\rc\n".toList) "a\rb\n".toList ≠
        some "a\rc\n".toList ∧
      applyPatch? "a.txt".toList (patch "a.txt" "a\nb\n".toList "b\nb\n".toList) "a\nb\n".toList ≠
        some "b\nb\n".toList := by
  decide +kernel

end RepoAudit.Diff
