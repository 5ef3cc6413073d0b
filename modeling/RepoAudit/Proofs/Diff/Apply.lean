import Mathlib.Algebra.Ring.Nat
import RepoAudit.Diff.Patch
import RepoAudit.Proofs.Text.Lines
import RepoAudit.Proofs.Text.Match
import RepoAudit.Proofs.Text.Number

/-!
# Applying patches

A patch is read line by line, where lines end at newlines alone: the header of a hunk tells where it
stands and how many lines it has on each side, and the lines that follow carry the sign of their
side. A hunk is applied where its header says, to lines that are the same as its own, and a patch is
reverted by exchanging the two sides.

## Main definitions

- `Diff.readPatch?` — the hunks of a patch of a file
- `Diff.applyPatch?`, `Diff.revertPatch?` — the text that a patch makes of another one
- `Diff.Fits` — hunks fit two sequences of lines

## Main statements

- `Diff.Fits.applyHunks_eq` — hunks that fit are applied
- `Diff.Fits.flip` — and can be reverted
- `Diff.readHunks?_append` — the lines of a hunk are read when its header counts them
- `Diff.eq_of_readHunks?` — and only then
-/

namespace RepoAudit.Diff

open RepoAudit.Text

/-- The side that a line of a hunk is on. -/
inductive Side where
  /-- A line of both sides. -/
  | both
  /-- A line of the old side. -/
  | old
  /-- A line of the new side. -/
  | new
deriving DecidableEq, Repr

namespace Side

/-- The sign of the lines of a side. -/
def sign : Side → Char
  | both => ' '
  | old => '-'
  | new => '+'

/-- The side that a sign stands for. -/
def ofSign? : Char → Option Side
  | ' ' => some both
  | '-' => some old
  | '+' => some new
  | _ => none

/-- How many old lines a line counts for. -/
def oldSize : Side → Nat
  | new => 0
  | _ => 1

/-- How many new lines a line counts for. -/
def newSize : Side → Nat
  | old => 0
  | _ => 1

/-- The side after the two sides are exchanged. -/
def flip : Side → Side
  | both => both
  | old => new
  | new => old

@[simp] theorem ofSign?_sign (s : Side) : ofSign? s.sign = some s := by
  cases s <;> rfl

@[simp] theorem oldSize_flip (s : Side) : s.flip.oldSize = s.newSize := by
  cases s <;> rfl

@[simp] theorem newSize_flip (s : Side) : s.flip.newSize = s.oldSize := by
  cases s <;> rfl

theorem size_pos (s : Side) : 0 < s.oldSize ∨ 0 < s.newSize := by
  cases s <;> decide

end Side

/-- A line of a hunk. -/
structure HunkLine where
  /-- The side that it is on. -/
  side : Side
  /-- The line with its end. -/
  text : List Char
deriving DecidableEq

/-- A hunk as its patch tells it. -/
structure Hunk where
  /-- Where it stands in the old file. -/
  oldPlace : Nat
  /-- How many old lines it has. -/
  oldSize : Nat
  /-- Where it stands in the new file. -/
  newPlace : Nat
  /-- How many new lines it has. -/
  newSize : Nat
  /-- Its lines. -/
  lines : List HunkLine
deriving DecidableEq

/-- The lines of a hunk that are on the old side. -/
def oldTexts (lines : List HunkLine) : List (List Char) :=
  (lines.filter fun l => l.side.oldSize = 1).map HunkLine.text

/-- The lines of a hunk that are on the new side. -/
def newTexts (lines : List HunkLine) : List (List Char) :=
  (lines.filter fun l => l.side.newSize = 1).map HunkLine.text

namespace Hunk

/-- The hunk with its sides exchanged. -/
def flip (h : Hunk) : Hunk :=
  ⟨h.newPlace, h.newSize, h.oldPlace, h.oldSize, h.lines.map fun l => ⟨l.side.flip, l.text⟩⟩

theorem oldTexts_flip (h : Hunk) : oldTexts h.flip.lines = newTexts h.lines := by
  rw [oldTexts, newTexts, flip, List.filter_map, List.map_map]
  simp only [Function.comp_def, Side.oldSize_flip]

theorem newTexts_flip (h : Hunk) : newTexts h.flip.lines = oldTexts h.lines := by
  rw [oldTexts, newTexts, flip, List.filter_map, List.map_map]
  simp only [Function.comp_def, Side.newSize_flip]

end Hunk

/-! ## Reading -/

/-- A number at the start of a text, and what follows it. -/
def readNumber? (cs : List Char) : Option (Nat × List Char) :=
  if (cs.takeWhile Char.isDigit).isEmpty then none
  else some (digitsValue (cs.takeWhile Char.isDigit), cs.dropWhile Char.isDigit)

/-- A range at the start of a text: where it starts, how many lines it has, and what follows it.
Lines are counted from one, and an empty range starts on the line before it. -/
def readRange? (cs : List Char) : Option (Nat × Nat × List Char) := do
  let (start, rest) ← readNumber? cs
  match rest with
  | ',' :: rest => do
    let (size, rest) ← readNumber? rest
    some (if size = 0 then start else start - 1, size, rest)
  | rest => some (start - 1, 1, rest)

/-- The header of a hunk, which has no lines yet. -/
def readHeader? (row : List Char) : Option Hunk := do
  let rest ← after? "@@ -".toList row
  let (oldPlace, oldSize, rest) ← readRange? rest
  let rest ← after? " +".toList rest
  let (newPlace, newSize, rest) ← readRange? rest
  let _ ← after? " @@".toList rest
  some ⟨oldPlace, oldSize, newPlace, newSize, []⟩

/-- The rows of a patch without the marks of lines that have no end, which lose their newlines. -/
def foldMarks : List (List Char) → List (List Char)
  | row :: ('\\' :: _) :: rest => row.dropLast :: foldMarks rest
  | row :: rest => row :: foldMarks rest
  | [] => []

/-- The lines that are left of a hunk, given how many there are on both sides, and the hunks that
follow it. -/
def readHunks? (m n : Nat) : List (List Char) → Option (List HunkLine × List Hunk)
  | [] => if m = 0 ∧ n = 0 then some ([], []) else none
  | row :: rows =>
    if m = 0 ∧ n = 0 then do
      let h ← readHeader? row
      let (lines, hunks) ← readHunks? h.oldSize h.newSize rows
      some ([], { h with lines := lines } :: hunks)
    else
      match row with
      | [] => none
      | sign :: text => do
        let side ← Side.ofSign? sign
        if side.oldSize ≤ m ∧ side.newSize ≤ n then
          let (lines, hunks) ← readHunks? (m - side.oldSize) (n - side.newSize) rows
          some (⟨side, text⟩ :: lines, hunks)
        else none

/-- The hunks of a patch of the file with a name. -/
def readPatch? (name patch : List Char) : Option (List Hunk) :=
  match foldMarks (splitTerminated patch) with
  | [] => none
  | git :: rows =>
    if git = "diff --git a/".toList ++ name ++ " b/".toList ++ name ++ ['\n'] then
      match rows with
      | [] => some []
      | [_] => none
      | old :: new :: rows =>
        if old = "--- a/".toList ++ name ++ ['\n'] ∧ new = "+++ b/".toList ++ name ++ ['\n'] then
          (readHunks? 0 0 rows).map Prod.snd
        else none
    else none

/-! ## Applying -/

/-- The lines that hunks make of what is left of a file, where so many lines of the old and of the
new file have been passed. -/
def applyHunks : (i j : Nat) → List Hunk → List (List Char) → Option (List (List Char))
  | _, _, [], lines => some lines
  | i, j, h :: hs, lines =>
    let gap := h.oldPlace - i
    let rest := lines.drop gap
    if i ≤ h.oldPlace ∧ gap ≤ lines.length ∧ h.newPlace = j + gap ∧
        rest.take h.oldSize = oldTexts h.lines then
      (applyHunks (h.oldPlace + h.oldSize) (h.newPlace + h.newSize) hs
        (rest.drop h.oldSize)).map fun made => lines.take gap ++ newTexts h.lines ++ made
    else none

/-- What a patch of the file with a name makes of its text. -/
def applyPatch? (name patch text : List Char) : Option (List Char) := do
  let hunks ← readPatch? name patch
  (applyHunks 0 0 hunks (splitTerminated text)).map List.flatten

/-- What a patch of the file with a name was made from, given the text it was made to. -/
def revertPatch? (name patch text : List Char) : Option (List Char) := do
  let hunks ← readPatch? name patch
  (applyHunks 0 0 (hunks.map Hunk.flip) (splitTerminated text)).map List.flatten

/-- Hunks fit two sequences of lines from two places on: each stands where its header says, with
the same lines before it on both sides, and its lines are those of both sequences. -/
def Fits (olds news : List (List Char)) : Nat → Nat → List Hunk → Prop
  | i, j, [] => olds.drop i = news.drop j
  | i, j, h :: hs => ∃ k, h.oldPlace = i + k ∧ h.newPlace = j + k ∧
      i + k ≤ olds.length ∧ j + k ≤ news.length ∧ (olds.drop i).take k = (news.drop j).take k ∧
      oldTexts h.lines = (olds.drop (i + k)).take h.oldSize ∧
      newTexts h.lines = (news.drop (j + k)).take h.newSize ∧
      Fits olds news (i + k + h.oldSize) (j + k + h.newSize) hs

theorem Fits.flip {olds news : List (List Char)} {i j : Nat} {hs : List Hunk}
    (h : Fits olds news i j hs) : Fits news olds j i (hs.map Hunk.flip) := by
  induction hs generalizing i j with
  | nil => exact Eq.symm h
  | cons hunk hs ih =>
    obtain ⟨k, hold, hnew, hi, hj, hgap, holds, hnews, hrest⟩ := h
    refine ⟨k, hnew, hold, hj, hi, hgap.symm, ?_, ?_, ih hrest⟩
    · rw [Hunk.oldTexts_flip]
      exact hnews
    · rw [Hunk.newTexts_flip]
      exact holds

/-- Hunks that fit turn what is left of the one sequence into what is left of the other. -/
theorem Fits.applyHunks_eq {olds news : List (List Char)} {i j : Nat} {hs : List Hunk}
    (h : Fits olds news i j hs) : applyHunks i j hs (olds.drop i) = some (news.drop j) := by
  induction hs generalizing i j with
  | nil => exact congrArg some h
  | cons hunk hs ih =>
    obtain ⟨k, hold, hnew, hi, hj, hgap, holds, hnews, hrest⟩ := h
    have hsub : hunk.oldPlace - i = k := by omega
    have hlength : k ≤ (olds.drop i).length := by
      rw [List.length_drop]
      omega
    have hdrop : (olds.drop i).drop k = olds.drop (i + k) := List.drop_drop
    rw [applyHunks, hsub, hdrop, if_pos ⟨by omega, hlength, by omega, holds.symm⟩, List.drop_drop,
      hold, hnew, ih hrest, Option.map_some, hgap, hnews]
    -- The new lines are the common ones, those of the hunk, and the rest.
    have hsplit : news.drop j = (news.drop j).take k ++ ((news.drop (j + k)).take hunk.newSize ++
        news.drop (j + k + hunk.newSize)) := by
      rw [← List.drop_drop (l := news) (i := hunk.newSize), List.take_append_drop, ← List.drop_drop,
        List.take_append_drop]
    rw [List.append_assoc, ← hsplit]

/-! ## What is read -/

namespace HunkLine

/-- The row of a line in a patch. -/
def row (l : HunkLine) : List Char :=
  l.side.sign :: l.text

end HunkLine

/-- How many old lines there are among the lines of a hunk. -/
def oldCount (lines : List HunkLine) : Nat :=
  (lines.map fun l => l.side.oldSize).sum

/-- How many new lines there are among the lines of a hunk. -/
def newCount (lines : List HunkLine) : Nat :=
  (lines.map fun l => l.side.newSize).sum

/-- A header starts the next hunk. -/
theorem readHunks?_header {row : List Char} {h : Hunk} (hread : readHeader? row = some h)
    (rows : List (List Char)) : readHunks? 0 0 (row :: rows) =
      (readHunks? h.oldSize h.newSize rows).map
        fun r => ([], { h with lines := r.1 } :: r.2) := by
  cases row with
  | nil => cases hread
  | cons c row =>
    rw [readHunks?, if_pos ⟨rfl, rfl⟩, hread, Option.bind_eq_bind, Option.bind_some]
    cases readHunks? h.oldSize h.newSize rows <;> rfl

theorem readHunks?_line {m n : Nat} (l : HunkLine) (hm : l.side.oldSize ≤ m)
    (hn : l.side.newSize ≤ n) (rows : List (List Char)) :
    readHunks? m n (l.row :: rows) =
      (readHunks? (m - l.side.oldSize) (n - l.side.newSize) rows).map
        fun r => (l :: r.1, r.2) := by
  have hpos := l.side.size_pos
  rw [HunkLine.row, readHunks?, if_neg (by omega), Side.ofSign?_sign, Option.bind_eq_bind,
    Option.bind_some, if_pos ⟨hm, hn⟩]
  cases readHunks? (m - l.side.oldSize) (n - l.side.newSize) rows <;> rfl

/-- The lines of a hunk are read, whatever follows them, when they are counted. -/
theorem readHunks?_append (lines : List HunkLine) (m n : Nat) (rows : List (List Char)) :
    readHunks? (oldCount lines + m) (newCount lines + n) (lines.map HunkLine.row ++ rows) =
      (readHunks? m n rows).map fun r => (lines ++ r.1, r.2) := by
  induction lines with
  | nil => simp [oldCount, newCount]
  | cons l lines ih =>
    have hold : oldCount (l :: lines) = l.side.oldSize + oldCount lines := by simp [oldCount]
    have hnew : newCount (l :: lines) = l.side.newSize + newCount lines := by simp [newCount]
    rw [List.map_cons, List.cons_append, readHunks?_line l (by omega) (by omega), hold, hnew]
    have hm : l.side.oldSize + oldCount lines + m - l.side.oldSize = oldCount lines + m := by omega
    have hn : l.side.newSize + newCount lines + n - l.side.newSize = newCount lines + n := by omega
    rw [hm, hn, ih, Option.map_map]
    rfl

theorem readHeader?_row (l : HunkLine) : readHeader? l.row = none := by
  obtain ⟨side, text⟩ := l
  cases side <;> rfl

/-- Rows that do not go on with the lines of a hunk: there are none, or a header comes first. -/
def EndsHunk (rows : List (List Char)) : Prop :=
  ∀ row ∈ rows.head?, row.head? = some '@'

theorem EndsHunk.sizes_eq_zero {m n : Nat} {rows : List (List Char)} (h : EndsHunk rows)
    {r : List HunkLine × List Hunk} (hread : readHunks? m n rows = some r) : m = 0 ∧ n = 0 := by
  cases rows with
  | nil =>
    rw [readHunks?] at hread
    split at hread
    · assumption
    · cases hread
  | cons row rows =>
    have hrow : row.head? = some '@' := h row rfl
    obtain ⟨rest, rfl⟩ := List.head?_eq_some_iff.mp hrow
    rw [readHunks?] at hread
    split at hread
    · assumption
    · cases hread

/-- The lines of a hunk are read only when they are counted. -/
theorem eq_of_readHunks? {lines : List HunkLine} {m n : Nat} {rows : List (List Char)}
    (h : EndsHunk rows) {r : List HunkLine × List Hunk}
    (hread : readHunks? m n (lines.map HunkLine.row ++ rows) = some r) :
    m = oldCount lines ∧ n = newCount lines := by
  induction lines generalizing m n r with
  | nil => exact h.sizes_eq_zero hread
  | cons l lines ih =>
    have hold : oldCount (l :: lines) = l.side.oldSize + oldCount lines := by simp [oldCount]
    have hnew : newCount (l :: lines) = l.side.newSize + newCount lines := by simp [newCount]
    have hpos := l.side.size_pos
    rw [List.map_cons, List.cons_append] at hread
    by_cases hfits : l.side.oldSize ≤ m ∧ l.side.newSize ≤ n
    · rw [readHunks?_line l hfits.1 hfits.2, Option.map_eq_some_iff] at hread
      obtain ⟨r', hread', -⟩ := hread
      obtain ⟨hm, hn⟩ := ih hread'
      omega
    · have hheader := readHeader?_row l
      rw [HunkLine.row] at hread hheader
      rw [readHunks?] at hread
      split at hread
      · -- A line is no header.
        rw [hheader] at hread
        cases hread
      · rw [Side.ofSign?_sign, Option.bind_eq_bind, Option.bind_some, if_neg hfits] at hread
        cases hread

/-! ## What is written -/

theorem readNumber?_toDigits (n : Nat) {rest : List Char}
    (hrest : ∀ c ∈ rest.head?, c.isDigit = false) :
    readNumber? (Nat.toDigits 10 n ++ rest) = some (n, rest) := by
  have htake : (Nat.toDigits 10 n ++ rest).takeWhile Char.isDigit = Nat.toDigits 10 n := by
    rw [List.takeWhile_append_of_pos fun c hc => isDigit_of_mem_toDigits hc]
    cases rest with
    | nil => simp
    | cons c rest => simp [hrest c rfl]
  have hdrop : (Nat.toDigits 10 n ++ rest).dropWhile Char.isDigit = rest := by
    rw [List.dropWhile_append_of_pos fun c hc => isDigit_of_mem_toDigits hc]
    cases rest with
    | nil => rfl
    | cons c rest => simp [hrest c rfl]
  have hne : (Nat.toDigits 10 n).isEmpty = false := by
    simp
  rw [readNumber?, htake, hdrop, hne, digitsValue_toDigits]
  rfl

/-- A range is read as it was written. -/
theorem readRange?_writeRange (start stop : Nat) (rest : List Char) :
    readRange? (writeRange start stop ++ ' ' :: rest) = some (start, stop - start, ' ' :: rest) := by
  have hblank : ∀ c ∈ (' ' :: rest).head?, c.isDigit = false := by
    rintro c ⟨⟩
    rfl
  rw [writeRange]
  split
  · next hone =>
    rw [readRange?, readNumber?_toDigits _ hblank, Option.bind_eq_bind, Option.bind_some]
    dsimp only
    rw [hone, Nat.add_sub_cancel]
    rfl
  · next hone =>
    have hcomma : ∀ c ∈ (',' :: (Nat.toDigits 10 (stop - start) ++ ' ' :: rest)).head?,
        c.isDigit = false := by
      rintro c ⟨⟩
      rfl
    rw [List.append_assoc, List.cons_append, readRange?, readNumber?_toDigits _ hcomma,
      Option.bind_eq_bind, Option.bind_some]
    change (readNumber? (Nat.toDigits 10 (stop - start) ++ ' ' :: rest)).bind _ = _
    rw [readNumber?_toDigits _ hblank, Option.bind_some]
    dsimp only
    split
    · rfl
    · rw [Nat.add_sub_cancel]

/-- A header is read as it was written. -/
theorem readHeader?_writeHeader (first last : Edit) :
    readHeader? (writeHeader first last) = some ⟨first.oldStart, last.oldStop - first.oldStart,
      first.newStart, last.newStop - first.newStart, []⟩ := by
  have hwritten : writeHeader first last = "@@ -".toList ++
      (writeRange first.oldStart last.oldStop ++ ' ' :: ('+' ::
        (writeRange first.newStart last.newStop ++ ' ' :: "@@\n".toList))) := by
    delta writeHeader
    simp
  rw [hwritten, readHeader?]
  simp only [Option.bind_eq_bind]
  rw [after?_eq_some.mpr rfl, Option.bind_some, readRange?_writeRange, Option.bind_some]
  dsimp only
  have hplus : ∀ cs : List Char, ' ' :: '+' :: cs = " +".toList ++ cs := fun cs => rfl
  rw [hplus, after?_eq_some.mpr rfl, Option.bind_some, readRange?_writeRange, Option.bind_some]
  rfl

end RepoAudit.Diff
