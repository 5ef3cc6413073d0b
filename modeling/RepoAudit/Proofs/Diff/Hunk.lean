import RepoAudit.Diff.Patch
import RepoAudit.Proofs.Diff.Tidy

/-!
# Hunks of a script

Hunks leave out lines that are the same on both sides, and nothing else: one stands behind the other
with a gap of such lines between them, and the same lines follow the last one. Every hunk but the
first starts with a kept run.

## Main definitions

- `Diff.Chained` — hunks stand one behind the other, with gaps between them
- `Diff.StartsKept` — a hunk starts with a kept run

## Main statements

- `Diff.chained_hunks` — the hunks of a script
- `Diff.startsKept_of_mem_tail` — the hunks after the first one
-/

namespace RepoAudit.Diff

variable {α : Type} {olds news : Array α} {i j : Nat}

/-- Hunks stand one behind the other from two places on. Before each one there is a gap of lines
that are the same on both sides, and the same lines follow the last one. -/
def Chained (olds news : Array α) : Nat → Nat → List Script → Prop
  | i, j, [] => olds.toList.drop i = news.toList.drop j
  | i, j, h :: hs => ∃ k, i + k ≤ olds.size ∧ j + k ≤ news.size ∧
      window olds i k = window news j k ∧ h ≠ [] ∧ Leads olds news (i + k) (j + k) h ∧
      Chained olds news (i + k + oldTotal h) (j + k + newTotal h) hs

/-- A hunk that starts with a kept run. -/
def StartsKept (hunk : Script) : Prop :=
  ∃ old new size rest, hunk = .keep old new size :: rest

theorem drop_eq_window_append (as : Array α) (i k : Nat) :
    as.toList.drop i = window as i k ++ as.toList.drop (i + k) := by
  rw [window_eq, ← List.drop_drop, List.take_append_drop]

/-- What is behind a kept run is the same from the run on. -/
theorem drop_eq_of_window {k : Nat} (hwindow : window olds i k = window news j k)
    (hdrop : olds.toList.drop (i + k) = news.toList.drop (j + k)) :
    olds.toList.drop i = news.toList.drop j := by
  rw [drop_eq_window_append olds i k, drop_eq_window_append news j k, hwindow, hdrop]

/-! ## Cutting -/

theorem chained_hunksFrom (held : List Edit) (script : Script) {i j k : Nat}
    (hi : i + k ≤ olds.size) (hj : j + k ≤ news.size) (hgap : window olds i k = window news j k)
    (hleads : Leads olds news (i + k) (j + k) (held.reverse ++ script))
    (hend : olds.toList.drop (i + k + oldTotal (held.reverse ++ script)) =
      news.toList.drop (j + k + newTotal (held.reverse ++ script))) :
    Chained olds news i j (hunksFrom held script) := by
  fun_induction hunksFrom held script generalizing i j k with
  | case1 =>
    -- Nothing is left.
    exact drop_eq_of_window hgap hend
  | case2 old new size =>
    -- Only a kept run is left.
    obtain ⟨⟨-, -, -, -, hsame⟩, -⟩ := hleads
    refine drop_eq_of_window hgap (drop_eq_of_window hsame ?_)
    simpa [Edit.oldSize, Edit.newSize] using hend
  | case3 held hnil hkeep =>
    rw [List.append_nil] at hleads hend
    exact ⟨k, hi, hj, hgap, by simpa using hnil, hleads, hend⟩
  | case4 held old new size rest hlong n =>
    rename_i ih
    -- The hunk ends in a long kept run, and the next one starts at the other end of it.
    obtain ⟨hheld, hkeep, hrest⟩ := leads_append.mp hleads
    have hfirst := hkeep.part (k := 0) (m := contextSize) (by omega)
    have hlast := hkeep.part (k := n) (m := size - n) (by omega)
    obtain ⟨-, -, hstop, hstop', hsame⟩ := hkeep
    have hplace : ∀ total, total + contextSize + (size - 2 * contextSize) = total + n := by
      intro total
      omega
    have hlength : n + (size - n) = size := by omega
    simp only [Edit.oldSize, Edit.newSize] at hrest
    simp only [oldTotal_append, newTotal_append, oldTotal_cons, newTotal_cons, Edit.oldSize,
      Edit.newSize, ← Nat.add_assoc] at hend
    have htotal : oldTotal (held.reverse ++ [.keep old new contextSize]) =
        oldTotal held.reverse + contextSize := by simp [Edit.oldSize]
    have htotal' : newTotal (held.reverse ++ [.keep old new contextSize]) =
        newTotal held.reverse + contextSize := by simp [Edit.newSize]
    rw [List.reverse_cons]
    refine ⟨k, hi, hj, hgap, by simp, leads_append.mpr ⟨hheld, hfirst, trivial⟩, ?_⟩
    rw [htotal, htotal', ← Nat.add_assoc, ← Nat.add_assoc]
    refine ih (k := size - 2 * contextSize) ?_ ?_ (window_part hsame (by omega)) ?_ ?_
    · omega
    · omega
    · rw [hplace, hplace]
      refine ⟨hlast, ?_⟩
      simp only [Edit.oldSize, Edit.newSize, Nat.add_assoc _ n, hlength]
      exact hrest
    · rw [hplace, hplace]
      simp only [List.reverse_singleton, List.singleton_append, oldTotal_cons, newTotal_cons,
        Edit.oldSize, Edit.newSize, ← Nat.add_assoc, Nat.add_assoc _ n (size - n), hlength]
      exact hend
  | case5 held old new size rest hshort ih =>
    rw [List.reverse_cons, List.append_assoc, List.singleton_append] at ih
    exact ih hi hj hgap hleads hend
  | case6 held e rest hkeep ih =>
    rw [List.reverse_cons, List.append_assoc, List.singleton_append] at ih
    exact ih hi hj hgap hleads hend

/-! ## Cropping -/

/-- What is cropped at the start is the same on both sides. -/
theorem exists_gap_cropFirst {script : Script} (h : Leads olds news 0 0 script) :
    ∃ k, 0 + k ≤ olds.size ∧ 0 + k ≤ news.size ∧ window olds 0 k = window news 0 k ∧
      Leads olds news (0 + k) (0 + k) (cropFirst script) ∧
      0 + k + oldTotal (cropFirst script) = oldTotal script ∧
      0 + k + newTotal (cropFirst script) = newTotal script := by
  fun_cases cropFirst script with
  | case1 old new size rest n =>
    obtain ⟨hkeep, hrest⟩ := h
    have hle : n ≤ size := Nat.sub_le _ _
    have hsplit : n + (size - n) = size := Nat.add_sub_cancel' hle
    have hlast := hkeep.part (k := n) (m := size - n) (by omega)
    obtain ⟨-, -, hold, hnew, hsame⟩ := hkeep
    refine ⟨n, by omega, by omega, window_part (k := 0) hsame (by omega), ⟨hlast, ?_⟩, ?_, ?_⟩
    · simp only [Edit.oldSize, Edit.newSize, Nat.zero_add, hsplit] at hrest ⊢
      exact hrest
    · simp only [oldTotal_cons, Edit.oldSize]
      omega
    · simp only [newTotal_cons, Edit.newSize]
      omega
  | case2 script hkeep => exact ⟨0, Nat.zero_le _, Nat.zero_le _, by simp, h, by simp, by simp⟩

/-- What is cropped at the end is the same on both sides. -/
theorem exists_gap_cropLast {script : Script} (h : Leads olds news i j script) :
    Leads olds news i j (cropLast script) ∧ ∃ m, oldTotal script = oldTotal (cropLast script) + m ∧
      newTotal script = newTotal (cropLast script) + m ∧
      window olds (i + oldTotal (cropLast script)) m =
        window news (j + newTotal (cropLast script)) m := by
  rw [cropLast]
  split
  · next old new size rest hreverse =>
    have hscript : script = rest.reverse ++ [.keep old new size] := by
      rw [← List.reverse_reverse script, hreverse, List.reverse_cons]
    subst hscript
    obtain ⟨hfront, hkeep, -⟩ := leads_append.mp h
    have hle : min size contextSize ≤ size := Nat.min_le_left _ _
    have hfirst := hkeep.part (k := 0) (m := min size contextSize) (by omega)
    obtain ⟨-, -, -, -, hsame⟩ := hkeep
    have hgap := window_part (k := min size contextSize) (m := size - min size contextSize) hsame
      (by omega)
    rw [List.reverse_cons, leads_append]
    refine ⟨⟨hfront, hfirst, trivial⟩, size - min size contextSize, ?_, ?_, ?_⟩
    · simp only [oldTotal_append, oldTotal_cons, oldTotal_nil, Edit.oldSize]
      omega
    · simp only [newTotal_append, newTotal_cons, newTotal_nil, Edit.newSize]
      omega
    · simp only [oldTotal_append, oldTotal_cons, oldTotal_nil, Edit.oldSize, newTotal_append,
        newTotal_cons, newTotal_nil, Edit.newSize, Nat.add_zero, ← Nat.add_assoc]
      exact hgap
  · exact ⟨h, 0, rfl, rfl, by simp⟩

/-- The hunks of a script that leads from one sequence to the other. -/
theorem chained_hunks {script : Script} (h : Covers olds news 0 0 olds.size news.size script) :
    Chained olds news 0 0 (hunks script) := by
  obtain ⟨k, hi, hj, hgap, hleads, hold, hnew⟩ := exists_gap_cropFirst h.leads
  obtain ⟨hcropped, m, hold', hnew', hgap'⟩ := exists_gap_cropLast hleads
  refine chained_hunksFrom [] _ hi hj hgap hcropped (drop_eq_of_window hgap' ?_)
  have hstop : 0 + k + oldTotal (cropLast (cropFirst script)) + m = olds.toList.length := by
    rw [Array.length_toList, ← h.oldTotal]
    omega
  have hstop' : 0 + k + newTotal (cropLast (cropFirst script)) + m = news.toList.length := by
    rw [Array.length_toList, ← h.newTotal]
    omega
  rw [List.reverse_nil, List.nil_append, hstop, hstop', List.drop_length, List.drop_length]

/-! ## Kept starts -/

theorem startsKept_of_mem_hunksFrom (held : List Edit) (script : Script)
    (hheld : ∃ old new size later, held = later ++ [.keep old new size]) :
    ∀ h ∈ hunksFrom held script, StartsKept h := by
  fun_induction hunksFrom held script with
  | case1 =>
    obtain ⟨old, new, size, later, hnil⟩ := hheld
    simp at hnil
  | case2 => exact List.forall_mem_nil _
  | case3 held hnil hkeep =>
    obtain ⟨old, new, size, later, rfl⟩ := hheld
    refine List.forall_mem_singleton.mpr ⟨old, new, size, later.reverse, ?_⟩
    rw [List.reverse_append, List.reverse_singleton, List.singleton_append]
  | case4 held old new size rest hlong n =>
    rename_i ih
    obtain ⟨old', new', size', later, rfl⟩ := hheld
    refine List.forall_mem_cons.mpr ⟨⟨old', new', size', later.reverse ++ [.keep old new contextSize],
      by simp⟩, ih ⟨_, _, _, [], rfl⟩⟩
  | case5 held old new size rest hshort ih =>
    obtain ⟨old', new', size', later, rfl⟩ := hheld
    exact ih ⟨old', new', size', .keep old new size :: later, rfl⟩
  | case6 held e rest hkeep ih =>
    obtain ⟨old', new', size', later, rfl⟩ := hheld
    exact ih ⟨old', new', size', e :: later, rfl⟩

theorem startsKept_of_mem_tail (script : Script) : ∀ h ∈ (hunks script).tail, StartsKept h := by
  rw [hunks]
  generalize cropLast (cropFirst script) = script
  generalize ([] : List Edit) = held
  fun_induction hunksFrom held script with
  | case1 => exact List.forall_mem_nil _
  | case2 => exact List.forall_mem_nil _
  | case3 held hnil hkeep => exact List.forall_mem_nil _
  | case4 held old new size rest hlong n =>
    exact startsKept_of_mem_hunksFrom _ _ ⟨_, _, _, [], rfl⟩
  | case5 held old new size rest hshort ih => exact ih
  | case6 held e rest hkeep ih => exact ih

end RepoAudit.Diff
