import Mathlib.Data.List.GetD
import RepoAudit.Proofs.Python.Prompt

/-!
# Scopes, line by line

The searches for a scope and for an assignment in it read the lines above a line from the nearest
one upwards. Read that way, both are recursive functions of the lines above.

## Main definitions

- `AssignedAbove` — the sanitized input is assigned in a scope, in one of the lines above
- `UsesAssigned` — every prompt among the lines that uses the sanitized input has it assigned

## Main statements

- `isSanitizedBefore_iff`, `undefinedUse?_eq_none_iff` — the searches by line numbers are these
-/

namespace RepoAudit.Python

open RepoAudit.Text

/-- The sanitized input is assigned in a scope, in one of the lines above, nearest first. -/
def AssignedAbove (scope : Option Nat) : List Line → Prop
  | [] => False
  | line :: above =>
    (definesSanitized line = true ∧ scopeAbove (indentWidth line) above = scope) ∨
      AssignedAbove scope above

/-- Every prompt among the lines, last one first, that uses the sanitized input has it assigned
above, in its own scope. -/
def UsesAssigned : List Line → Prop
  | [] => True
  | line :: above =>
    (isSanitizedPrompt line = true → AssignedAbove (scopeAbove (indentWidth line) above) above) ∧
      UsesAssigned above

/-- No line is indented less than not at all. -/
@[simp] theorem scopeAbove_zero (above : List Line) : scopeAbove 0 above = none := by
  induction above with
  | nil => rfl
  | cons line above ih => simp [scopeAbove, ih]

variable {lines : List Line}

theorem assignedAbove_take (scope : Option Nat) (n : Nat) :
    AssignedAbove scope (lines.take n).reverse ↔
      ∃ i < n, definesSanitized (lines.getD i []) = true ∧ enclosingDef? lines i = scope := by
  induction n with
  | zero => simp [AssignedAbove]
  | succ n ih =>
    rw [Nat.exists_lt_succ_right, ← ih]
    by_cases hn : n < lines.length
    · rw [reverse_take_succ hn, AssignedAbove, enclosingDef?, or_comm]
    · have hline : lines.getD n [] = [] := List.getD_eq_default _ _ (by omega)
      have hdefines : definesSanitized [] = false := rfl
      rw [List.take_of_length_le (by omega), List.take_of_length_le (by omega), hline, hdefines]
      simp

/-- The sanitized input is looked for in the lines above. -/
theorem isSanitizedBefore_iff (index : Nat) : isSanitizedBefore lines index = true ↔
    AssignedAbove (enclosingDef? lines index) (lines.take index).reverse := by
  rw [assignedAbove_take, isSanitizedBefore, List.any_eq_true]
  simp only [List.mem_range, Bool.and_eq_true, beq_iff_eq]

theorem usesAssigned_take {n : Nat} (h : n ≤ lines.length) :
    UsesAssigned (lines.take n).reverse ↔
      ∀ i < n, isSanitizedPrompt (lines.getD i []) = true → isSanitizedBefore lines i = true := by
  induction n with
  | zero => simp [UsesAssigned]
  | succ n ih =>
    rw [Nat.forall_lt_succ_right, ← ih (by omega), reverse_take_succ h, UsesAssigned,
      isSanitizedBefore_iff, enclosingDef?, and_comm]

/-- No use of the sanitized input is undefined when every one has it assigned. -/
theorem undefinedUse?_eq_none_iff : undefinedUse? lines = none ↔ UsesAssigned lines.reverse := by
  have htake := usesAssigned_take (Nat.le_refl lines.length)
  rw [List.take_length] at htake
  rw [htake, undefinedUse?, List.find?_eq_none]
  simp only [List.mem_range, Bool.and_eq_true, Bool.not_eq_true', not_and, Bool.not_eq_false]

end RepoAudit.Python
