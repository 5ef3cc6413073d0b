import Mathlib.Order.Monotone.Basic
import RepoAudit.Proofs.Python.Scope
import RepoAudit.Proofs.Text.Lines
import RepoAudit.Remedy.Prompt

/-!
# Prompts that are accepted after they were sanitized

A text whose prompts were sanitized is accepted exactly when each of its raw prompts finds a
preamble at or above its line whose own lines stand in the scope of the prompt. A preamble misses
that scope when the search for the end of a signature is misled, for instance by a string that
holds a comment sign.

## Main definitions

- `scopeAmong` — the scope of a line among lines between which preambles go
- `Covered` — a prompt finds a preamble in its own scope

## Main statements

- `switchName_of_isRawPrompt` — what switching the name does to a prompt
- `splitLines_transform` — the lines of a changed text
- `passed_iff_covered` — when the remedy meets its own check
-/

namespace RepoAudit.Remedy.Prompt

open RepoAudit.Text RepoAudit.Python

/-! ### Switching the name -/

section Switch

variable {line : Line}

/-- A line that starts with a name is no comment and opens no function. -/
theorem isTransparent_of_head? {c : Char} (h : (trimStart line).head? = some c)
    (hc : c ∉ ['#', ')', ']', '}']) : isTransparent line = false := by
  rw [isTransparent, h]
  simpa [and_assoc] using hc

theorem isDef_of_head? {c : Char} (h : (trimStart line).head? = some c) (ha : c ≠ 'a')
    (hd : c ≠ 'd') : isDef line = false := by
  have hafter : ∀ (first : Char) (rest : List Char), c ≠ first →
      afterKeyword? (first :: rest) (trimStart line) = none := by
    intro first rest hne
    rw [afterKeyword?, Option.bind_eq_none_iff]
    intro tail htail
    rw [after?_eq_some.mp htail] at h
    exact absurd (Option.some.inj h).symm hne
  have hasync : afterKeyword? "async".toList (trimStart line) = none := hafter _ _ ha
  have hdef : afterKeyword? "def".toList (trimStart line) = none := hafter _ _ hd
  rw [isDef, hasync, Option.getD_none, hdef]

theorem switchName_eq_self (h : isRawPrompt line = false) : switchName line = line := by
  rw [switchName, if_neg (Bool.eq_false_iff.mp h)]

/-- In a raw prompt only what it assigns is changed: the sanitized name stands there, and the raw
one does not. -/
theorem switchName_of_isRawPrompt (h : isRawPrompt line = true) : ∃ gap value value',
    (∀ c ∈ gap, isBlank c = true) ∧
      line = indent line ++ ("prompt".toList ++ (gap ++ '=' :: value)) ∧
      switchName line = indent line ++ ("prompt".toList ++ (gap ++ '=' :: value')) ∧
      Occurs (wholeWord sanitizedName) none value' ∧ ¬ Occurs (wholeWord rawName) none value' := by
  have hraw := h
  rw [isRawPrompt] at h
  cases hassigned : assigned? "prompt".toList line with
  | none =>
    rw [hassigned] at h
    cases h
  | some value =>
    rw [hassigned] at h
    obtain ⟨gap, hgap, htrim⟩ := assigned?_eq_some_iff.mp hassigned
    have hline : line = indent line ++ ("prompt".toList ++ (gap ++ '=' :: value)) := by
      rw [← htrim, indent_append_trimStart]
    have hsplit : line = indent line ++ ("prompt".toList ++ (gap ++ ['='])) ++ value := by
      simpa only [List.append_assoc, List.singleton_append] using hline
    have hlast : continuesWord
        (lastAfter none (indent line ++ ("prompt".toList ++ (gap ++ ['='])))) = false := by
      rw [lastAfter_append, lastAfter_append, lastAfter_append]
      rfl
    have hlead : 'u' ∉ indent line ++ ("prompt".toList ++ (gap ++ ['='])) := by
      intro hu
      simp only [List.mem_append] at hu
      rcases hu with hu | hu | hu | hu
      · exact absurd (isBlank_of_mem_indent hu) (by decide)
      · exact absurd hu (by decide)
      · exact absurd (hgap _ hu) (by decide)
      · exact absurd hu (by decide)
    have hhead : rawName.head? = some 'u' := rfl
    obtain ⟨qs, hqs, himage⟩ := exists_cut_append hhead hlead (fun _ => sanitizedName) value
    rw [← hsplit] at himage
    refine ⟨gap, value, imageOf (fun _ => sanitizedName) qs, hgap, hline, ?_, ?_, ?_⟩
    · rw [switchName, if_pos hraw, himage]
      simp only [List.append_assoc, List.singleton_append]
    · have hword : ∀ c ∈ rawName.head?, isWord c = true := by
        rw [hhead]
        rintro _ ⟨⟩
        rfl
      exact hqs.occurs_substitute hword (by decide) hlast.symm (occurs_rawName h _)
    · exact hqs.not_occurs_needle (List.all_eq_true.mp rfl) (List.all_eq_true.mp rfl) (by decide)
        (by decide) (by decide) hlast.symm

/-- Switching the name leaves the indentation of a line, and what it starts with. -/
theorem indent_switchName_and_head? (h : isRawPrompt line = true) :
    indent (switchName line) = indent line ∧ (trimStart line).head? = some 'p' ∧
      (trimStart (switchName line)).head? = some 'p' := by
  obtain ⟨gap, value, value', -, hline, hswitch, -, -⟩ := switchName_of_isRawPrompt h
  have hblank : ∀ c ∈ indent line, isBlank c = true := fun c => isBlank_of_mem_indent
  refine ⟨?_, ?_, ?_⟩
  · rw [hswitch, indent_append hblank]
    exact List.append_nil _
  · rw [hline, trimStart_append hblank]
    rfl
  · rw [hswitch, trimStart_append hblank]
    rfl

@[simp] theorem indentWidth_switchName : indentWidth (switchName line) = indentWidth line := by
  by_cases h : isRawPrompt line = true
  · rw [indentWidth, (indent_switchName_and_head? h).1, indentWidth]
  · rw [switchName_eq_self (Bool.eq_false_iff.mpr h)]

@[simp] theorem isTransparent_switchName :
    isTransparent (switchName line) = isTransparent line := by
  by_cases h : isRawPrompt line = true
  · obtain ⟨-, hhead, hhead'⟩ := indent_switchName_and_head? h
    rw [isTransparent_of_head? hhead (by decide), isTransparent_of_head? hhead' (by decide)]
  · rw [switchName_eq_self (Bool.eq_false_iff.mpr h)]

@[simp] theorem isDef_switchName : isDef (switchName line) = isDef line := by
  by_cases h : isRawPrompt line = true
  · obtain ⟨-, hhead, hhead'⟩ := indent_switchName_and_head? h
    rw [isDef_of_head? hhead (by decide) (by decide), isDef_of_head? hhead' (by decide) (by decide)]
  · rw [switchName_eq_self (Bool.eq_false_iff.mpr h)]

/-- No raw prompt is left in a line. -/
@[simp] theorem isRawPrompt_switchName : isRawPrompt (switchName line) = false := by
  by_cases h : isRawPrompt line = true
  · obtain ⟨gap, value, value', hgap, -, hswitch, -, hnone⟩ := switchName_of_isRawPrompt h
    have hassigned : assigned? "prompt".toList (switchName line) = some value' := by
      rw [hswitch, assigned?_append fun c => isBlank_of_mem_indent, assigned?_eq_some_iff]
      exact ⟨gap, hgap, rfl⟩
    rw [isRawPrompt, hassigned, Bool.eq_false_iff]
    exact fun hraw => hnone (occurs_rawName hraw none)
  · rw [switchName_eq_self (Bool.eq_false_iff.mpr h), Bool.eq_false_iff.mpr h]

/-- The prompts that use the sanitized input are the ones that used the raw one. -/
theorem isSanitizedPrompt_switchName (hname : ¬ sanitizedName <:+: line) :
    isSanitizedPrompt (switchName line) = isRawPrompt line := by
  by_cases h : isRawPrompt line = true
  · obtain ⟨gap, value, value', hgap, -, hswitch, hoccurs, -⟩ := switchName_of_isRawPrompt h
    have hassigned : assigned? "prompt".toList (switchName line) = some value' := by
      rw [hswitch, assigned?_append fun c => isBlank_of_mem_indent, assigned?_eq_some_iff]
      exact ⟨gap, hgap, rfl⟩
    rw [h, isSanitizedPrompt, hassigned]
    exact matchesAnywhere_iff.mpr hoccurs
  · rw [Bool.eq_false_iff.mpr h, switchName_eq_self (Bool.eq_false_iff.mpr h),
      isSanitizedPrompt_eq_false hname]

theorem definesSanitized_switchName (hname : ¬ sanitizedName <:+: line) :
    definesSanitized (switchName line) = false := by
  by_cases h : isRawPrompt line = true
  · obtain ⟨-, -, hhead⟩ := indent_switchName_and_head? h
    rw [definesSanitized]
    cases hassigned : assigned? sanitizedName (switchName line) with
    | none => rfl
    | some value =>
      obtain ⟨gap, -, htrim⟩ := assigned?_eq_some_iff.mp hassigned
      rw [htrim] at hhead
      have hfirst : some 's' = some 'p' := hhead
      exact absurd hfirst (by decide)
  · rw [switchName_eq_self (Bool.eq_false_iff.mpr h), definesSanitized_eq_false hname]

theorem switchName_ne_nil (h : line ≠ []) : switchName line ≠ [] := by
  by_cases hraw : isRawPrompt line = true
  · obtain ⟨-, -, hhead⟩ := indent_switchName_and_head? hraw
    intro hnil
    rw [hnil] at hhead
    cases hhead
  · rwa [switchName_eq_self (Bool.eq_false_iff.mpr hraw)]

theorem mem_of_mem_switchName {c : Char} (h : c ∈ switchName line) :
    c ∈ line ∨ c ∈ sanitizedName := by
  rw [switchName] at h
  split at h
  · exact (mem_replaceMatches (wholeWord_fits (by decide)) h).imp_right fun ⟨_, hc⟩ => hc
  · exact .inl h

end Switch

/-! ### The preamble -/

/-- A line that only says something inside a body: it has a scope like any other line, and neither
builds a prompt nor opens a function. -/
structure IsStatement (line : Line) : Prop where
  isTransparent : isTransparent line = false
  isDef : isDef line = false
  isRawPrompt : isRawPrompt line = false
  isSanitizedPrompt : isSanitizedPrompt line = false

/-- The statement that makes the substitution available. -/
def importStatement : Line := "import re".toList

/-- The statement that assigns the sanitized input. -/
def assignStatement : Line :=
  sanitizedName ++ " = re.sub(r\"[\\x00-\\x1f\\x7f;]\", \"\", str(user_input))".toList

/-- The statement that looks for dangerous words. -/
def checkStatement : Line :=
  "if any(keyword in ".toList ++ sanitizedName ++
    ".lower() for keyword in (\"ignore\", \"system\")):".toList

/-- What the guard is indented by below the line that looks for dangerous words. -/
def guardIndent (indentation : List Char) : List Char :=
  if indentation.contains '\t' then ['\t'] else [' ', ' ', ' ', ' ']

theorem preamble_eq (indentation : List Char) : preamble indentation =
    [indentation ++ importStatement, indentation ++ assignStatement,
      indentation ++ checkStatement, indentation ++ guardIndent indentation ++ guardRaise] := by
  unfold preamble importStatement assignStatement checkStatement guardIndent
  generalize "import re".toList = a
  generalize " = re.sub(r\"[\\x00-\\x1f\\x7f;]\", \"\", str(user_input))".toList = b
  generalize "if any(keyword in ".toList = c
  generalize ".lower() for keyword in (\"ignore\", \"system\")):".toList = d
  simp only [List.append_assoc]

theorem isBlank_of_mem_guardIndent {indentation : List Char} {c : Char}
    (h : c ∈ guardIndent indentation) : isBlank c = true := by
  have hall : ∀ c ∈ ['\t', ' '], isBlank c = true := List.all_eq_true.mp rfl
  apply hall
  rw [guardIndent] at h
  split at h <;> simp_all

theorem IsStatement.append {lead : List Char} {line : Line} (h : IsStatement line)
    (hlead : ∀ c ∈ lead, isBlank c = true) : IsStatement (lead ++ line) where
  isTransparent := by rw [isTransparent_append hlead, h.isTransparent]
  isDef := by rw [isDef_append hlead, h.isDef]
  isRawPrompt := by rw [isRawPrompt_append hlead, h.isRawPrompt]
  isSanitizedPrompt := by rw [isSanitizedPrompt_append hlead, h.isSanitizedPrompt]

/-- A search for a scope that passes a statement goes on below its indentation. -/
theorem IsStatement.scopeAbove {line : Line} (h : IsStatement line) (bound : Nat)
    (above : List Line) : scopeAbove bound (line :: above) =
      scopeAbove (min bound (indentWidth line)) above := by
  rw [Python.scopeAbove, h.isTransparent, h.isDef]
  by_cases hbound : bound ≤ indentWidth line
  · simp [hbound]
  · by_cases hzero : indentWidth line = 0
    · have hne : bound ≠ 0 := by omega
      simp [hzero, hne]
    · simp [hbound, hzero, Nat.min_eq_right (Nat.le_of_not_le hbound)]

theorem isStatement_of_mem : ∀ line ∈ [importStatement, assignStatement, checkStatement, guardRaise],
    IsStatement line := by
  rw [List.forall_mem_cons, List.forall_mem_cons, List.forall_mem_cons, List.forall_mem_singleton]
  refine ⟨?_, ?_, ?_, ?_⟩ <;> constructor <;> decide +kernel

theorem isStatement_importStatement : IsStatement importStatement :=
  isStatement_of_mem _ (by simp)

theorem isStatement_assignStatement : IsStatement assignStatement :=
  isStatement_of_mem _ (by simp)

theorem isStatement_checkStatement : IsStatement checkStatement :=
  isStatement_of_mem _ (by simp)

theorem isStatement_guardRaise : IsStatement guardRaise :=
  isStatement_of_mem _ (by simp)

/-- Of the statements of a preamble the second one alone assigns the sanitized input. -/
theorem definesSanitized_statements : definesSanitized importStatement = false ∧
    definesSanitized assignStatement = true ∧ definesSanitized checkStatement = false ∧
      definesSanitized guardRaise = false := by
  refine ⟨?_, ?_, ?_, ?_⟩ <;> decide +kernel

section Preamble

variable {indentation : List Char} (h : ∀ c ∈ indentation, isBlank c = true)

include h

theorem isBlank_of_mem_guard {c : Char} (hc : c ∈ indentation ++ guardIndent indentation) :
    isBlank c = true := by
  rcases List.mem_append.mp hc with hc | hc
  · exact h c hc
  · exact isBlank_of_mem_guardIndent hc

theorem isRawPrompt_of_mem_preamble {line : Line} (hline : line ∈ preamble indentation) :
    isRawPrompt line = false := by
  rw [preamble_eq] at hline
  simp only [List.mem_cons, List.not_mem_nil, or_false] at hline
  rcases hline with rfl | rfl | rfl | rfl
  · exact (isStatement_importStatement.append h).isRawPrompt
  · exact (isStatement_assignStatement.append h).isRawPrompt
  · exact (isStatement_checkStatement.append h).isRawPrompt
  · exact (isStatement_guardRaise.append fun c => isBlank_of_mem_guard h).isRawPrompt

theorem indentWidth_statement {line : Line} (hline : indentWidth line = 0) :
    indentWidth (indentation ++ line) = byteLength indentation := by
  rw [indentWidth_append h, hline, Nat.add_zero]

/-- A search for a scope that passes a preamble goes on below the indentation of it. -/
theorem scopeAbove_preamble (bound : Nat) (above : List Line) :
    scopeAbove bound ((preamble indentation).reverse ++ above) =
      scopeAbove (min bound (byteLength indentation)) above := by
  have hguard : ∀ c ∈ indentation ++ guardIndent indentation, isBlank c = true :=
    fun c => isBlank_of_mem_guard h
  have hwidth : indentWidth (indentation ++ guardIndent indentation ++ guardRaise) =
      byteLength indentation + byteLength (guardIndent indentation) := by
    rw [indentWidth_statement hguard rfl, byteLength_append]
  rw [preamble_eq]
  change scopeAbove bound (_ :: _ :: _ :: _ :: above) = _
  rw [(isStatement_guardRaise.append hguard).scopeAbove,
    (isStatement_checkStatement.append h).scopeAbove,
    (isStatement_assignStatement.append h).scopeAbove,
    (isStatement_importStatement.append h).scopeAbove, hwidth,
    indentWidth_statement h rfl, indentWidth_statement h rfl, indentWidth_statement h rfl]
  congr 1
  omega

/-- A preamble assigns the sanitized input in the scope of its own lines. -/
theorem assignedAbove_preamble (scope : Option Nat) (above : List Line) :
    AssignedAbove scope ((preamble indentation).reverse ++ above) ↔
      scopeAbove (byteLength indentation) above = scope ∨ AssignedAbove scope above := by
  have hguard : ∀ c ∈ indentation ++ guardIndent indentation, isBlank c = true :=
    fun c => isBlank_of_mem_guard h
  obtain ⟨himport, hassign, hcheck, hraise⟩ := definesSanitized_statements
  rw [preamble_eq]
  change AssignedAbove scope (_ :: _ :: _ :: _ :: above) ↔ _
  simp only [AssignedAbove, definesSanitized_append h, definesSanitized_append hguard, himport,
    hassign, hcheck, hraise, Bool.false_eq_true, false_and, false_or, true_and]
  rw [(isStatement_importStatement.append h).scopeAbove, indentWidth_statement h rfl,
    indentWidth_statement h rfl, Nat.min_self]

/-- A preamble uses no sanitized input in a prompt. -/
theorem usesAssigned_preamble (above : List Line) :
    UsesAssigned ((preamble indentation).reverse ++ above) ↔ UsesAssigned above := by
  have hguard : ∀ c ∈ indentation ++ guardIndent indentation, isBlank c = true :=
    fun c => isBlank_of_mem_guard h
  rw [preamble_eq]
  change UsesAssigned (_ :: _ :: _ :: _ :: above) ↔ _
  simp only [UsesAssigned, (isStatement_importStatement.append h).isSanitizedPrompt,
    (isStatement_assignStatement.append h).isSanitizedPrompt,
    (isStatement_checkStatement.append h).isSanitizedPrompt,
    (isStatement_guardRaise.append hguard).isSanitizedPrompt, Bool.false_eq_true,
    false_implies, true_and]

end Preamble

/-! ### Lines among inserted preambles -/

/-- The indentation of the preamble that goes above a line, if one does. -/
def indentationAt? (sites : List (Nat × List Char)) (index : Nat) : Option (List Char) :=
  (sites.find? fun site => site.1 == index).map (·.2)

/-- The bound of a search for a scope after the preamble that goes above a line: a preamble lowers
it to its own indentation. -/
def boundAbove (sites : List (Nat × List Char)) (index bound : Nat) : Nat :=
  match indentationAt? sites index with
  | some indentation => min bound (byteLength indentation)
  | none => bound

/-- The line that opens the function found above a line, in lines among which preambles go. -/
def scopeAmong (sites : List (Nat × List Char)) (lines : List Line) :
    (index bound : Nat) → Option Nat
  | 0, _ => none
  | index + 1, bound =>
    let line := lines.getD index []
    if isTransparent line || bound ≤ indentWidth line then
      scopeAmong sites lines index (boundAbove sites index bound)
    else if isDef line then some index
    else if indentWidth line = 0 then none
    else scopeAmong sites lines index (boundAbove sites index (indentWidth line))

/-- A prompt finds a preamble at or above its line whose own lines have the scope of the prompt,
both scopes being those of the lines with their preambles. -/
def Covered (lines : List Line) (index : Nat) : Prop :=
  ∃ place ≤ index, ∃ indentation,
    indentationAt? (preambleSites lines) place = some indentation ∧
      scopeAmong (preambleSites lines) lines place (byteLength indentation) =
        scopeAmong (preambleSites lines) lines index
          (boundAbove (preambleSites lines) index (indentWidth (lines.getD index [])))

/-- The preamble that goes above a line. -/
def preambleAt (sites : List (Nat × List Char)) (index : Nat) : List Line :=
  match indentationAt? sites index with
  | some indentation => preamble indentation
  | none => []

/-- The lines of the changed text above a line and its preamble, nearest first. -/
def linesAbove (sites : List (Nat × List Char)) (lines : List Line) : (index : Nat) → List Line
  | 0 => []
  | index + 1 =>
    switchName (lines.getD index []) ::
      ((preambleAt sites index).reverse ++ linesAbove sites lines index)

/-- The number of a line in the changed text. -/
def placeOf (sites : List (Nat × List Char)) (lines : List Line) (index : Nat) : Nat :=
  ((preambleAt sites index).reverse ++ linesAbove sites lines index).length

section Insert

variable {sites : List (Nat × List Char)} {lines : List Line}

theorem insertPreambles_cons (index : Nat) (line : Line) (rest : List Line) :
    insertPreambles sites index (line :: rest) =
      preambleAt sites index ++ switchName line :: insertPreambles sites (index + 1) rest := by
  rw [insertPreambles, preambleAt, indentationAt?]
  cases sites.find? fun site => site.1 == index <;> rfl

/-- The changed lines from one line on stand below those above it. -/
theorem reverse_insertPreambles (index : Nat) :
    (insertPreambles sites index (lines.drop index)).reverse ++ linesAbove sites lines index =
      linesAbove sites lines (max index lines.length) := by
  induction h : lines.length - index generalizing index with
  | zero =>
    rw [List.drop_eq_nil_of_le (by omega), Nat.max_eq_left (by omega)]
    rfl
  | succ n ih =>
    have hlt : index < lines.length := by omega
    have hnext := ih (index + 1) (by omega)
    rw [Nat.max_eq_right (by omega)] at hnext
    rw [List.drop_eq_getElem_cons hlt, insertPreambles_cons, Nat.max_eq_right (by omega), ← hnext,
      linesAbove, List.getD_eq_getElem _ _ hlt]
    simp

theorem reverse_insertPreambles_zero :
    (insertPreambles sites 0 lines).reverse = linesAbove sites lines lines.length := by
  simpa [linesAbove] using reverse_insertPreambles 0

theorem placeOf_strictMono : StrictMono (placeOf sites lines) := by
  refine strictMono_nat_of_lt_succ fun index => ?_
  rw [placeOf, placeOf, linesAbove]
  simp only [List.length_append, List.length_cons]
  omega

variable (hblank : ∀ index indentation, indentationAt? sites index = some indentation →
  ∀ c ∈ indentation, isBlank c = true)

include hblank

theorem scopeAbove_preambleAt (index bound : Nat) (above : List Line) :
    scopeAbove bound ((preambleAt sites index).reverse ++ above) =
      scopeAbove (boundAbove sites index bound) above := by
  rw [preambleAt, boundAbove]
  cases h : indentationAt? sites index with
  | none => rfl
  | some indentation => exact scopeAbove_preamble (hblank index indentation h) bound above

/-- The scopes of the changed text are told by its original lines and where preambles go. -/
theorem scopeAbove_linesAbove (index bound : Nat) :
    scopeAbove bound (linesAbove sites lines index) =
      (scopeAmong sites lines index bound).map (placeOf sites lines) := by
  induction index generalizing bound with
  | zero => rfl
  | succ index ih =>
    rw [linesAbove, scopeAbove, scopeAmong, isTransparent_switchName, isDef_switchName,
      indentWidth_switchName]
    simp only [scopeAbove_preambleAt hblank, ih]
    split
    · rfl
    · split
      · rfl
      · split <;> rfl

/-- A preamble that goes above a line assigns the sanitized input in the scope of its own lines. -/
theorem assignedAbove_preambleAt (scope : Option Nat) (index : Nat) (above : List Line) :
    AssignedAbove scope ((preambleAt sites index).reverse ++ above) ↔
      (∃ indentation, indentationAt? sites index = some indentation ∧
        scopeAbove (byteLength indentation) above = scope) ∨ AssignedAbove scope above := by
  rw [preambleAt]
  cases h : indentationAt? sites index with
  | none => simp
  | some indentation => simp [assignedAbove_preamble (hblank index indentation h)]

theorem usesAssigned_preambleAt (index : Nat) (above : List Line) :
    UsesAssigned ((preambleAt sites index).reverse ++ above) ↔ UsesAssigned above := by
  rw [preambleAt]
  cases h : indentationAt? sites index with
  | none => rfl
  | some indentation => exact usesAssigned_preamble (hblank index indentation h) above

/-- No line of a preamble is a raw prompt. -/
theorem isRawPrompt_of_mem_insertPreambles {line : Line} {index : Nat} {rest : List Line}
    (h : line ∈ insertPreambles sites index rest) : isRawPrompt line = false := by
  induction rest generalizing index with
  | nil => cases h
  | cons first rest ih =>
    rw [insertPreambles_cons, List.mem_append, List.mem_cons] at h
    rcases h with h | rfl | h
    · rw [preambleAt] at h
      cases hindentation : indentationAt? sites index with
      | none =>
        rw [hindentation] at h
        cases h
      | some indentation =>
        rw [hindentation] at h
        exact isRawPrompt_of_mem_preamble (hblank index indentation hindentation) h
    · exact isRawPrompt_switchName
    · exact ih h

variable (hname : ∀ index, ¬ sanitizedName <:+: lines.getD index [])

include hname

/-- In the changed text the sanitized input is assigned by preambles alone. -/
theorem assignedAbove_linesAbove (scope : Option Nat) (index : Nat) :
    AssignedAbove scope ((preambleAt sites index).reverse ++ linesAbove sites lines index) ↔
      ∃ place ≤ index, ∃ indentation, indentationAt? sites place = some indentation ∧
        scopeAbove (byteLength indentation) (linesAbove sites lines place) = scope := by
  induction index with
  | zero =>
    rw [assignedAbove_preambleAt hblank]
    simp [linesAbove, AssignedAbove]
  | succ index ih =>
    rw [assignedAbove_preambleAt hblank]
    have hline : AssignedAbove scope (linesAbove sites lines (index + 1)) ↔
        AssignedAbove scope ((preambleAt sites index).reverse ++ linesAbove sites lines index) := by
      rw [linesAbove, AssignedAbove, definesSanitized_switchName (hname index)]
      simp
    rw [hline, ih]
    constructor
    · rintro (h | ⟨place, hle, h⟩)
      · exact ⟨index + 1, Nat.le_refl _, h⟩
      · exact ⟨place, by omega, h⟩
    · rintro ⟨place, hle, h⟩
      rcases Nat.le_succ_iff.mp hle with hle | rfl
      · exact .inr ⟨place, hle, h⟩
      · exact .inl h

/-- The prompts of the changed text are the raw prompts of the original one. -/
theorem usesAssigned_linesAbove (count : Nat) :
    UsesAssigned (linesAbove sites lines count) ↔
      ∀ index < count, isRawPrompt (lines.getD index []) = true →
        AssignedAbove
          (scopeAbove (boundAbove sites index (indentWidth (lines.getD index [])))
            (linesAbove sites lines index))
          ((preambleAt sites index).reverse ++ linesAbove sites lines index) := by
  induction count with
  | zero => simp [linesAbove, UsesAssigned]
  | succ count ih =>
    rw [linesAbove, UsesAssigned, isSanitizedPrompt_switchName (hname count),
      indentWidth_switchName, scopeAbove_preambleAt hblank, usesAssigned_preambleAt hblank, ih,
      Nat.forall_lt_succ_right, and_comm]

end Insert

/-! ### The acceptance check -/

/-- A preamble is indented like some line. -/
theorem exists_indentationAt?_eq {lines : List Line} {index : Nat} {indentation : List Char}
    (h : indentationAt? (preambleSites lines) index = some indentation) :
    ∃ i, indentation = indent (lines.getD i []) := by
  have hsite : ∀ prompt, ∃ i, (preambleSite lines prompt).2 = indent (lines.getD i []) := by
    intro prompt
    rw [preambleSite]
    dsimp only
    split
    · exact ⟨_, rfl⟩
    · split
      · exact ⟨_, rfl⟩
      · split <;> exact ⟨_, rfl⟩
  obtain ⟨site, hfind, rfl⟩ := Option.map_eq_some_iff.mp h
  obtain ⟨prompt, -, rfl⟩ := List.mem_map.mp (List.mem_of_find?_eq_some hfind)
  exact hsite prompt

theorem isBlank_of_indentationAt? {lines : List Line} {index : Nat} {indentation : List Char}
    (h : indentationAt? (preambleSites lines) index = some indentation) :
    ∀ c ∈ indentation, isBlank c = true := by
  obtain ⟨i, rfl⟩ := exists_indentationAt?_eq h
  exact fun c => isBlank_of_mem_indent

theorem isBlank_of_preambleSites (lines : List Line) : ∀ index indentation,
    indentationAt? (preambleSites lines) index = some indentation →
      ∀ c ∈ indentation, isBlank c = true :=
  fun _ _ => isBlank_of_indentationAt?

/-- The prompts of a changed text have the sanitized input assigned exactly when they are
covered. -/
theorem usesAssigned_iff_covered {lines : List Line}
    (hname : ∀ index, ¬ sanitizedName <:+: lines.getD index []) :
    UsesAssigned (insertPreambles (preambleSites lines) 0 lines).reverse ↔
      ∀ index ∈ promptLines lines, Covered lines index := by
  have hblank := isBlank_of_preambleSites lines
  have hplace : Function.Injective
      (Option.map (placeOf (preambleSites lines) lines)) :=
    Option.map_injective placeOf_strictMono.injective
  rw [reverse_insertPreambles_zero, usesAssigned_linesAbove hblank hname]
  simp only [promptLines, List.mem_filter, List.mem_range, and_imp]
  refine forall_congr' fun index => forall_congr' fun _ => forall_congr' fun _ => ?_
  rw [assignedAbove_linesAbove hblank hname]
  simp only [scopeAbove_linesAbove hblank, hplace.eq_iff]
  rfl

theorem isInfix_joinLines {lines : List Line} {line : Line} (h : line ∈ lines)
    (terminated : Bool) : line <:+: joinLines lines terminated := by
  obtain ⟨before, after, rfl⟩ := List.append_of_mem h
  obtain ⟨rest, hrest⟩ := exists_joinLines_cons line after terminated
  rw [joinLines_append before (List.cons_ne_nil line after), hrest]
  exact ⟨_, rest, (List.append_assoc _ _ _)⟩

theorem verify_eq_passed_iff {content : List Char} : verify content = .passed ↔
    sanitizedName <:+: content ∧ guardRaise <:+: content ∧
      (∀ line ∈ (splitLines content).1, isRawPrompt line = false) ∧
      UsesAssigned (splitLines content).1.reverse := by
  have hraw : (∀ line ∈ (splitLines content).1, isRawPrompt line = false) ↔
      firstPromptLine? (splitLines content).1 = none := by
    rw [firstPromptLine?, List.findIdx?_eq_none_iff]
  rw [← contains_iff, ← contains_iff, ← undefinedUse?_eq_none_iff, hraw, verify]
  dsimp only
  cases contains content sanitizedName
  · simp
  cases contains content guardRaise
  · simp
  cases firstPromptLine? (splitLines content).1 with
  | some index => simp
  | none => cases undefinedUse? (splitLines content).1 <;> simp

/-! ### The lines of the changed text -/

section Lines

variable {sites : List (Nat × List Char)} {lines : List Line}

theorem mem_insertPreambles_of_mem {line : Line} {index : Nat} (h : line ∈ lines) :
    switchName line ∈ insertPreambles sites index lines := by
  induction lines generalizing index with
  | nil => cases h
  | cons first rest ih =>
    rw [insertPreambles_cons, List.mem_append, List.mem_cons]
    rcases List.mem_cons.mp h with rfl | h
    · exact .inr (.inl rfl)
    · exact .inr (.inr (ih h))

theorem mem_insertPreambles_of_preambleAt {line : Line} {index place : Nat}
    (hline : line ∈ preambleAt sites place) (hle : index ≤ place)
    (hlt : place < index + lines.length) : line ∈ insertPreambles sites index lines := by
  induction lines generalizing index with
  | nil =>
    rw [List.length_nil] at hlt
    omega
  | cons first rest ih =>
    rw [insertPreambles_cons, List.mem_append, List.mem_cons]
    rcases Nat.eq_or_lt_of_le hle with rfl | hlt'
    · exact .inl hline
    · rw [List.length_cons] at hlt
      exact .inr (.inr (ih hlt' (by omega)))

theorem getLast?_insertPreambles (index : Nat) :
    (insertPreambles sites index lines).getLast? = lines.getLast?.map switchName := by
  induction lines generalizing index with
  | nil => rfl
  | cons first rest ih =>
    rw [insertPreambles_cons, List.getLast?_append, List.getLast?_cons, List.getLast?_cons, ih]
    cases rest.getLast? <;> rfl

theorem notMem_preamble {indentation : List Char} (h : '\n' ∉ indentation) {line : Line}
    (hline : line ∈ preamble indentation) : '\n' ∉ line := by
  have himport : '\n' ∉ importStatement := by decide
  have hassign : '\n' ∉ assignStatement := by decide +kernel
  have hcheck : '\n' ∉ checkStatement := by decide +kernel
  have hraise : '\n' ∉ guardRaise := by decide +kernel
  have hguard : '\n' ∉ guardIndent indentation := by
    rw [guardIndent]
    split <;> decide
  rw [preamble_eq] at hline
  simp only [List.mem_cons, List.not_mem_nil, or_false] at hline
  rcases hline with rfl | rfl | rfl | rfl <;> simp [*]

theorem notMem_insertPreambles {index : Nat}
    (hlines : ∀ line ∈ lines, '\n' ∉ line)
    (hsites : ∀ place indentation, indentationAt? sites place = some indentation →
      '\n' ∉ indentation) :
    ∀ line ∈ insertPreambles sites index lines, '\n' ∉ line := by
  induction lines generalizing index with
  | nil => simp [insertPreambles]
  | cons first rest ih =>
    obtain ⟨hfirst, hrest⟩ := List.forall_mem_cons.mp hlines
    rw [insertPreambles_cons, List.forall_mem_append, List.forall_mem_cons]
    refine ⟨fun line hline => ?_, fun hmem => ?_, ih hrest⟩
    · rw [preambleAt] at hline
      cases hindentation : indentationAt? sites index with
      | none =>
        rw [hindentation] at hline
        cases hline
      | some indentation =>
        rw [hindentation] at hline
        exact notMem_preamble (hsites index indentation hindentation) hline
    · rcases mem_of_mem_switchName hmem with hmem | hmem
      · exact hfirst hmem
      · exact absurd hmem (by decide)

end Lines

theorem getD_mem_or_eq_nil (lines : List Line) (index : Nat) :
    lines.getD index [] ∈ lines ∨ lines.getD index [] = [] := by
  by_cases h : index < lines.length
  · rw [List.getD_eq_getElem _ _ h]
    exact .inl (List.getElem_mem h)
  · exact .inr (List.getD_eq_default _ _ (by omega))

/-- A change is made of the lines with the preambles among them, for some raw prompt. -/
theorem transform_eq_some {content text : List Char} (h : transform content = some text) :
    (∃ index, index ∈ promptLines (splitLines content).1) ∧
      text = joinLines (insertPreambles (preambleSites (splitLines content).1) 0
        (splitLines content).1) (splitLines content).2 := by
  rw [transform] at h
  generalize splitLines content = split at h ⊢
  obtain ⟨lines, terminated⟩ := split
  dsimp only at h ⊢
  split at h
  · cases h
  · next hprompts =>
    rw [List.isEmpty_iff] at hprompts
    exact ⟨List.exists_mem_of_ne_nil _ hprompts, (Option.some.inj h).symm⟩

/-- A changed text is read as its lines with the preambles among them. -/
theorem splitLines_transform {content text : List Char} (h : transform content = some text) :
    splitLines text = (insertPreambles (preambleSites (splitLines content).1) 0
      (splitLines content).1, (splitLines content).2) := by
  obtain ⟨⟨index, hindex⟩, rfl⟩ := transform_eq_some h
  have hnewline : ∀ line ∈ (splitLines content).1, '\n' ∉ line :=
    fun line => notMem_of_mem_splitLines
  have hlast : (splitLines content).2 = false → (splitLines content).1.getLast? ≠ some [] := by
    refine getLast?_splitLines ?_
    rintro rfl
    cases h
  generalize splitLines content = split at hindex hnewline hlast ⊢
  obtain ⟨lines, terminated⟩ := split
  dsimp only at hindex hnewline hlast ⊢
  refine splitLines_joinLines ?_ (notMem_insertPreambles hnewline ?_) ?_
  · cases lines with
    | nil => cases hindex
    | cons first rest =>
      rw [insertPreambles_cons]
      simp
  · intro place indentation hindentation hmem
    obtain ⟨i, rfl⟩ := exists_indentationAt?_eq hindentation
    rcases getD_mem_or_eq_nil lines i with hline | hnil
    · exact hnewline _ hline ((List.takeWhile_prefix _).subset hmem)
    · rw [hnil] at hmem
      cases hmem
  · intro hterminated hempty
    rw [getLast?_insertPreambles, Option.map_eq_some_iff] at hempty
    obtain ⟨line, hline, hnil⟩ := hempty
    have hne : line ≠ [] := by
      rintro rfl
      exact hlast hterminated hline
    exact switchName_ne_nil hne hnil

/-- The sanitized prompts of a text are accepted exactly when each of its raw prompts finds a
preamble in its own scope. -/
theorem passed_iff_covered {content text : List Char}
    (hname : contains content sanitizedName = false) (h : transform content = some text) :
    verify text = .passed ↔
      ∀ index ∈ promptLines (splitLines content).1, Covered (splitLines content).1 index := by
  have hsplit := splitLines_transform h
  have hlines : ∀ index, ¬ sanitizedName <:+: (splitLines content).1.getD index [] := by
    intro index hstretch
    rcases getD_mem_or_eq_nil (splitLines content).1 index with hmem | hnil
    · have hline := isInfix_joinLines hmem (splitLines content).2
      rw [joinLines_splitLines] at hline
      rw [contains_iff.mpr (hstretch.trans hline)] at hname
      cases hname
    · rw [hnil] at hstretch
      exact absurd hstretch (by decide)
  have htext : ∀ line ∈ insertPreambles (preambleSites (splitLines content).1) 0
      (splitLines content).1, line <:+: text := by
    intro line hline
    rw [(transform_eq_some h).2]
    exact isInfix_joinLines hline (splitLines content).2
  have huses := usesAssigned_iff_covered hlines
  rw [verify_eq_passed_iff, hsplit]
  constructor
  · rintro ⟨-, -, -, hassigned⟩
    exact huses.mp hassigned
  · intro hcovered
    obtain ⟨⟨index, hindex⟩, -⟩ := transform_eq_some h
    obtain ⟨place, hplace, indentation, hindentation, -⟩ := hcovered index hindex
    rw [promptLines, List.mem_filter, List.mem_range] at hindex
    obtain ⟨hlt, hraw⟩ := hindex
    refine ⟨?_, ?_, ?_, huses.mpr hcovered⟩
    · -- The switched prompt uses the sanitized name.
      refine List.IsInfix.trans ?_ (htext _ (mem_insertPreambles_of_mem (List.getElem_mem hlt)))
      rw [List.getD_eq_getElem _ _ hlt] at hraw
      by_contra hstretch
      have hsanitized := isSanitizedPrompt_eq_false hstretch
      rw [isSanitizedPrompt_switchName fun hline => hlines index
        (by rwa [List.getD_eq_getElem _ _ hlt]), hraw] at hsanitized
      cases hsanitized
    · -- The preamble that covers the prompt ends with the guard.
      have hlast : indentation ++ guardIndent indentation ++ guardRaise ∈
          preambleAt (preambleSites (splitLines content).1) place := by
        rw [preambleAt, hindentation]
        simp [preamble_eq]
      refine List.IsInfix.trans ?_
        (htext _ (mem_insertPreambles_of_preambleAt hlast (Nat.zero_le _) (by omega)))
      exact (List.suffix_append _ _).isInfix
    · exact fun line => isRawPrompt_of_mem_insertPreambles fun _ _ => isBlank_of_indentationAt?

/-- Two functions, each with a prompt that uses its parameter. -/
def plainPrompts : List Char :=
  ["def ask(user_input):\n", "    prompt = \"Q: \" + user_input\n", "def sum(user_input):\n",
    "    '''Sum up.'''\n", "    prompt = f\"S: \x7buser_input\x7d\"\n"].flatMap String.toList

/-- The functions with a preamble each. -/
def plainPromptsSanitized : List Char :=
  ["def ask(user_input):\n", "    import re\n",
    "    sanitized_input = re.sub(r\"[\\x00-\\x1f\\x7f;]\", \"\", str(user_input))\n",
    "    if any(keyword in sanitized_input.lower() for keyword in (\"ignore\", \"system\")):\n",
    "        raise ValueError(\"Invalid request detected\")\n",
    "    prompt = \"Q: \" + sanitized_input\n", "def sum(user_input):\n", "    '''Sum up.'''\n",
    "    import re\n",
    "    sanitized_input = re.sub(r\"[\\x00-\\x1f\\x7f;]\", \"\", str(user_input))\n",
    "    if any(keyword in sanitized_input.lower() for keyword in (\"ignore\", \"system\")):\n",
    "        raise ValueError(\"Invalid request detected\")\n",
    "    prompt = f\"S: \x7bsanitized_input\x7d\"\n"].flatMap String.toList

theorem passed_plainPrompts :
    contains plainPrompts sanitizedName = false ∧
      transform plainPrompts = some plainPromptsSanitized ∧
      (verify plainPromptsSanitized = .passed ↔
        ∀ index ∈ promptLines (splitLines plainPrompts).1,
          Covered (splitLines plainPrompts).1 index) := by
  have hname : contains plainPrompts sanitizedName = false := by decide +kernel
  have htransform : transform plainPrompts = some plainPromptsSanitized := by decide +kernel
  exact ⟨hname, htransform, passed_iff_covered hname htransform⟩

/-- A function whose signature holds a comment sign in a string, with a function inside it. -/
def misledPrompt : List Char :=
  ["def outer(user_input, x=\"#\"):\n", "    def inner():\n", "        pass\n",
    "    prompt = \"b\" + user_input\n"].flatMap String.toList

/-- The function with the preamble of its prompt inside the inner function. -/
def misledPromptSanitized : List Char :=
  ["def outer(user_input, x=\"#\"):\n", "    def inner():\n", "        import re\n",
    "        sanitized_input = re.sub(r\"[\\x00-\\x1f\\x7f;]\", \"\", str(user_input))\n",
    "        if any(keyword in sanitized_input.lower() for keyword in (\"ignore\", \"system\")):\n",
    "            raise ValueError(\"Invalid request detected\")\n", "        pass\n",
    "    prompt = \"b\" + sanitized_input\n"].flatMap String.toList

/-- The preamble goes to the inner function, and the prompt is refused. -/
theorem refused_misledPrompt :
    contains misledPrompt sanitizedName = false ∧
      transform misledPrompt = some misledPromptSanitized ∧
      verify misledPromptSanitized =
        .failed "line 8 uses sanitized_input before it is defined" := by
  refine ⟨?_, ?_, ?_⟩
  · decide +kernel
  · decide +kernel
  · decide +kernel

end RepoAudit.Remedy.Prompt
