import RepoAudit.Proofs.Text.Blank
import RepoAudit.Proofs.Text.Lines
import RepoAudit.Proofs.Text.WholeWord
import RepoAudit.Python.Prompt

/-!
# Lines that build prompts

What a line says does not depend on its indentation, and whether it builds a prompt from raw input
not on a blank at its end either. A line that builds a prompt from raw input uses the raw name as a
whole word, and a line that assigns or uses the sanitized input mentions its name.

## Main statements

- `firstPromptLine?_rows` — the rows of a text and its lines have the same first raw prompt
- `assigned?_eq_some_iff` — the form of a line that assigns a name
- `occurs_rawName` — a raw use is a use of the raw name as a word
-/

namespace RepoAudit.Python

open RepoAudit.Text

section Indented

variable {lead : List Char} (h : ∀ c ∈ lead, isBlank c = true) (line : Line)

include h

theorem assigned?_append (name : List Char) :
    assigned? name (lead ++ line) = assigned? name line := by
  rw [assigned?, assigned?, trimStart_append h]

theorem isRawPrompt_append : isRawPrompt (lead ++ line) = isRawPrompt line := by
  rw [isRawPrompt, isRawPrompt, assigned?_append h]

theorem isSanitizedPrompt_append : isSanitizedPrompt (lead ++ line) = isSanitizedPrompt line := by
  rw [isSanitizedPrompt, isSanitizedPrompt, assigned?_append h]

theorem definesSanitized_append : definesSanitized (lead ++ line) = definesSanitized line := by
  rw [definesSanitized, definesSanitized, assigned?_append h]

theorem isDef_append : isDef (lead ++ line) = isDef line := by
  rw [isDef, isDef, trimStart_append h]

theorem isTransparent_append : isTransparent (lead ++ line) = isTransparent line := by
  rw [isTransparent, isTransparent, trimStart_append h]

theorem indentWidth_append : indentWidth (lead ++ line) = byteLength lead + indentWidth line := by
  rw [indentWidth, indent_append h, byteLength_append, indentWidth]

end Indented

theorem after?_trimStart_append_singleton {c : Char} {lead : List Char} (hblank : isBlank c = true)
    (hc : c ∉ lead) (hlead : lead ≠ []) (cs : List Char) :
    after? lead (trimStart (cs ++ [c])) = (after? lead (trimStart cs)).map (· ++ [c]) := by
  rw [trimStart_append_singleton hblank]
  split
  · next h =>
    have hnone : after? lead [] = none := by
      rw [after?, if_neg (by simpa using hlead)]
    rw [h, hnone]
    rfl
  · exact after?_append_singleton hc _

section Trailing

variable {c : Char} (hblank : isBlank c = true)

include hblank

theorem assigned?_append_singleton {name : List Char} (hname : name ≠ []) (hc : c ∉ name)
    (line : Line) :
    assigned? name (line ++ [c]) = (assigned? name line).map (· ++ [c]) := by
  have hequals : c ∉ ['='] := by
    rintro hmem
    obtain rfl := List.mem_singleton.mp hmem
    revert hblank
    decide
  rw [assigned?, assigned?, after?_trimStart_append_singleton hblank hc hname]
  cases after? name (trimStart line) with
  | none => rfl
  | some rest => exact after?_trimStart_append_singleton hblank hequals (List.cons_ne_nil _ _) rest

theorem rawUse_append_singleton (hc : c ∉ rawName) (before : Option Char) (cs : List Char) :
    rawUse before (cs ++ [c]) = rawUse before cs := by
  have hafter := after?_trimStart_append_singleton hblank hc (by decide)
  have hword : isWord c = false := isWord_of_isBlank hblank
  have hmark : c ≠ '+' ∧ c ≠ '{' ∧ c ≠ '}' := by
    refine ⟨?_, ?_, ?_⟩ <;>
    · rintro rfl
      revert hblank
      decide
  -- A blank starts no use, and one that follows a use is not looked at.
  have hadd : startsWithAddition (cs ++ [c]) = startsWithAddition cs := by
    rcases cs with _ | ⟨d, rest⟩
    · simp [startsWithAddition, hmark]
    · by_cases hd : d = '+'
      · subst hd
        simp only [List.cons_append, startsWithAddition, hafter]
        cases after? rawName (trimStart rest) with
        | none => rfl
        | some tail => cases tail <;> simp [continuesWord, hword]
      · simp [startsWithAddition, hd]
  have hbrace : startsWithInterpolation (cs ++ [c]) = startsWithInterpolation cs := by
    rcases cs with _ | ⟨d, rest⟩
    · simp [startsWithInterpolation, hmark]
    · by_cases hd : d = '{'
      · subst hd
        simp only [List.cons_append, startsWithInterpolation, hafter]
        cases after? rawName (trimStart rest) with
        | none => rfl
        | some tail =>
          simp only [Option.map_some, trimStart_append_singleton hblank]
          cases trimStart tail <;> simp
      · simp [startsWithInterpolation, hd]
  rw [rawUse, rawUse, hadd, hbrace]

/-- A blank at the end of a line makes no difference. -/
theorem isRawPrompt_append_singleton (hraw : c ∉ rawName) (hprompt : c ∉ "prompt".toList)
    (line : Line) : isRawPrompt (line ++ [c]) = isRawPrompt line := by
  rw [isRawPrompt, isRawPrompt, assigned?_append_singleton hblank (by decide) hprompt]
  cases assigned? "prompt".toList line with
  | none => rfl
  | some value =>
    rw [Option.map_some, Bool.eq_iff_iff, matchesAnywhere_iff, matchesAnywhere_iff]
    constructor
    · rintro ⟨lead, rest, hvalue, hrest, hmatch⟩
      obtain ⟨body, d, rfl⟩ := List.eq_nil_or_concat rest |>.resolve_left hrest
      rw [List.concat_eq_append] at hvalue hmatch
      rw [← List.append_assoc] at hvalue
      obtain ⟨rfl, hd⟩ := List.append_inj' hvalue rfl
      obtain rfl := List.singleton_inj.mp hd
      rw [rawUse_append_singleton hblank hraw] at hmatch
      refine ⟨lead, body, rfl, ?_, hmatch⟩
      rintro rfl
      cases hmatch
    · rintro ⟨lead, rest, rfl, hrest, hmatch⟩
      refine ⟨lead, rest ++ [c], List.append_assoc _ _ _, by simp, ?_⟩
      rwa [rawUse_append_singleton hblank hraw]

end Trailing

/-- The rows of a text and its lines have their first raw prompt at the same place. -/
theorem firstPromptLine?_rows (content : List Char) :
    firstPromptLine? (rows content) = firstPromptLine? (splitLines content).1 :=
  findIdx?_rows (isRawPrompt_append_singleton rfl (by decide) (by decide)) rfl content

variable {name value : List Char} {line : Line}

/-- A line assigns a name when the name and an equals sign follow its indentation. -/
theorem assigned?_eq_some_iff : assigned? name line = some value ↔
    ∃ gap, (∀ c ∈ gap, isBlank c = true) ∧ trimStart line = name ++ (gap ++ '=' :: value) := by
  rw [assigned?, Option.bind_eq_some_iff]
  constructor
  · rintro ⟨rest, hname, hvalue⟩
    rw [after?_eq_some] at hname hvalue
    refine ⟨indent rest, fun c => isBlank_of_mem_indent, ?_⟩
    rw [hname, ← List.singleton_append, ← hvalue, indent_append_trimStart]
  · rintro ⟨gap, hgap, hline⟩
    refine ⟨gap ++ '=' :: value, after?_eq_some.mpr hline, after?_eq_some.mpr ?_⟩
    rw [trimStart_append hgap]
    rfl

/-- A text of which no character belongs to a word ends no word. -/
theorem continuesWord_lastAfter_eq_false {before : Option Char} {cs : List Char} (hne : cs ≠ [])
    (h : ∀ c ∈ cs, isWord c = false) : continuesWord (lastAfter before cs) = false := by
  rw [lastAfter_of_ne_nil hne, List.getLast?_eq_some_getLast hne]
  exact h _ (List.getLast_mem hne)

theorem continuesWord_head?_of_trimStart {cs : List Char} {c : Char}
    (h : (trimStart cs).head? = some c) (hc : isWord c = false) :
    continuesWord cs.head? = false := by
  rw [← indent_append_trimStart cs]
  cases hindent : indent cs with
  | nil => rw [List.nil_append, h, continuesWord, hc]
  | cons d ds =>
    have hd : d ∈ indent cs := hindent ▸ List.mem_cons_self
    exact isWord_of_isBlank (isBlank_of_mem_indent hd)

/-- The raw name after an opening character and blanks is a whole word. -/
theorem occurs_rawName_of_trimStart {before : Option Char} {c : Char} {lead cs tail : List Char}
    (hc : isWord c = false) (hcs : trimStart cs = rawName ++ tail)
    (htail : continuesWord tail.head? = false) :
    Occurs (wholeWord rawName) before (lead ++ c :: cs) := by
  refine ⟨lead ++ c :: indent cs, rawName ++ tail, ?_, ?_, isSome_wholeWord.mpr ⟨?_, tail, rfl, htail⟩⟩
  · rw [List.append_assoc, List.cons_append, ← hcs, indent_append_trimStart]
  · exact List.append_ne_nil_of_left_ne_nil (by decide) tail
  · rw [lastAfter_append]
    refine continuesWord_lastAfter_eq_false (List.cons_ne_nil c _) fun d hd => ?_
    rcases List.mem_cons.mp hd with rfl | hd
    · exact hc
    · exact isWord_of_isBlank (isBlank_of_mem_indent hd)

/-- Raw input that is added or interpolated is used by its name. -/
theorem occurs_rawName {cs : List Char} (h : matchesAnywhere rawUse cs = true)
    (before : Option Char) : Occurs (wholeWord rawName) before cs := by
  obtain ⟨lead, rest, rfl, -, hmatch⟩ := matchesAnywhere_iff.mp h
  rw [rawUse] at hmatch
  split at hmatch
  · rename_i huse
    rcases Bool.or_eq_true_iff.mp huse with hadd | hbrace
    · unfold startsWithAddition at hadd
      split at hadd
      · split at hadd
        · rename_i rest tail htail
          exact occurs_rawName_of_trimStart (by decide) (after?_eq_some.mp htail) (by simpa using hadd)
        · cases hadd
      · cases hadd
    · unfold startsWithInterpolation at hbrace
      split at hbrace
      · split at hbrace
        · rename_i rest tail htail
          exact occurs_rawName_of_trimStart (by decide) (after?_eq_some.mp htail)
            (continuesWord_head?_of_trimStart (by simpa using hbrace) (by decide))
        · cases hbrace
      · cases hbrace
  · cases hmatch

theorem isInfix_of_occurs_wholeWord {needle cs : List Char} {before : Option Char}
    (h : Occurs (wholeWord needle) before cs) : needle <:+: cs := by
  obtain ⟨lead, rest, rfl, -, hmatch⟩ := h
  obtain ⟨-, tail, rfl, -⟩ := isSome_wholeWord.mp hmatch
  exact ⟨lead, tail, List.append_assoc _ _ _⟩

theorem trimStart_suffix (cs : List Char) : trimStart cs <:+ cs :=
  ⟨indent cs, indent_append_trimStart cs⟩

/-- A line that assigns the sanitized input mentions it. -/
theorem definesSanitized_eq_false (h : ¬ sanitizedName <:+: line) :
    definesSanitized line = false := by
  rw [definesSanitized]
  cases hassigned : assigned? sanitizedName line with
  | none => rfl
  | some value =>
    obtain ⟨gap, -, hline⟩ := assigned?_eq_some_iff.mp hassigned
    refine absurd (List.IsInfix.trans ?_ (trimStart_suffix line).isInfix) h
    rw [hline]
    exact (List.prefix_append _ _).isInfix

/-- A line that uses the sanitized input mentions it. -/
theorem isSanitizedPrompt_eq_false (h : ¬ sanitizedName <:+: line) :
    isSanitizedPrompt line = false := by
  rw [isSanitizedPrompt]
  cases hassigned : assigned? "prompt".toList line with
  | none => rfl
  | some value =>
    obtain ⟨gap, -, hline⟩ := assigned?_eq_some_iff.mp hassigned
    rw [Bool.eq_false_iff]
    intro hmatch
    refine h ((isInfix_of_occurs_wholeWord (matchesAnywhere_iff.mp hmatch)).trans ?_)
    refine List.IsInfix.trans ?_ (trimStart_suffix line).isInfix
    exact ⟨"prompt".toList ++ (gap ++ ['=']), [], by rw [hline]; simp⟩

end RepoAudit.Python
