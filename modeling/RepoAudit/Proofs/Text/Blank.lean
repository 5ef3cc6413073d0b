import RepoAudit.Text.Blank
import RepoAudit.Text.Word

/-!
# Blanks

A trimmed text has no blank at either end, and a text without a blank at either end is trimmed
already. No blank is a part of a word.

## Main statements

- `trim_eq_self` — what trimming leaves as it is
- `trim_trim` — trimming twice is trimming once
- `trim_append`, `exists_trim` — a text is trimmed between blanks
- `isWord_of_isBlank` — the blanks lie between the ranges of the word characters
-/

namespace RepoAudit.Text

/-- What holds of the characters of a text is decided by going through the text, not through all
characters there are. -/
scoped instance (priority := 2000) decidableForallMem (p : Char → Prop) [DecidablePred p]
    (cs : List Char) : Decidable (∀ c ∈ cs, p c) :=
  List.decidableBAll p cs

theorem trimStart_eq_self {cs : List Char} (h : ∀ c ∈ cs.head?, isBlank c = false) :
    trimStart cs = cs := by
  cases cs with
  | nil => rfl
  | cons c cs =>
    have hc : isBlank c = false := h c rfl
    rw [trimStart, List.dropWhile_cons_of_neg (by simp [hc])]

/-- Blanks in front of a text are part of its indentation. -/
theorem trimStart_append {lead : List Char} (h : ∀ c ∈ lead, isBlank c = true) (cs : List Char) :
    trimStart (lead ++ cs) = trimStart cs :=
  List.dropWhile_append_of_pos h

theorem trimStart_append_singleton {c : Char} (hc : isBlank c = true) (cs : List Char) :
    trimStart (cs ++ [c]) = if trimStart cs = [] then [] else trimStart cs ++ [c] := by
  rw [trimStart, List.dropWhile_append, List.dropWhile_cons_of_pos hc, List.dropWhile_nil,
    trimStart]
  simp only [List.isEmpty_iff]

theorem indent_append {lead : List Char} (h : ∀ c ∈ lead, isBlank c = true) (cs : List Char) :
    indent (lead ++ cs) = lead ++ indent cs :=
  List.takeWhile_append_of_pos h

theorem indent_eq_nil {cs : List Char} (h : ∀ c ∈ cs.head?, isBlank c = false) :
    indent cs = [] := by
  cases cs with
  | nil => rfl
  | cons c cs =>
    have hc : isBlank c = false := h c rfl
    rw [indent, List.takeWhile_cons_of_neg (by simp [hc])]

theorem isBlank_of_mem_indent {cs : List Char} {c : Char} (h : c ∈ indent cs) : isBlank c = true :=
  List.all_eq_true.mp List.all_takeWhile c h

theorem trimEnd_eq_self {cs : List Char} (h : ∀ c ∈ cs.getLast?, isBlank c = false) :
    trimEnd cs = cs := by
  have hreverse : trimStart cs.reverse = cs.reverse := by
    apply trimStart_eq_self
    rw [List.head?_reverse]
    exact h
  rw [trimStart] at hreverse
  rw [trimEnd, hreverse, List.reverse_reverse]

theorem head?_trimStart (cs : List Char) : ∀ c ∈ (trimStart cs).head?, isBlank c = false := by
  intro c hc
  have h := List.head?_dropWhile_not isBlank cs
  rw [trimStart, Option.mem_def] at hc
  rw [hc] at h
  simpa using h

theorem getLast?_trimEnd (cs : List Char) : ∀ c ∈ (trimEnd cs).getLast?, isBlank c = false := by
  rw [trimEnd, List.getLast?_reverse]
  exact head?_trimStart cs.reverse

theorem trimEnd_isPrefix (cs : List Char) : trimEnd cs <+: cs := by
  have hsuffix : cs.reverse.dropWhile isBlank <:+ cs.reverse := List.dropWhile_suffix isBlank
  rw [trimEnd, ← List.reverse_suffix, List.reverse_reverse]
  exact hsuffix

/-- A trimmed text does not start with a blank. -/
theorem head?_trim (cs : List Char) : ∀ c ∈ (trim cs).head?, isBlank c = false := by
  intro c hc
  obtain ⟨rest, hrest⟩ := trimEnd_isPrefix (trimStart cs)
  apply head?_trimStart cs
  rw [← hrest]
  rw [trim] at hc
  cases htrim : trimEnd (trimStart cs) with
  | nil => simp [htrim] at hc
  | cons d ds => simpa [htrim] using hc

/-- A trimmed text does not end with a blank. -/
theorem getLast?_trim (cs : List Char) : ∀ c ∈ (trim cs).getLast?, isBlank c = false :=
  getLast?_trimEnd _

/-- A text without a blank at either end is trimmed. -/
theorem trim_eq_self {cs : List Char} (hhead : ∀ c ∈ cs.head?, isBlank c = false)
    (hlast : ∀ c ∈ cs.getLast?, isBlank c = false) : trim cs = cs := by
  rw [trim, trimStart_eq_self hhead, trimEnd_eq_self hlast]

@[simp] theorem trim_trim (cs : List Char) : trim (trim cs) = trim cs :=
  trim_eq_self (head?_trim cs) (getLast?_trim cs)

theorem trimEnd_append (cs : List Char) {tail : List Char} (h : ∀ c ∈ tail, isBlank c = true) :
    trimEnd (cs ++ tail) = trimEnd cs := by
  rw [trimEnd, List.reverse_append, List.dropWhile_append_of_pos (by simpa using h), trimEnd]

theorem trimEnd_eq_nil {cs : List Char} (h : ∀ c ∈ cs, isBlank c = true) : trimEnd cs = [] := by
  have := trimEnd_append [] h
  exact this

/-- The blanks behind a text are no part of it when it is trimmed. -/
theorem trim_append (cs : List Char) {tail : List Char} (h : ∀ c ∈ tail, isBlank c = true) :
    trim (cs ++ tail) = trim cs := by
  rw [trim, trim, trimStart, List.dropWhile_append]
  split
  · next hempty =>
    have hrest : ∀ c ∈ tail.dropWhile isBlank, isBlank c = true :=
      fun c hc => h c ((List.dropWhile_suffix _).subset hc)
    rw [List.isEmpty_iff] at hempty
    rw [trimEnd_eq_nil hrest, trimStart, hempty]
    rfl
  · exact trimEnd_append _ h

/-- A text is trimmed between blanks. -/
theorem exists_trim (cs : List Char) : ∃ lead tail, cs = lead ++ trim cs ++ tail ∧
    (∀ c ∈ lead, isBlank c = true) ∧ ∀ c ∈ tail, isBlank c = true := by
  refine ⟨indent cs, ((trimStart cs).reverse.takeWhile isBlank).reverse, ?_,
    fun c => isBlank_of_mem_indent, fun c hc => ?_⟩
  · rw [List.append_assoc, trim, trimEnd, ← List.reverse_append, List.takeWhile_append_dropWhile,
      List.reverse_reverse, indent_append_trimStart]
  · rw [List.mem_reverse] at hc
    exact List.all_eq_true.mp List.all_takeWhile c hc

/-- A range of word characters lies between two blanks that follow each other. -/
def isBetweenBlanks (range : Nat × Nat) : Bool :=
  0xA0 < range.1 && (range.2 < 0x1680 || 0x3000 < range.1 ||
    (0x1680 < range.1 && range.2 < 0x2000) || (0x200A < range.1 && range.2 < 0x2028) ||
    (0x2029 < range.1 && range.2 < 0x202F) || (0x202F < range.1 && range.2 < 0x205F) ||
    (0x205F < range.1 && range.2 < 0x3000))

theorem isBetweenBlanks_ranges :
    (WordRanges.all.toList.all fun block => block.toList.all isBetweenBlanks) = true := by
  decide +kernel

/-- A blank is no part of a word. -/
theorem isWord_of_isBlank {c : Char} (h : isBlank c = true) : isWord c = false := by
  simp only [isBlank, Bool.or_eq_true, Bool.and_eq_true, decide_eq_true_eq, beq_iff_eq] at h
  have hascii : isAsciiWord c = false := by
    have hne : c ≠ '_' := by
      rintro rfl
      revert h
      decide
    have halpha : ¬ c.isAlphanum = true := by
      delta Char.isAlphanum Char.isAlpha Char.isUpper Char.isLower Char.isDigit
      simp only [Bool.or_eq_true, Bool.and_eq_true, decide_eq_true_eq, UInt32.le_iff_toNat_le,
        ge_iff_le]
      change ¬ ((65 ≤ c.toNat ∧ c.toNat ≤ 90 ∨ 97 ≤ c.toNat ∧ c.toNat ≤ 122) ∨
        48 ≤ c.toNat ∧ c.toNat ≤ 57)
      omega
    simp [isAsciiWord, hne, halpha]
  have hbeyond : (WordRanges.all.any fun block =>
      block.any fun r => r.1 ≤ c.toNat && c.toNat ≤ r.2) = false := by
    rw [← Array.any_toList, List.any_eq_false]
    intro block hblock
    rw [← Array.any_toList, Bool.not_eq_true, List.any_eq_false]
    intro range hrange
    have hbetween := List.all_eq_true.mp (List.all_eq_true.mp isBetweenBlanks_ranges block hblock)
      range hrange
    simp only [isBetweenBlanks, Bool.or_eq_true, Bool.and_eq_true, decide_eq_true_eq] at hbetween ⊢
    omega
  rw [isWord, hascii, hbeyond]
  simp

end RepoAudit.Text
