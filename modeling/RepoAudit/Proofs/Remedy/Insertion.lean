import RepoAudit.Proofs.Remedy.Prompt

/-!
# What sanitizing prompts leaves as it was

A text whose prompts are sanitized keeps its lines, in their order. Only the raw prompts are
changed, in the name they use, and at most one preamble goes above each line. No raw prompt is
left, so sanitizing the result again does nothing.

## Main definitions

- `Becomes` — what a line becomes
- `Inserted` — what the lines of a text become, with preambles among them

## Main statements

- `inserted_insertPreambles` — inserting preambles keeps all lines
- `transform_inserts` — what the text with its prompts sanitized has of the original one
-/

namespace RepoAudit.Remedy.Prompt

open RepoAudit.Text RepoAudit.Python

/-- A raw prompt has every whole raw name in it replaced by the sanitized one, and any other line
is kept. -/
def Becomes (line line' : Line) : Prop :=
  if isRawPrompt line then WordsReplaced rawName sanitizedName none line line' else line' = line

/-- Four lines that sanitize the input, behind some blanks. -/
def IsPreamble (block : List Line) : Prop :=
  block.length = 4 ∧
    ∃ indentation, (∀ c ∈ indentation, isBlank c = true) ∧ block = preamble indentation

/-- The lines of a text one after the other, with at most one preamble above each of them. -/
inductive Inserted : List Line → List Line → Prop where
  | nil : Inserted [] []
  | line {line line' : Line} {lines lines' : List Line} :
      Becomes line line' → Inserted lines lines' → Inserted (line :: lines) (line' :: lines')
  | preamble {block : List Line} {line line' : Line} {lines lines' : List Line} :
      IsPreamble block → Becomes line line' → Inserted lines lines' →
        Inserted (line :: lines) (block ++ line' :: lines')

theorem becomes_switchName (line : Line) : Becomes line (switchName line) := by
  rw [Becomes, switchName]
  split
  · exact wordsReplaced (by decide) line
  · rfl

theorem isPreamble_preamble {indentation : List Char} (h : ∀ c ∈ indentation, isBlank c = true) :
    IsPreamble (preamble indentation) :=
  ⟨rfl, indentation, h, rfl⟩

/-- Preambles go above lines that stand in their order. -/
theorem inserted_insertPreambles {sites : List (Nat × List Char)}
    (hblank : ∀ index indentation, indentationAt? sites index = some indentation →
      ∀ c ∈ indentation, isBlank c = true) (index : Nat) (lines : List Line) :
    Inserted lines (insertPreambles sites index lines) := by
  induction lines generalizing index with
  | nil => exact .nil
  | cons line lines ih =>
    rw [insertPreambles_cons, preambleAt]
    cases h : indentationAt? sites index with
    | none => exact .line (becomes_switchName line) (ih (index + 1))
    | some indentation =>
      exact .preamble (isPreamble_preamble (hblank index indentation h)) (becomes_switchName line)
        (ih (index + 1))

/-- A text without raw prompts is left alone. -/
theorem transform_eq_none {content : List Char}
    (h : ∀ line ∈ (splitLines content).1, isRawPrompt line = false) : transform content = none := by
  have hprompts : promptLines (splitLines content).1 = [] := by
    rw [promptLines, List.filter_eq_nil_iff]
    intro index hindex
    rw [List.mem_range] at hindex
    rw [List.getD_eq_getElem _ _ hindex, h _ (List.getElem_mem hindex)]
    exact Bool.false_ne_true
  rw [transform]
  dsimp only
  rw [hprompts]
  rfl

/-- Sanitizing the prompts of a text inserts preambles and switches names in raw prompts; lines and
the end of the text are kept, and there is nothing to do when the prompts are sanitized again. -/
theorem transform_inserts {content text : List Char} (h : transform content = some text) :
    Inserted (splitLines content).1 (splitLines text).1 ∧
      isTerminated text = isTerminated content ∧
      (∀ line ∈ (splitLines text).1, isRawPrompt line = false) ∧ transform text = none := by
  have hblank := isBlank_of_preambleSites (splitLines content).1
  have hraw : ∀ line ∈ (splitLines text).1, isRawPrompt line = false := by
    rw [splitLines_transform h]
    exact fun line => isRawPrompt_of_mem_insertPreambles hblank
  refine ⟨?_, ?_, hraw, transform_eq_none hraw⟩
  · rw [splitLines_transform h]
    exact inserted_insertPreambles hblank 0 _
  · rw [← splitLines_snd, ← splitLines_snd, splitLines_transform h]

/-- A prompt outside any function and two in one function, the last one without a newline. -/
def mixedPrompts : List Char :=
  ["user_input = input()\n", "prompt = \"Q: \" + user_input\n", "async def ask(user_input):\n",
    "\tprompt = f\"\x7b user_input \x7d\" + user_input2\n",
    "\tprompt = user_input + user_input"].flatMap String.toList

/-- The prompts with a preamble outside the function and one in it. -/
def mixedPromptsSanitized : List Char :=
  ["user_input = input()\n", "import re\n",
    "sanitized_input = re.sub(r\"[\\x00-\\x1f\\x7f;]\", \"\", str(user_input))\n",
    "if any(keyword in sanitized_input.lower() for keyword in (\"ignore\", \"system\")):\n",
    "    raise ValueError(\"Invalid request detected\")\n", "prompt = \"Q: \" + sanitized_input\n",
    "async def ask(user_input):\n", "\timport re\n",
    "\tsanitized_input = re.sub(r\"[\\x00-\\x1f\\x7f;]\", \"\", str(user_input))\n",
    "\tif any(keyword in sanitized_input.lower() for keyword in (\"ignore\", \"system\")):\n",
    "\t\traise ValueError(\"Invalid request detected\")\n",
    "\tprompt = f\"\x7b sanitized_input \x7d\" + user_input2\n",
    "\tprompt = sanitized_input + sanitized_input"].flatMap String.toList

theorem inserts_mixedPrompts :
    transform mixedPrompts = some mixedPromptsSanitized ∧
      Inserted (splitLines mixedPrompts).1 (splitLines mixedPromptsSanitized).1 ∧
      isTerminated mixedPromptsSanitized = isTerminated mixedPrompts ∧
      (∀ line ∈ (splitLines mixedPromptsSanitized).1, isRawPrompt line = false) ∧
      transform mixedPromptsSanitized = none := by
  have htransform : transform mixedPrompts = some mixedPromptsSanitized := by decide +kernel
  exact ⟨htransform, transform_inserts htransform⟩

end RepoAudit.Remedy.Prompt
