import Mathlib.Data.List.GetD
import RepoAudit.Text.Lines

/-!
# Lines of a text

Splitting a text into lines and joining them again are inverse to each other, as long as the lines
hold no newline and the last line of a text that is not terminated is not empty. The rows of a
text are its lines up to the carriage returns and an empty line at the end.

## Main definitions

- `WholeLines` — a text behind which a line starts

## Main statements

- `splitOn_eq` — the parts of a text are those of `List.splitOn`
- `joinLines_splitLines`, `splitLines_joinLines` — the two round trips
- `joinLines_append` — lines in front of others
- `findIdx?_rows` — what a search that ignores carriage returns finds among the rows
-/

namespace RepoAudit.Text

theorem splitOn_eq (separator : Char) (cs : List Char) :
    splitOn separator cs = cs.splitOn separator := by
  induction cs with
  | nil => rfl
  | cons c cs ih =>
    rw [splitOn, ih, List.splitOn_cons_eq_if_modifyHead]
    by_cases h : c = separator
    · simp [h]
    · obtain ⟨part, parts, hparts⟩ := List.exists_cons_of_ne_nil (List.splitOn_ne_nil separator cs)
      simp [h, hparts, consFirst]

theorem splitOn_ne_nil (separator : Char) (cs : List Char) : splitOn separator cs ≠ [] := by
  rw [splitOn_eq]
  exact List.splitOn_ne_nil separator cs

/-- The characters of a joined text are those of the separator and of the parts. -/
theorem mem_intercalate {sep c : Char} {parts : List (List Char)}
    (h : c ∈ [sep].intercalate parts) : c = sep ∨ ∃ part ∈ parts, c ∈ part := by
  induction parts with
  | nil => cases h
  | cons q parts ih =>
    by_cases hparts : parts = []
    · subst hparts
      rw [List.intercalate_singleton] at h
      exact .inr ⟨q, List.mem_cons_self, h⟩
    · rw [List.intercalate_cons_of_ne_nil hparts, List.append_assoc] at h
      rcases List.mem_append.mp h with h | h
      · exact .inr ⟨q, List.mem_cons_self, h⟩
      · rcases List.mem_append.mp h with h | h
        · exact .inl (List.mem_singleton.mp h)
        · exact (ih h).imp id fun ⟨part, hpart, hc⟩ => ⟨part, List.mem_cons_of_mem q hpart, hc⟩

/-- The characters of a part are characters of the joined text. -/
theorem mem_intercalate_of_mem {sep c : Char} {parts : List (List Char)} {part : List Char}
    (hpart : part ∈ parts) (hc : c ∈ part) : c ∈ [sep].intercalate parts := by
  induction parts with
  | nil => cases hpart
  | cons q parts ih =>
    by_cases hparts : parts = []
    · subst hparts
      rw [List.intercalate_singleton, ← List.mem_singleton.mp hpart]
      exact hc
    · rw [List.intercalate_cons_of_ne_nil hparts, List.append_assoc]
      rcases List.mem_cons.mp hpart with rfl | hpart
      · exact List.mem_append_left _ hc
      · exact List.mem_append_right _ (List.mem_append_right _ (ih hpart))

/-- The parts of a text that is cut at a separator are the parts of its two sides. -/
theorem splitOn_append_cons (separator : Char) (as bs : List Char) :
    splitOn separator (as ++ separator :: bs) =
      splitOn separator as ++ splitOn separator bs := by
  rw [splitOn_eq, splitOn_eq, splitOn_eq, List.splitOn_append_cons_self]

/-- A part of a text holds no separator. -/
theorem notMem_of_mem_splitOn {separator : Char} {cs part : List Char}
    (h : part ∈ splitOn separator cs) : separator ∉ part := by
  induction cs generalizing part with
  | nil =>
    rw [splitOn, List.mem_singleton] at h
    simp [h]
  | cons c cs ih =>
    rw [splitOn] at h
    split at h
    · rcases List.mem_cons.mp h with rfl | hmem
      · exact List.not_mem_nil
      · exact ih hmem
    · rename_i hc
      obtain ⟨first, parts, hparts⟩ := List.exists_cons_of_ne_nil (splitOn_ne_nil separator cs)
      rw [hparts, consFirst] at h
      rw [hparts] at ih
      rcases List.mem_cons.mp h with rfl | hmem
      · rw [List.mem_cons, not_or]
        exact ⟨Ne.symm hc, ih List.mem_cons_self⟩
      · exact ih (List.mem_cons_of_mem first hmem)

theorem notMem_of_mem_splitLines {cs line : List Char} (h : line ∈ (splitLines cs).1) :
    '\n' ∉ line := by
  rw [splitLines] at h
  split at h <;> exact notMem_of_mem_splitOn h

theorem splitLines_snd (cs : List Char) : (splitLines cs).2 = isTerminated cs := by
  rw [splitLines]
  cases isTerminated cs <;> rfl

theorem splitLines_ne_nil (cs : List Char) : (splitLines cs).1 ≠ [] := by
  rw [splitLines]
  split <;> exact splitOn_ne_nil _ _

/-- A text is made of its lines. -/
theorem joinLines_splitLines (cs : List Char) :
    joinLines (splitLines cs).1 (splitLines cs).2 = cs := by
  rw [splitLines]
  split
  · rename_i h
    have hlast : cs.getLast? = some '\n' := by simpa [isTerminated] using h
    obtain ⟨lead, rfl⟩ := List.getLast?_eq_some_iff.mp hlast
    rw [joinLines, splitOn_eq, List.intercalate_splitOn, List.dropLast_concat]
    rfl
  · rw [joinLines, splitOn_eq, List.intercalate_splitOn]
    exact List.append_nil cs

theorem joinLines_append (xs : List (List Char)) {ys : List (List Char)} (h : ys ≠ [])
    (terminated : Bool) :
    joinLines (xs ++ ys) terminated =
      xs.flatMap (· ++ ['\n']) ++ joinLines ys terminated := by
  induction xs with
  | nil => rfl
  | cons x xs ih =>
    have hne : xs ++ ys ≠ [] := List.append_ne_nil_of_right_ne_nil xs h
    rw [joinLines] at ih
    rw [List.cons_append, joinLines, List.intercalate_cons_of_ne_nil hne, List.append_assoc, ih]
    simp

theorem joinLines_cons_cons (x y : List Char) (ys : List (List Char)) (terminated : Bool) :
    joinLines (x :: y :: ys) terminated = x ++ '\n' :: joinLines (y :: ys) terminated := by
  rw [joinLines, List.intercalate_cons_cons, joinLines]
  simp

theorem exists_joinLines_cons (x : List Char) (xs : List (List Char)) (terminated : Bool) :
    ∃ rest, joinLines (x :: xs) terminated = x ++ rest := by
  cases xs with
  | nil => exact ⟨_, by rw [joinLines, List.intercalate_singleton]⟩
  | cons y ys => exact ⟨_, joinLines_cons_cons x y ys terminated⟩

/-- What stands before some lines is empty or ends with a newline. -/
theorem flatMap_terminate (xs : List (List Char)) :
    xs.flatMap (· ++ ['\n']) = [] ∨ ∃ lead, xs.flatMap (· ++ ['\n']) = lead ++ ['\n'] := by
  rcases List.eq_nil_or_concat xs with rfl | ⟨init, x, rfl⟩
  · exact .inl rfl
  · exact .inr ⟨init.flatMap (· ++ ['\n']) ++ x, by simp⟩

theorem joinLines_concat (xs : List (List Char)) (x : List Char) (terminated : Bool) :
    joinLines (xs ++ [x]) terminated =
      xs.flatMap (· ++ ['\n']) ++ (x ++ if terminated then ['\n'] else []) := by
  rw [joinLines_append xs (List.cons_ne_nil x []), joinLines, List.intercalate_singleton]

/-- Lines without a newline are read back, unless the last one is empty and not terminated. -/
theorem splitLines_joinLines {lines : List (List Char)} {terminated : Bool} (hne : lines ≠ [])
    (hline : ∀ line ∈ lines, '\n' ∉ line)
    (hlast : terminated = false → lines.getLast? ≠ some []) :
    splitLines (joinLines lines terminated) = (lines, terminated) := by
  have hsplit : splitOn '\n' (['\n'].intercalate lines) = lines := by
    rw [splitOn_eq, List.splitOn_intercalate '\n' hline hne]
  cases terminated with
  | true =>
    have hterminated : isTerminated (joinLines lines true) = true := by
      simp [isTerminated, joinLines]
    rw [splitLines, if_pos hterminated, joinLines, if_pos rfl, List.dropLast_concat, hsplit]
  | false =>
    obtain ⟨init, last, rfl⟩ := List.eq_nil_or_concat lines |>.resolve_left hne
    obtain ⟨body, c, rfl⟩ := List.eq_nil_or_concat last |>.resolve_left (by simpa using hlast rfl)
    rw [List.concat_eq_append, List.concat_eq_append] at *
    have hc : c ≠ '\n' := by
      rintro rfl
      exact hline (body ++ ['\n']) (by simp) (by simp)
    have hterminated : ¬ isTerminated (joinLines (init ++ [body ++ [c]]) false) = true := by
      rw [joinLines_concat, isTerminated]
      simpa using hc
    rw [splitLines, if_neg hterminated, joinLines]
    simp only [Bool.false_eq_true, if_false, List.append_nil]
    rw [hsplit]

/-- The last line of a text that is not terminated is empty in the empty text alone. -/
theorem getLast?_splitLines {cs : List Char} (hcs : cs ≠ []) (h : (splitLines cs).2 = false) :
    (splitLines cs).1.getLast? ≠ some [] := by
  intro hlast
  obtain ⟨init, hinit⟩ := List.getLast?_eq_some_iff.mp hlast
  have hjoin := joinLines_splitLines cs
  rw [hinit, h, joinLines_concat, List.nil_append, if_neg Bool.false_ne_true,
    List.append_nil] at hjoin
  rcases flatMap_terminate init with hnil | ⟨lead, hlead⟩
  · exact hcs (hjoin.symm.trans hnil)
  · have hterminated : isTerminated cs = true := by
      rw [← hjoin, hlead]
      simp [isTerminated]
    rw [splitLines, if_pos hterminated] at h
    cases h

/-! ### Line numbers -/

theorem lineAfter_append (lead text : List Char) :
    lineAfter (lead ++ text) = lineAfter lead + text.count '\n' := by
  rw [lineAfter, lineAfter, List.count_append]
  omega

theorem lineAfter_concat (lead : List Char) (c : Char) :
    lineAfter (lead ++ [c]) = if c = '\n' then lineAfter lead + 1 else lineAfter lead := by
  rw [lineAfter_append, List.count_singleton]
  split <;> simp_all

/-! ### Terminated lines -/

theorem splitTerminated_append_cons {line : List Char} (h : '\n' ∉ line) (rest : List Char) :
    splitTerminated (line ++ '\n' :: rest) = (line ++ ['\n']) :: splitTerminated rest := by
  induction line with
  | nil => simp [splitTerminated]
  | cons c line ih =>
    simp only [List.mem_cons, not_or] at h
    rw [List.cons_append, splitTerminated, if_neg (Ne.symm h.1), ih h.2]
    rfl

theorem splitTerminated_of_notMem {line : List Char} (h : '\n' ∉ line) :
    splitTerminated line = if line = [] then [] else [line] := by
  induction line with
  | nil => rfl
  | cons c line ih =>
    simp only [List.mem_cons, not_or] at h
    rw [splitTerminated, if_neg (Ne.symm h.1), ih h.2, if_neg (List.cons_ne_nil c line)]
    split
    · next hnil => rw [hnil, consFirst]
    · rfl

theorem splitTerminated_flatMap {lines : List (List Char)} (h : ∀ line ∈ lines, '\n' ∉ line)
    (rest : List Char) : splitTerminated (lines.flatMap (· ++ ['\n']) ++ rest) =
      lines.map (· ++ ['\n']) ++ splitTerminated rest := by
  induction lines with
  | nil => rfl
  | cons line lines ih =>
    rw [List.forall_mem_cons] at h
    rw [List.flatMap_cons, List.append_assoc, List.append_assoc, List.singleton_append,
      splitTerminated_append_cons h.1, ih h.2]
    rfl

/-! ### Whole lines -/

/-- A text of whole lines, each with its newline: what follows it starts a line. -/
inductive WholeLines : List Char → Prop where
  | nil : WholeLines []
  | cons {line rest : List Char} : '\n' ∉ line → WholeLines rest → WholeLines (line ++ '\n' :: rest)

/-- Nothing, or a text that ends with a newline, is made of whole lines. -/
theorem wholeLines_iff {cs : List Char} : WholeLines cs ↔ cs = [] ∨ cs.getLast? = some '\n' := by
  constructor
  · intro h
    induction h with
    | nil => exact .inl rfl
    | @cons line rest _ _ ih =>
      refine .inr ?_
      rw [List.getLast?_append, List.getLast?_cons]
      rcases ih with rfl | hlast
      · rfl
      · rw [hlast]
        rfl
  · intro h
    induction hlength : cs.length using Nat.strongRecOn generalizing cs with
    | ind n ih =>
      subst hlength
      rcases h with rfl | hlast
      · exact .nil
      · obtain ⟨line, rest, rfl, hline⟩ := List.eq_append_cons_of_mem (List.mem_of_getLast? hlast)
        refine .cons hline (ih rest.length (by simp; omega) ?_ rfl)
        cases rest with
        | nil => exact .inl rfl
        | cons c rest =>
          rw [List.getLast?_append, List.getLast?_cons_cons] at hlast
          refine .inr ?_
          rwa [List.getLast?_cons, Option.some_or, ← List.getLast?_cons] at hlast

namespace WholeLines

variable {cs : List Char}

theorem splitTerminated_append (h : WholeLines cs) (rest : List Char) :
    splitTerminated (cs ++ rest) = splitTerminated cs ++ splitTerminated rest := by
  induction h with
  | nil => rfl
  | cons hline _ ih =>
    rw [List.append_assoc, List.cons_append, splitTerminated_append_cons hline, ih,
      splitTerminated_append_cons hline]
    rfl

theorem length_splitTerminated (h : WholeLines cs) :
    (splitTerminated cs).length = cs.count '\n' := by
  induction h with
  | nil => rfl
  | cons hline _ ih =>
    rw [splitTerminated_append_cons hline, List.length_cons, ih, List.count_append,
      List.count_eq_zero_of_not_mem hline, List.count_cons_self, Nat.zero_add]

/-- Of two leads of a text, the one with as many newlines holds the whole lines of the other. -/
theorem isPrefix_of_count_le {lead before : List Char} (h : WholeLines lead) (hlead : lead <+: cs)
    (hbefore : before <+: cs) (hcount : lead.count '\n' ≤ before.count '\n') :
    lead <+: before := by
  rcases List.prefix_or_prefix_of_prefix hlead hbefore with hle | ⟨more, rfl⟩
  · exact hle
  · rw [List.count_append] at hcount
    have hmore : '\n' ∉ more := List.count_eq_zero.mp (by omega)
    rcases wholeLines_iff.mp h with hnil | hlast
    · rw [hnil]
      exact List.nil_prefix
    · rcases List.eq_nil_or_concat more with rfl | ⟨init, c, rfl⟩
      · simp
      · rw [List.concat_eq_append, ← List.append_assoc, List.getLast?_concat] at hlast
        obtain rfl := Option.some.inj hlast
        exact absurd (by simp) hmore

end WholeLines

/-- A text has as many whole lines at its front as newlines. -/
theorem exists_wholeLines {n : Nat} {cs : List Char} (h : n ≤ cs.count '\n') :
    ∃ lead rest, cs = lead ++ rest ∧ WholeLines lead ∧ lead.count '\n' = n := by
  induction n generalizing cs with
  | zero => exact ⟨[], cs, rfl, .nil, rfl⟩
  | succ n ih =>
    have hmem : '\n' ∈ cs := List.count_pos_iff.mp (by omega)
    obtain ⟨line, rest, rfl, hline⟩ := List.eq_append_cons_of_mem hmem
    rw [List.count_append, List.count_eq_zero_of_not_mem hline, List.count_cons_self] at h
    obtain ⟨lead, rest, rfl, hlead, hcount⟩ := @ih rest (by omega)
    refine ⟨line ++ '\n' :: lead, rest, by simp, .cons hline hlead, ?_⟩
    rw [List.count_append, List.count_eq_zero_of_not_mem hline, List.count_cons_self, hcount]
    omega

/-! ### Rows -/

/-- A terminated line is read as a row without its newline and the carriage return before it. -/
theorem withoutTerminator_append_newline (line : List Char) :
    withoutTerminator (line ++ ['\n']) = line ∨
      line = withoutTerminator (line ++ ['\n']) ++ ['\r'] := by
  rw [withoutTerminator, if_pos (List.getLast?_concat), List.dropLast_concat]
  dsimp only
  split
  · next hlast =>
    obtain ⟨body, rfl⟩ := List.getLast?_eq_some_iff.mp hlast
    rw [List.dropLast_concat]
    exact .inr rfl
  · exact .inl rfl

/-- A search that is blind to a carriage return at the end of a line, and that passes over empty
lines, finds the same line among the rows of a text and among its lines. -/
theorem findIdx?_rows {p : List Char → Bool} (hreturn : ∀ line, p (line ++ ['\r']) = p line)
    (hempty : p [] = false) (cs : List Char) :
    (rows cs).findIdx? p = (splitLines cs).1.findIdx? p := by
  have hlines : ∀ line ∈ (splitLines cs).1, '\n' ∉ line := fun line => notMem_of_mem_splitLines
  have hjoin := joinLines_splitLines cs
  generalize (splitLines cs).2 = terminated at hjoin
  have hrow : p ∘ (withoutTerminator ∘ (· ++ ['\n'])) = p := by
    funext line
    rcases withoutTerminator_append_newline line with h | h
    · exact congrArg p h
    · exact (hreturn _).symm.trans (congrArg p h.symm)
  obtain ⟨init, last, hsplit⟩ : ∃ init last, (splitLines cs).1 = init ++ [last] :=
    ⟨_, _, (List.dropLast_concat_getLast (splitLines_ne_nil cs)).symm⟩
  rw [hsplit] at hjoin hlines ⊢
  rw [List.forall_mem_append] at hlines
  have hlast : '\n' ∉ last := hlines.2 last List.mem_cons_self
  rw [joinLines_concat] at hjoin
  -- The lines but the last one give the same rows; the last one gives one row, or is empty.
  have htail : (splitTerminated (last ++ if terminated then ['\n'] else [])).map withoutTerminator =
        [last].map (withoutTerminator ∘ (· ++ ['\n'])) ∨
      last = [] ∧ (splitTerminated (last ++ if terminated then ['\n'] else [])) = [] ∨
      (splitTerminated (last ++ if terminated then ['\n'] else [])).map withoutTerminator = [last] := by
    cases terminated with
    | true =>
      rw [if_pos rfl, splitTerminated_append_cons hlast]
      exact .inl rfl
    | false =>
      rw [if_neg Bool.false_ne_true, List.append_nil, splitTerminated_of_notMem hlast]
      split
      · next hnil => exact .inr (.inl ⟨hnil, rfl⟩)
      · refine .inr (.inr ?_)
        have hend : last.getLast? ≠ some '\n' := fun h => hlast (List.mem_of_getLast? h)
        rw [List.map_singleton, withoutTerminator, if_neg hend]
  rw [rows, ← hjoin, splitTerminated_flatMap hlines.1, List.map_append, List.map_map,
    List.findIdx?_append, List.findIdx?_append, List.findIdx?_map, hrow, List.length_map]
  congr 1
  congr 1
  rcases htail with h | ⟨rfl, h⟩ | h
  · rw [h, List.findIdx?_map, hrow]
  · rw [h]
    simp [hempty]
  · rw [h]

/-- Read upwards, the lines above the next line start with this one. -/
theorem reverse_take_succ {lines : List (List Char)} {n : Nat} (h : n < lines.length) :
    (lines.take (n + 1)).reverse = lines.getD n [] :: (lines.take n).reverse := by
  rw [List.take_succ_eq_append_getElem h, List.reverse_append, List.getD_eq_getElem _ _ h]
  rfl

end RepoAudit.Text
