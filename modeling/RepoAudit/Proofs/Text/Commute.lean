import RepoAudit.Proofs.Text.Replace

/-!
# Replacements that do not meet

A replacement walks over a text from left to right. It is told by what it does at the front of the
text: it replaces what it looks for there, and it keeps a text that is apart from that. Two
replacements that look for texts apart from one another, and of which neither looks for what the
other one writes, keep out of each other's way, so it does not matter which one comes first.

## Main statements

- `replaceAll_append_self`, `replaceAll_cons`, `replaceAll_append_of_apart` — a replacement at the
  front of a text
- `replaceAll_of_not_isInfix` — a text in which nothing is found is kept
- `replaceAll_comm` — two replacements in either order
-/

namespace RepoAudit.Text

variable {needle substitute cs : List Char}

theorem Apart.symm {as bs : List Char} (h : Apart as bs) : Apart bs as :=
  ⟨h.not_isInfix', h.not_isInfix, h.ends', h.ends⟩

@[simp] theorem replaceAll_nil (h : needle ≠ []) : replaceAll needle substitute [] = [] := by
  rw [replaceAll_eq h]
  rfl

/-- A fixed text is recognised whatever stands before it. -/
theorem piecesFrom_literal (before : Option Char) (cs : List Char) :
    piecesFrom (literal needle) before 0 cs = pieces (literal needle) cs := by
  cases cs <;> rfl

/-- What is looked for is replaced where it starts the text. -/
theorem replaceAll_append_self (h : needle ≠ []) (cs : List Char) :
    replaceAll needle substitute (needle ++ cs) =
      substitute ++ replaceAll needle substitute cs := by
  rw [replaceAll_eq h, replaceAll_eq h]
  obtain ⟨c, tail, rfl⟩ := List.exists_cons_of_ne_nil h
  have hfront : (c :: tail).isPrefixOf (c :: (tail ++ cs)) = true :=
    List.isPrefixOf_iff_prefix.mpr ⟨cs, rfl⟩
  rw [pieces, List.cons_append, piecesFrom, literal, if_pos hfront]
  simp only [List.length_cons, Nat.add_sub_cancel, imageOf_found]
  rw [piecesFrom_append, piecesFrom_literal]

/-- A character at which nothing is found is kept. -/
theorem replaceAll_cons {c : Char} (hne : needle ≠ []) (h : ¬ needle <+: c :: cs) :
    replaceAll needle substitute (c :: cs) = c :: replaceAll needle substitute cs := by
  rw [replaceAll_eq hne, replaceAll_eq hne]
  rw [pieces, piecesFrom, literal, if_neg (by rwa [List.isPrefixOf_iff_prefix])]
  rw [imageOf_plain, piecesFrom_literal]

/-- A text that is apart from what is looked for is kept at the front. -/
theorem replaceAll_append_of_apart {kept : List Char} (h : Apart needle kept) (cs : List Char) :
    replaceAll needle substitute (kept ++ cs) = kept ++ replaceAll needle substitute cs := by
  -- What is said of the whole text holds of each of its ends.
  suffices hends : ∀ tail, tail <:+ kept →
      replaceAll needle substitute (tail ++ cs) = tail ++ replaceAll needle substitute cs from
    hends kept (List.suffix_refl kept)
  intro tail htail
  induction tail with
  | nil => rfl
  | cons c tail ih =>
    have hfront : ¬ needle <+: c :: (tail ++ cs) := by
      intro hfront
      rcases List.prefix_or_prefix_of_prefix hfront (List.prefix_append (c :: tail) cs) with hle | hle
      · exact h.not_isInfix (hle.isInfix.trans htail.isInfix)
      · exact h.ends' _ ((List.mem_tails _ _).mpr htail) (List.cons_ne_nil c tail) hle
    rw [List.cons_append, replaceAll_cons h.ne_nil hfront,
      ih ((List.suffix_cons c tail).trans htail), List.cons_append]

/-- A replacement puts nothing that is apart from the substitute at the front of a text. -/
theorem isPrefix_of_replaceAll {other : List Char} (hne : needle ≠ []) (h : Apart other substitute)
    (hfront : other <+: replaceAll needle substitute cs) : other <+: cs := by
  have hfits : (literal needle).Fits := literal_fits hne
  rw [replaceAll_eq hne] at hfront
  obtain ⟨rest, hrest⟩ := hfront
  obtain ⟨qs, hqs⟩ := exists_plain_of_prefix h (List.suffix_refl other) hrest.symm
  refine ⟨textOf qs, ?_⟩
  rw [← (hfits.cut cs).textOf_eq, hqs, textOf_append, textOf_map_plain]

/-- A text in which nothing is found is kept. -/
theorem replaceAll_of_not_isInfix (hne : needle ≠ []) (h : ¬ needle <:+: cs) :
    replaceAll needle substitute cs = cs := by
  induction cs with
  | nil => exact replaceAll_nil hne
  | cons c cs ih =>
    have hrest : ¬ needle <:+: cs := fun hrest => h (hrest.trans (List.suffix_cons c cs).isInfix)
    rw [replaceAll_cons hne fun hfront => h hfront.isInfix, ih hrest]

/-- Two replacements come to the same in either order when what they look for is apart and neither
writes what the other one looks for. -/
theorem replaceAll_comm {other substitute' : List Char} (h : Apart needle other)
    (hneedle : Apart needle substitute') (hother : Apart other substitute) (cs : List Char) :
    replaceAll needle substitute (replaceAll other substitute' cs) =
      replaceAll other substitute' (replaceAll needle substitute cs) := by
  have hne := h.ne_nil
  have hne' := h.symm.ne_nil
  induction hn : cs.length using Nat.strongRecOn generalizing cs with
  | ind length ih =>
    by_cases hfront : needle <+: cs
    · obtain ⟨rest, rfl⟩ := hfront
      have hlt : rest.length < length := by
        have := List.length_pos_iff.mpr hne
        rw [List.length_append] at hn
        omega
      rw [replaceAll_append_of_apart h.symm, replaceAll_append_self hne,
        replaceAll_append_self hne, replaceAll_append_of_apart hother, ih _ hlt rest rfl]
    by_cases hfront' : other <+: cs
    · obtain ⟨rest, rfl⟩ := hfront'
      have hlt : rest.length < length := by
        have := List.length_pos_iff.mpr hne'
        rw [List.length_append] at hn
        omega
      rw [replaceAll_append_self hne', replaceAll_append_of_apart hneedle,
        replaceAll_append_of_apart h, replaceAll_append_self hne', ih _ hlt rest rfl]
    · cases cs with
      | nil => rw [replaceAll_nil hne', replaceAll_nil hne, replaceAll_nil hne']
      | cons c rest =>
        have hkept : ¬ needle <+: c :: replaceAll other substitute' rest := by
          rw [← replaceAll_cons hne' hfront']
          exact fun hit => hfront (isPrefix_of_replaceAll hne' hneedle hit)
        have hkept' : ¬ other <+: c :: replaceAll needle substitute rest := by
          rw [← replaceAll_cons hne hfront]
          exact fun hit => hfront' (isPrefix_of_replaceAll hne hother hit)
        rw [replaceAll_cons hne' hfront', replaceAll_cons hne hkept, replaceAll_cons hne hfront,
          replaceAll_cons hne' hkept', ih rest.length (by simp [← hn]) rest rfl]

end RepoAudit.Text
