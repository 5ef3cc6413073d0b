import RepoAudit.Proofs.Text.WholeWord

/-!
# Matches in joined texts

Two texts are joined by a character in between. Where a recogniser takes that character for an end
of the text, on either side, nothing is found across the seam and nothing is lost at it: there is a
match in the joined text exactly if there is one in either part.

## Main definitions

- `Recogniser.EndsAt` — a character is like an end of the text

## Main statements

- `Recogniser.EndsAt.occurs_append_cons` — the matches in two joined texts
- `literal_endsAt`, `wholeWord_endsAt` — the ends of a fixed text and of a whole word
-/

namespace RepoAudit.Text

variable {α : Type} {r : Recogniser α} {sep : Char} {needle : List Char}

/-- A recogniser takes a character for an end of the text. -/
structure Recogniser.EndsAt (r : Recogniser α) (sep : Char) : Prop where
  /-- What follows the character is not seen. -/
  ahead : ∀ before cs rest, (r before (cs ++ sep :: rest)).isSome = (r before cs).isSome
  /-- What stands before the character is not seen. -/
  behind : ∀ cs, (r (some sep) cs).isSome = (r none cs).isSome
  /-- Nothing is found where the text is over. -/
  atEnd : ∀ before, (r before []).isSome = false

namespace Recogniser.EndsAt

theorem occurs_behind (h : r.EndsAt sep) (cs : List Char) :
    Occurs r (some sep) cs ↔ Occurs r none cs := by
  cases cs with
  | nil => exact iff_of_false (not_occurs_nil _) (not_occurs_nil _)
  | cons c cs => rw [occurs_cons, occurs_cons, h.behind]

/-- There is a match in two joined texts exactly if there is one in either of them. -/
theorem occurs_append_cons (h : r.EndsAt sep) (before : Option Char) (as bs : List Char) :
    Occurs r before (as ++ sep :: bs) ↔ Occurs r before as ∨ Occurs r none bs := by
  induction as generalizing before with
  | nil =>
    have hseam : ¬(r before (sep :: bs)).isSome = true := by
      rw [show sep :: bs = [] ++ sep :: bs from rfl, h.ahead, h.atEnd]
      exact Bool.false_ne_true
    rw [List.nil_append, occurs_cons, h.occurs_behind]
    simp [hseam]
  | cons a as ih =>
    rw [List.cons_append, occurs_cons, ih, occurs_cons, ← List.cons_append, h.ahead, or_assoc]

theorem matchesAnywhere_append_cons (h : r.EndsAt sep) (as bs : List Char) :
    matchesAnywhere r (as ++ sep :: bs) = (matchesAnywhere r as || matchesAnywhere r bs) := by
  rw [Bool.eq_iff_iff, Bool.or_eq_true]
  simp only [matchesAnywhere_iff]
  exact h.occurs_append_cons none as bs

end Recogniser.EndsAt

/-- A text without the character in between that starts a joined text starts its first part. -/
theorem isPrefix_append_cons_iff (hsep : sep ∉ needle) {cs rest : List Char} :
    needle <+: cs ++ sep :: rest ↔ needle <+: cs := by
  refine ⟨fun ⟨tail, htail⟩ => ?_, fun h => h.trans (List.prefix_append cs _)⟩
  rcases append_eq_append_cases htail with ⟨v, rfl, -⟩ | ⟨v, hv, rfl, hrest⟩
  · exact List.prefix_append needle v
  · -- What sticks out of the first part would begin with the character in between.
    obtain ⟨c, v, rfl⟩ := List.exists_cons_of_ne_nil hv
    obtain ⟨rfl, -⟩ := List.cons.inj hrest
    exact absurd (List.mem_append_right cs List.mem_cons_self) hsep

/-- A fixed text ends at every character that it does not have. -/
theorem literal_endsAt (hne : needle ≠ []) (hsep : sep ∉ needle) : (literal needle).EndsAt sep where
  ahead before cs rest := by
    rw [Bool.eq_iff_iff, isSome_literal, isSome_literal, isPrefix_append_cons_iff hsep]
  behind cs := rfl
  atEnd before := by
    rw [← Bool.not_eq_true, isSome_literal, List.prefix_nil]
    exact hne

/-- A whole word ends at every character that is not part of a word. -/
theorem wholeWord_endsAt (hne : needle ≠ []) (hsep : sep ∉ needle) (hword : isWord sep = false) :
    (wholeWord needle).EndsAt sep where
  ahead before cs rest := by
    rw [Bool.eq_iff_iff, isSome_wholeWord, isSome_wholeWord]
    refine and_congr_right fun _ => ⟨?_, ?_⟩
    · rintro ⟨tail, htail, hend⟩
      obtain ⟨front, rfl⟩ := (isPrefix_append_cons_iff hsep).mp ⟨tail, htail.symm⟩
      obtain rfl : front ++ sep :: rest = tail := by simpa using htail
      refine ⟨front, rfl, ?_⟩
      cases front with
      | nil => rfl
      | cons c front => exact hend
    · rintro ⟨front, rfl, hend⟩
      refine ⟨front ++ sep :: rest, List.append_assoc _ _ _, ?_⟩
      cases front with
      | nil => exact hword
      | cons c front => exact hend
  behind cs := by
    rw [Bool.eq_iff_iff, isSome_wholeWord, isSome_wholeWord]
    simp [continuesWord, hword]
  atEnd before := by
    rw [← Bool.not_eq_true, isSome_wholeWord]
    rintro ⟨-, rest, hnil, -⟩
    exact hne (List.append_eq_nil_iff.mp hnil.symm).1

theorem contains_append_cons (hne : needle ≠ []) (hsep : sep ∉ needle) (as bs : List Char) :
    contains (as ++ sep :: bs) needle = (contains as needle || contains bs needle) := by
  have hempty : needle.isEmpty = false := by simpa using hne
  simp only [contains, hempty, Bool.false_or]
  exact (literal_endsAt hne hsep).matchesAnywhere_append_cons as bs

end RepoAudit.Text
