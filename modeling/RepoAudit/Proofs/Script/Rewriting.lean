import RepoAudit.Proofs.Script.Extent
import RepoAudit.Proofs.Script.Silence

/-!
# Rewritten scripts

A script is rewritten by escaping the right-hand sides of its unsafe sinks, where no right-hand side
holds another assignment of markup. Searched again, the rewritten script has its assignments where
they were, and each right-hand side is the one that was put there: what stands behind a right-hand
side still ends it, and what was put into one starts no assignment.

## Main definitions

- `settle` — what becomes of a right-hand side
- `RightHandSide` — a text behind an assignment, cut at its right-hand side
- `Rewritten` — a script, and the one with its unsafe right-hand sides escaped

## Main statements

- `RightHandSide.expression_settle` — the right-hand side that was put in is found again
- `RightHandSide.silent_settle` — it holds no assignment
- `Rewritten.alike`, `Rewritten.follows` — a rewritten text stands behind another one as it did
-/

namespace RepoAudit.Script

open RepoAudit.Text

variable {before : Option Char} {cs cs' : List Char}

/-- The right-hand side of a sink after its script is rewritten. -/
def settle (expression : List Char) : List Char :=
  if needsEscaping expression then escape expression else expression

/-- A text behind an assignment: blanks, the right-hand side, and what stands behind it. No other
assignment starts in the right-hand side, and it can be read on its own if it is escaped. -/
structure RightHandSide (before : Option Char) (gap expression tail : List Char) : Prop where
  /-- There are only blanks before the right-hand side. -/
  blanks : ∀ c ∈ gap, isBlank c = true
  /-- It starts behind all of them. -/
  head : ∀ c ∈ (expression ++ tail).head?, isBlank c = false
  /-- Something is assigned, not compared. -/
  equals : (gap ++ (expression ++ tail)).head? ≠ some '='
  /-- The right-hand side is the expression that stands there. -/
  expression_eq : trimEnd (expressionAt (expression ++ tail)) = expression
  /-- No other assignment starts in it. -/
  silent : Silent before (gap ++ expression) tail
  /-- It can be read on its own if it is escaped. -/
  tidy : needsEscaping expression = true → IsTidy expression

/-- The text that follows a character, and the same text with the right-hand sides of its unsafe
sinks escaped. -/
inductive Rewritten : Option Char → List Char → List Char → Prop where
  | done {before : Option Char} : Rewritten before [] []
  | plain {before : Option Char} {c : Char} {cs cs' : List Char}
    (hnone : assignment before (c :: cs) = none) (h : Rewritten (some c) cs cs') :
    Rewritten before (c :: cs) (c :: cs')
  | compared {before : Option Char} {text rest rest' : List Char} (htext : Assigns text)
    (hword : continuesWord before = false) (hequals : rest.head? = some '=')
    (h : Rewritten (lastAfter before text) rest rest') :
    Rewritten before (text ++ rest) (text ++ rest')
  | assigned {before : Option Char} {text gap expression tail tail' : List Char}
    (htext : Assigns text) (hword : continuesWord before = false)
    (hside : RightHandSide (lastAfter before text) gap expression tail)
    (h : Rewritten (lastAfter before (text ++ (gap ++ expression))) tail tail') :
    Rewritten before (text ++ (gap ++ (expression ++ tail)))
      (text ++ (gap ++ (settle expression ++ tail')))

theorem Assigns.head?_append {text : List Char} (h : Assigns text) (rest : List Char) :
    ∃ c, (text ++ rest).head? = some c ∧ (c = 'i' ∨ c = 'o') ∧ isBlank c = false := by
  obtain ⟨c, d, tail, rfl, ⟨rfl, -⟩ | ⟨rfl, -⟩⟩ := h.exists_start
  · exact ⟨'i', rfl, .inl rfl, by decide⟩
  · exact ⟨'o', rfl, .inr rfl, by decide⟩

theorem Assigns.head?_append_eq {text : List Char} (h : Assigns text) (rest : List Char) :
    (text ++ rest).head? = text.head? := by
  obtain ⟨c, d, tail, rfl, -⟩ := h.exists_start
  rfl

theorem Assigns.lastAfter_eq {text : List Char} (h : Assigns text) (before : Option Char) :
    lastAfter before text = some '=' := by
  obtain ⟨lead, rfl, -⟩ := h.eq_append_equals
  rw [lastAfter_append]
  rfl

namespace Rewritten

/-- A rewritten text starts as the text did. -/
theorem head?_eq (h : Rewritten before cs cs') : cs'.head? = cs.head? := by
  cases h with
  | done => rfl
  | plain hnone h => rfl
  | compared htext hword hequals h => rw [htext.head?_append_eq, htext.head?_append_eq]
  | assigned htext hword hside h => rw [htext.head?_append_eq, htext.head?_append_eq]

/-- A character that starts no assignment is kept. -/
theorem exists_of_cons {c : Char} (h : Rewritten before (c :: cs) cs')
    (hnone : assignment before (c :: cs) = none) :
    ∃ ds, cs' = c :: ds ∧ Rewritten (some c) cs ds := by
  have hassigns : ∀ {text rest : List Char}, Assigns text → continuesWord before = false →
      c :: cs ≠ text ++ rest :=
    fun htext hword => assignment_eq_none_iff.mp hnone hword _ _ htext
  generalize hcons : c :: cs = text at h hassigns
  cases h with
  | done => cases hcons
  | plain hnone h =>
    obtain ⟨rfl, rfl⟩ := List.cons.inj hcons
    exact ⟨_, rfl, h⟩
  | compared htext hword _ _ => exact absurd rfl (hassigns htext hword)
  | assigned htext hword _ _ => exact absurd rfl (hassigns htext hword)

/-- A text in which no assignment starts is kept. -/
theorem exists_of_silent {lead : List Char} (h : Rewritten before (lead ++ cs) cs')
    (hlead : Silent before lead cs) :
    ∃ ds, cs' = lead ++ ds ∧ Rewritten (lastAfter before lead) cs ds := by
  induction lead generalizing before cs' with
  | nil => exact ⟨cs', rfl, h⟩
  | cons c lead ih =>
    obtain ⟨hhere, hlater⟩ := silent_cons.mp hlead
    obtain ⟨ds, rfl, hrest⟩ := h.exists_of_cons hhere
    obtain ⟨ds, rfl, hrest⟩ := ih hrest hlater
    exact ⟨ds, rfl, by rwa [lastAfter_cons]⟩

theorem head?_trimStart_eq (h : Rewritten before cs cs') :
    (trimStart cs').head? = (trimStart cs).head? := by
  have hassigns : ∀ {text : List Char}, Assigns text → ∀ rest,
      (trimStart (text ++ rest)).head? = text.head? := by
    intro text htext rest
    obtain ⟨c, hc, -, hblank⟩ := htext.head?_append rest
    rw [trimStart_eq_self, htext.head?_append_eq]
    rw [hc]
    rintro d ⟨⟩
    exact hblank
  induction h with
  | done => rfl
  | @plain _ c cs cs' hnone h ih =>
    by_cases hc : isBlank c = true
    · have htrim : ∀ cs, trimStart (c :: cs) = trimStart cs := fun cs =>
        List.dropWhile_cons_of_pos hc
      rw [htrim, htrim, ih]
    · have htrim : ∀ cs, trimStart (c :: cs) = c :: cs := fun cs =>
        List.dropWhile_cons_of_neg hc
      rw [htrim, htrim]
      rfl
  | compared htext hword hequals h ih => rw [hassigns htext, hassigns htext]
  | assigned htext hword hside h ih => rw [hassigns htext, hassigns htext]

/-- Up to its first equals sign, a rewritten text is the text. -/
theorem isPrefix_concat (h : Rewritten before cs cs') {lead : List Char} {c : Char}
    (hlead : '=' ∉ lead) (hinit : lead ++ [c] <+: cs') : lead ++ [c] <+: cs := by
  have hassigns : ∀ {lead text : List Char}, '=' ∉ lead → Assigns text → ∀ rest rest',
      lead ++ [c] <+: text ++ rest' → lead ++ [c] <+: text ++ rest := by
    intro lead text hlead htext rest rest' hinit
    obtain ⟨front, rfl, -⟩ := htext.eq_append_equals
    have hfront : lead ++ [c] <+: front ++ ['='] := by
      rcases List.prefix_or_prefix_of_prefix hinit (List.prefix_append _ rest') with hle | hle
      · exact hle
      · rcases List.prefix_concat_iff.mp hle with heq | hinside
        · exact heq ▸ List.prefix_rfl
        · exact absurd (hinside.subset (by simp)) hlead
    exact hfront.trans (List.prefix_append _ rest)
  induction h generalizing lead with
  | done => exact hinit
  | @plain _ c cs cs' hnone h ih =>
    cases lead with
    | nil =>
      obtain ⟨rfl, -⟩ := List.cons_prefix_cons.mp hinit
      exact List.cons_prefix_cons.mpr ⟨rfl, List.nil_prefix⟩
    | cons d lead =>
      rw [List.mem_cons, not_or] at hlead
      obtain ⟨rfl, hrest⟩ := List.cons_prefix_cons.mp hinit
      exact List.cons_prefix_cons.mpr ⟨rfl, ih hlead.2 hrest⟩
  | compared htext hword hequals h ih => exact hassigns hlead htext _ _ hinit
  | assigned htext hword hside h ih => exact hassigns hlead htext _ _ hinit

theorem isPrefix_of_notMem (h : Rewritten before cs cs') {lead : List Char} (hlead : '=' ∉ lead)
    (hinit : lead <+: cs') : lead <+: cs := by
  cases hlast : lead.getLast? with
  | none =>
    rw [List.getLast?_eq_none_iff.mp hlast]
    exact List.nil_prefix
  | some c =>
    obtain ⟨front, rfl⟩ := List.getLast?_eq_some_iff.mp hlast
    exact h.isPrefix_concat (fun hmem => hlead (List.mem_append_left [c] hmem)) hinit

/-- What stands behind a rewritten text completes no more assignments than before. -/
theorem follows (h : Rewritten before cs cs') : Follows cs cs' := by
  intro u v _ htext hinit
  cases hv : v.getLast? with
  | none =>
    rw [List.getLast?_eq_none_iff.mp hv]
    exact List.nil_prefix
  | some c =>
    obtain ⟨lead, rfl⟩ := List.getLast?_eq_some_iff.mp hv
    obtain ⟨front, hfront, hequals⟩ := htext.eq_append_equals
    rw [← List.append_assoc] at hfront
    obtain ⟨hlead, hlast⟩ := List.append_inj' hfront rfl
    obtain rfl : c = '=' := (List.cons.inj hlast).1
    refine h.isPrefix_concat (fun hmem => hequals ?_) hinit
    rw [← hlead]
    exact List.mem_append_right u hmem

/-- What ends an expression ends it after it is rewritten. -/
theorem alike (h : Rewritten before cs cs') (hcloses : Closes cs) : Alike cs cs' := by
  obtain rfl | ⟨c, rest, rfl, hc, -⟩ := hcloses
  · have hhead := h.head?_eq
    exact .inl ⟨rfl, List.head?_eq_none_iff.mp hhead⟩
  · have hnot : ∀ c ∈ enders, c ≠ 'i' ∧ c ≠ 'o' := by decide
    obtain ⟨rest', rfl, hrest⟩ := h.exists_of_cons
      (assignment_eq_none_of_head (hnot c hc).1 (hnot c hc).2)
    exact .inr ⟨c, rest, rest', rfl, rfl, hrest.head?_trimStart_eq⟩

end Rewritten

namespace RightHandSide

variable {gap expression tail tail' : List Char} {before' : Option Char}

/-- What stands behind a right-hand side: blanks, and a text that ends it. -/
theorem exists_tail (h : RightHandSide before gap expression tail) : ∃ blanks rest,
    tail = blanks ++ rest ∧ expressionAt (expression ++ tail) = expression ++ blanks ∧
      (∀ c ∈ blanks, isBlank c = true) ∧ Closes rest := by
  obtain ⟨blanks, rest, hsplit, hexpression, hblanks, hcloses⟩ :=
    exists_expression (expression ++ tail)
  rw [h.expression_eq] at hsplit hexpression
  exact ⟨blanks, rest, List.append_cancel_left hsplit, hexpression, hblanks, hcloses⟩

/-- The right-hand side that was put in is found again. -/
theorem expression_settle (h : RightHandSide before gap expression tail)
    (htail : Rewritten before' tail tail') :
    trimEnd (expressionAt (trimStart (gap ++ (settle expression ++ tail')))) =
      settle expression := by
  obtain ⟨blanks, rest, rfl, hexpression, hblanks, hcloses⟩ := h.exists_tail
  have hhead : (expression ++ tail').head? = (expression ++ (blanks ++ rest)).head? := by
    rw [List.head?_append, List.head?_append, htail.head?_eq]
  obtain ⟨rest', rfl, hrest⟩ := htail.exists_of_silent (silent_of_blanks hblanks _ _)
  have halike := hrest.alike hcloses
  rw [trimStart_append h.blanks, settle]
  split
  · next hneeds =>
    have htidy := h.tidy hneeds
    obtain ⟨c, hc, hfirst⟩ := htidy.head?_escape hneeds
    have hne : escape expression ≠ [] := by
      intro hnil
      rw [hnil] at hfirst
      cases hfirst
    have hstart : ∀ d ∈ (escape expression ++ (blanks ++ rest')).head?, isBlank d = false := by
      intro d hd
      rw [List.head?_append, hfirst] at hd
      obtain rfl := Option.some.inj hd
      have hheads : ∀ c ∈ operandHeads, isBlank c = false := by decide
      exact hheads c hc
    rw [trimStart_eq_self hstart]
    exact trimEnd_expressionAt (htidy.reads_escape hneeds) hne (htidy.getLast?_escape hneeds)
      hblanks (hcloses.of_alike halike)
  · have hkept : expressionAt ((expression ++ blanks) ++ rest) = expression ++ blanks := by
      rw [List.append_assoc]
      exact hexpression
    rw [trimStart_eq_self (by rw [hhead]; exact h.head), ← List.append_assoc,
      expressionAt_congr hkept halike, ← hexpression]
    exact h.expression_eq

/-- No assignment starts in the right-hand side that was put in. -/
theorem silent_settle (h : RightHandSide before gap expression tail)
    (hbefore : continuesWord before = false) (htail : Follows tail tail') :
    Silent before' (gap ++ settle expression) tail' := by
  rw [settle]
  split
  · next hneeds =>
    have hword := continuesWord_lastAfter h.blanks hbefore
    have hlast : ∀ c ∈ expression.getLast?, isBlank c = false := by
      rw [← h.expression_eq]
      exact getLast?_trimEnd _
    refine silent_append.mpr ⟨silent_of_blanks h.blanks _ _, ?_⟩
    exact (h.tidy hneeds).silent_escape hneeds (silent_append.mp h.silent).2 hword hlast htail
  · exact h.silent.transfer htail hbefore

end RightHandSide

end RepoAudit.Script
