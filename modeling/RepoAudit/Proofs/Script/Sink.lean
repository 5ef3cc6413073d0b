import RepoAudit.Proofs.Text.Blank
import RepoAudit.Proofs.Text.Match
import RepoAudit.Script.Sink

/-!
# Where sinks stand

The offsets of a sink are those of its right-hand side in the text that was searched.

## Main definitions

- `Assigns` — a text that names a markup property and assigns to it
- `Sink.StandsIn` — the right-hand side of a sink stands where the sink says

## Main statements

- `assignment_eq_some` — what the search for assignments recognises
- `standsIn_of_mem_sinks` — every sink of a text stands in it
-/

namespace RepoAudit.Script

open RepoAudit.Text

/-- The signs that assign to a property. -/
def assignmentSigns : List (List Char) := [['='], ['+', '=']]

/-- A markup property, blanks and a sign that assigns to it. -/
def Assigns (text : List Char) : Prop :=
  ∃ property ∈ sinkProperties, ∃ blanks, (∀ c ∈ blanks, isBlank c = true) ∧
    ∃ sign ∈ assignmentSigns, text = property.toList ++ blanks ++ sign

theorem Assigns.ne_nil {text : List Char} (h : Assigns text) : text ≠ [] := by
  obtain ⟨property, -, blanks, -, sign, hsign, rfl⟩ := h
  have hne : sign ≠ [] := by
    rintro rfl
    revert hsign
    decide
  simp [hne]

/-- An assignment ends with its equals sign, which is the only one in it. -/
theorem Assigns.eq_append_equals {text : List Char} (h : Assigns text) :
    ∃ lead, text = lead ++ ['='] ∧ '=' ∉ lead := by
  obtain ⟨property, hproperty, blanks, hblanks, sign, hsign, rfl⟩ := h
  have hname : '=' ∉ property.toList := by
    revert property
    decide
  have hgap : '=' ∉ blanks := fun hmem => by
    have := hblanks _ hmem
    revert this
    decide
  simp only [assignmentSigns, List.mem_cons, List.not_mem_nil, or_false] at hsign
  rcases hsign with rfl | rfl
  · exact ⟨property.toList ++ blanks, rfl, by simp [hname, hgap]⟩
  · exact ⟨property.toList ++ blanks ++ ['+'], by simp, by simp [hname, hgap]⟩

theorem trimStart_sign {blanks sign : List Char} (hblanks : ∀ c ∈ blanks, isBlank c = true)
    (hsign : sign ∈ assignmentSigns) (rest : List Char) :
    trimStart (blanks ++ sign ++ rest) = sign ++ rest := by
  have hhead : ∀ c ∈ (sign ++ rest).head?, isBlank c = false := by
    simp only [assignmentSigns, List.mem_cons, List.not_mem_nil, or_false] at hsign
    rcases hsign with rfl | rfl
    · rintro c ⟨⟩
      decide
    · rintro c ⟨⟩
      decide
  rw [List.append_assoc, trimStart_append hblanks, trimStart_eq_self hhead]

theorem afterAssignment?_append {text : List Char} (h : Assigns text) (rest : List Char) :
    afterAssignment? (text ++ rest) = some rest := by
  obtain ⟨property, hproperty, blanks, hblanks, sign, hsign, rfl⟩ := h
  have hrest := trimStart_sign hblanks hsign rest
  have hafter : after? property.toList (property.toList ++ blanks ++ sign ++ rest) =
      some (blanks ++ sign ++ rest) := by
    rw [after?_eq_some]
    simp only [List.append_assoc]
  have hsigns : sign = ['='] ∨ sign = ['+', '='] := by simpa [assignmentSigns] using hsign
  simp only [sinkProperties, List.mem_cons, List.not_mem_nil, or_false] at hproperty
  rw [afterAssignment?, sinkProperties, List.findSome?_cons]
  rcases hproperty with rfl | rfl
  · rw [hafter, Option.bind_some, hrest]
    rcases hsigns with rfl | rfl <;> rfl
  · have hother : after? "innerHTML".toList ("outerHTML".toList ++ blanks ++ sign ++ rest) =
        none := by
      rw [after?, if_neg (by simp)]
    rw [hother, Option.bind_none, List.findSome?_cons, hafter, Option.bind_some, hrest]
    rcases hsigns with rfl | rfl <;> rfl

theorem afterAssignment?_eq_some {cs rest : List Char} :
    afterAssignment? cs = some rest ↔ ∃ text, Assigns text ∧ cs = text ++ rest := by
  constructor
  · intro h
    obtain ⟨property, hproperty, hafter⟩ := List.exists_of_findSome?_eq_some h
    obtain ⟨tail, htail, hsign⟩ := Option.bind_eq_some_iff.mp hafter
    obtain ⟨sign, hmem, hrest⟩ : ∃ sign ∈ assignmentSigns, trimStart tail = sign ++ rest := by
      split at hsign
      · next htrim =>
        obtain rfl := Option.some.inj hsign
        exact ⟨['+', '='], by decide, htrim⟩
      · next htrim =>
        obtain rfl := Option.some.inj hsign
        exact ⟨['='], by decide, htrim⟩
      · cases hsign
    refine ⟨property.toList ++ indent tail ++ sign,
      ⟨property, hproperty, indent tail, fun c => isBlank_of_mem_indent, sign, hmem, rfl⟩, ?_⟩
    rw [after?_eq_some.mp htail, List.append_assoc, List.append_assoc, ← hrest,
      indent_append_trimStart]
  · rintro ⟨text, htext, rfl⟩
    exact afterAssignment?_append htext rest

/-- The search for assignments yields what follows one. -/
theorem assignment_eq_some {before : Option Char} {cs rest : List Char} {n : Nat} :
    assignment before cs = some (rest, n) ↔ continuesWord before = false ∧
      ∃ text, Assigns text ∧ cs = text ++ rest ∧ n = text.length := by
  rw [assignment]
  cases hword : continuesWord before with
  | true => simp
  | false =>
    simp only [Bool.false_eq_true, if_false, Option.map_eq_some_iff, Prod.mk.injEq,
      afterAssignment?_eq_some, true_and]
    constructor
    · rintro ⟨rest', ⟨text, htext, rfl⟩, rfl, rfl⟩
      exact ⟨text, htext, rfl, by simp⟩
    · rintro ⟨text, htext, rfl, rfl⟩
      exact ⟨rest, ⟨text, htext, rfl⟩, rfl, by simp⟩

theorem fits_assignment : assignment.Fits := by
  intro before cs rest n h
  obtain ⟨-, text, htext, rfl, rfl⟩ := assignment_eq_some.mp h
  exact ⟨List.length_pos_iff.mpr htext.ne_nil, by simp⟩

/-- The right-hand side of a sink stands in a text that follows a byte offset, at the offsets that
the sink gives. -/
def Sink.StandsIn (s : Sink) (offset : Nat) (cs : List Char) : Prop :=
  ∃ lead tail, cs = lead ++ s.expression ++ tail ∧ s.start = offset + byteLength lead ∧
    s.stop = s.start + byteLength s.expression

theorem Sink.StandsIn.append {s : Sink} {offset : Nat} {cs : List Char} (text : List Char)
    (h : s.StandsIn (offset + byteLength text) cs) : s.StandsIn offset (text ++ cs) := by
  obtain ⟨lead, tail, rfl, hstart, hstop⟩ := h
  refine ⟨text ++ lead, tail, by simp only [List.append_assoc], ?_, hstop⟩
  rw [hstart, byteLength_append, Nat.add_assoc]

/-- The right-hand side of a sink follows the blanks behind the equals sign. -/
theorem sinkAfter?_eq_some {offset line : Nat} {rest : List Char} {s : Sink}
    (h : sinkAfter? offset line rest = some s) :
    ∃ tail, rest = indent rest ++ (s.expression ++ tail) ∧
      s.start = offset + byteLength (indent rest) ∧
      s.stop = s.start + byteLength s.expression ∧ s.line = line := by
  rw [sinkAfter?] at h
  split at h
  · cases h
  · simp only [Option.ite_none_left_eq_some, Option.some.injEq] at h
    obtain ⟨-, rfl⟩ := h
    have hfront : trimEnd (expressionAt (trimStart rest)) <+: trimStart rest :=
      (trimEnd_isPrefix _).trans (List.take_prefix _ _)
    obtain ⟨tail, htail⟩ := hfront
    exact ⟨tail, by rw [htail, indent_append_trimStart], rfl, rfl, rfl⟩

/-- The right-hand side of a sink is what stands behind an assignment that is no comparison,
trimmed, and it is not empty. -/
theorem expression_of_sinkAfter? {offset line : Nat} {rest : List Char} {s : Sink}
    (h : sinkAfter? offset line rest = some s) :
    rest.head? ≠ some '=' ∧ s.expression = trimEnd (expressionAt (trimStart rest)) ∧
      s.expression ≠ [] := by
  rw [sinkAfter?] at h
  split at h
  · cases h
  · next hequals =>
    simp only [Option.ite_none_left_eq_some, Option.some.injEq, List.isEmpty_iff] at h
    obtain ⟨hne, rfl⟩ := h
    exact ⟨by simpa using hequals, rfl, hne⟩

/-- Every sink stands behind an assignment that was found. -/
theorem exists_found_of_mem_sinksOf {ps : List (Piece (List Char))} {offset line : Nat} {s : Sink}
    (h : s ∈ sinksOf offset line ps) :
    ∃ rest text next above, .found rest text ∈ ps ∧ sinkAfter? next above rest = some s := by
  induction ps generalizing offset line with
  | nil => cases h
  | cons p ps ih =>
    have hlater : ∀ {offset line : Nat}, s ∈ sinksOf offset line ps → ∃ rest text next above,
        .found rest text ∈ p :: ps ∧ sinkAfter? next above rest = some s := by
      intro offset line hs
      obtain ⟨rest, text, next, above, hmem, hsink⟩ := ih hs
      exact ⟨rest, text, next, above, List.mem_cons_of_mem p hmem, hsink⟩
    cases p with
    | plain c => exact hlater h
    | found rest text =>
      rcases List.mem_append.mp h with hs | hs
      · exact ⟨rest, text, _, _, List.mem_cons_self, Option.mem_toList.mp hs⟩
      · exact hlater hs

theorem standsIn_of_sinkAfter? {offset line : Nat} {rest : List Char} {s : Sink}
    (h : sinkAfter? offset line rest = some s) : s.StandsIn offset rest := by
  obtain ⟨tail, hrest, hstart, hstop, -⟩ := sinkAfter?_eq_some h
  exact ⟨indent rest, tail, by rw [List.append_assoc, ← hrest], hstart, hstop⟩

theorem standsIn_of_mem_sinksOf {before : Option Char} {cs : List Char}
    {ps : List (Piece (List Char))} (h : Cut assignment before cs ps) {offset line : Nat}
    {s : Sink} (hs : s ∈ sinksOf offset line ps) : s.StandsIn offset cs := by
  induction h generalizing offset line with
  | done => cases hs
  | @plain _ c cs _ _ _ ih =>
    rw [sinksOf] at hs
    exact (ih hs).append [c]
  | @found _ value text rest _ _ hmatch _ ih =>
    obtain ⟨-, text', -, happend, hlength⟩ := assignment_eq_some.mp hmatch
    obtain ⟨rfl, rfl⟩ := List.append_inj happend hlength
    rw [sinksOf] at hs
    rcases List.mem_append.mp hs with hs | hs
    · exact (standsIn_of_sinkAfter? (Option.mem_toList.mp hs)).append text
    · exact (ih hs).append text

/-- Every sink of a text stands in it. -/
theorem standsIn_of_mem_sinks {cs : List Char} {s : Sink} (h : s ∈ sinks cs) : s.StandsIn 0 cs :=
  standsIn_of_mem_sinksOf (fits_assignment.cut cs) h

end RepoAudit.Script
