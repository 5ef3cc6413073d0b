import RepoAudit.Proofs.Script.Expression

/-!
# Tidy expressions

An expression is tidy when each of its operands can be read on its own, and so can the inside of
each interpolation of a template. Escaped, such an expression is cut into the operands that were
made, and none of them needs escaping.

## Main definitions

- `closesStretches` — every interpolation of a template is met in code and closes what it opens
- `IsTidy` — an expression whose operands and interpolations can be read on their own
- `escapeOperand` — what becomes of an operand when its expression is escaped

## Main statements

- `interpolated_escapeTemplate` — how a template is rewritten
- `escape_eq` — an expression is escaped operand by operand
- `IsTidy.needsEscaping_escape` — an escaped expression needs no escaping
- `IsTidy.reads_escape` — an escaped expression is read back to where it started
-/

namespace RepoAudit.Script

open RepoAudit.Text Nesting

/-! ## Templates -/

/-- Whether a nesting is code with something around it. -/
def Nesting.isInside : Nesting → Bool
  | ⟨.code brackets braces, around, false, false⟩ =>
    brackets ≠ 0 || braces ≠ 0 || !around.isEmpty
  | _ => false

/-- Whether a template is read back to the start of an expression, where every interpolation is met
in code and can be read on its own. -/
def closesStretches (s : Nesting) : List Stretch → Bool
  | [] => s = start
  | .verbatim cs :: rest => (s.reads parts cs).any fun t => closesStretches t rest
  | .inside cs :: rest => s.isInside && decide (IsBalanced (trim cs)) && closesStretches s rest

theorem exists_of_isInside {s : Nesting} (h : s.isInside = true) : ∃ brackets braces around,
    s = ⟨.code brackets braces, around, false, false⟩ ∧
      (brackets ≠ 0 ∨ braces ≠ 0 ∨ around ≠ []) := by
  obtain ⟨frame, around, escaped, dollar⟩ := s
  cases frame with
  | code brackets braces =>
    cases escaped <;> cases dollar <;> try cases h
    refine ⟨brackets, braces, around, rfl, ?_⟩
    simpa [Nesting.isInside, or_assoc] using h
  | quoted quote => cases h
  | template => cases h

/-- A call of the helper is read back to the code in which it stands. -/
theorem reads_wrap {cs : List Char} (h : IsBalanced cs) (brackets braces : Nat)
    (around : List Frame) :
    (Nesting.mk (.code brackets braces) around false false).reads parts (wrap cs) =
      some ⟨.code brackets braces, around, false, false⟩ := by
  have hsplit : wrap cs = "sanitize(".toList ++ (cs ++ [')']) := by
    simp [wrap, helperName]
  have hopen : (Nesting.mk (.code brackets braces) around false false).reads parts
      "sanitize(".toList = some ⟨.code (brackets + 1) braces, around, false, false⟩ := by
    cases around <;> simp [reads, parts, breaks, separates, step, stepCode, reframe, backtick]
  have hclose : (Nesting.mk (.code (brackets + 1) braces) around false false).reads parts [')'] =
      some ⟨.code brackets braces, around, false, false⟩ := by
    cases around <;> simp [reads, parts, breaks, separates, step, stepCode, reframe, backtick]
  rw [hsplit]
  exact reads_append_eq_some hopen
    (reads_append_eq_some (h.reads_code (.inl (Nat.succ_ne_zero brackets))) hclose)

theorem reads_escapeInside {s : Nesting} (hs : s.isInside = true) {cs : List Char}
    (h : IsBalanced (trim cs)) : s.reads parts (escapeInside cs) = some s := by
  obtain ⟨brackets, braces, around, rfl, hinner⟩ := exists_of_isInside hs
  rw [escapeInside]
  split
  · exact h.reads_code hinner
  · exact reads_wrap h _ _ _

/-- A rewritten template is read as the template was. -/
theorem reads_escape_stretches {s : Nesting} {ss : List Stretch}
    (h : closesStretches s ss = true) : s.reads parts (ss.flatMap Stretch.escape) = some start := by
  induction ss generalizing s with
  | nil => rw [of_decide_eq_true h, List.flatMap_nil, reads_nil]
  | cons stretch ss ih =>
    rw [List.flatMap_cons]
    cases stretch with
    | verbatim cs =>
      obtain ⟨t, hread, hrest⟩ := (Option.any_eq_true _ _).mp h
      exact reads_append_eq_some hread (ih hrest)
    | inside cs =>
      simp only [closesStretches, Bool.and_eq_true, decide_eq_true_eq] at h
      exact reads_append_eq_some (reads_escapeInside h.1.1 h.1.2) (ih h.2)

theorem closesStretches_consVerbatim {s : Nesting} {c : Char} {ss : List Stretch} :
    closesStretches s (consVerbatim c ss) = true ↔
      parts s c = false ∧ closesStretches (s.step false c) ss = true := by
  have hone : ∀ rest, closesStretches s (.verbatim [c] :: rest) = true ↔
      parts s c = false ∧ closesStretches (s.step false c) rest = true := by
    intro rest
    rw [closesStretches, reads]
    cases parts s c <;> simp
  cases ss with
  | nil => exact hone []
  | cons stretch ss =>
    cases stretch with
    | verbatim cs =>
      rw [consVerbatim, closesStretches, closesStretches, reads]
      cases parts s c <;> simp
    | inside cs => exact hone _

/-- How a template is rewritten. -/
theorem exists_interpolated {s : Nesting} {copy : Nat} {cs : List Char}
    (h : closesStretches s (stretchesFrom 0 copy cs) = true) : ∃ cs', Interpolated copy cs cs' := by
  induction hlength : cs.length using Nat.strongRecOn generalizing s copy cs with
  | ind n ih =>
    cases cs with
    | nil => exact ⟨[], .nil⟩
    | cons c cs =>
      have hshorter : cs.length < n := by
        rw [← hlength]
        exact Nat.lt_succ_self _
      cases copy with
      | succ copy =>
        rw [stretchesFrom_copied, closesStretches_consVerbatim] at h
        obtain ⟨cs', hcs'⟩ := ih _ hshorter h.2 rfl
        exact ⟨_, .copied hcs'⟩
      | zero =>
        by_cases hc : c = '\\'
        · subst hc
          rw [stretchesFrom_backslash, closesStretches_consVerbatim] at h
          obtain ⟨cs', hcs'⟩ := ih _ hshorter h.2 rfl
          exact ⟨_, .backslash hcs'⟩
        by_cases hdollar : c = '$' ∧ cs.head? = some '{'
        · obtain ⟨rfl, hhead⟩ := hdollar
          obtain ⟨rest, rfl⟩ := List.head?_eq_some_iff.mp hhead
          obtain ⟨inside, rest, rfl, hinside, hend⟩ := exists_inside 0 rest
          rw [stretchesFrom_dollar hinside, closesStretches] at h
          obtain ⟨t, -, hrest⟩ := (Option.any_eq_true _ _).mp h
          simp only [closesStretches, Bool.and_eq_true, decide_eq_true_eq] at hrest
          obtain rfl | ⟨tail, rfl, hbraces⟩ := hend
          · -- An interpolation that is not closed leaves the reading inside of it.
            obtain rfl : t = start := of_decide_eq_true hrest.2
            cases hrest.1.1
          · have hless : ('}' :: tail).length < n := by
              simp only [List.length_cons, List.length_append] at hlength ⊢
              omega
            obtain ⟨cs', hcs'⟩ := ih _ hless hrest.2 rfl
            exact ⟨_, .inside hbraces hcs'⟩
        · rw [stretchesFrom_plain hc hdollar, closesStretches_consVerbatim] at h
          obtain ⟨cs', hcs'⟩ := ih _ hshorter h.2 rfl
          exact ⟨_, .plain hc hdollar hcs'⟩

/-- A template that can be read, and how it is rewritten. -/
theorem interpolated_escapeTemplate {t : List Char}
    (h : closesStretches start (stretches t) = true) : Interpolated 0 t (escapeTemplate t) := by
  obtain ⟨t', ht'⟩ := exists_interpolated h
  rw [escapeTemplate_eq, stretches, ← ht'.eq_flatMap]
  exact ht'

/-! ## Escaped expressions -/

/-- An operand that can be read on its own, as can what is interpolated in it. -/
def Operand.IsTidy : Operand → Prop
  | .literal t => IsOperand t
  | .escaped t => IsOperand t
  | .dynamic t => IsBalanced t
  | .template t => closesStretches start (stretches t) = true

instance : DecidablePred Operand.IsTidy
  | .literal t => inferInstanceAs (Decidable (IsOperand t))
  | .escaped t => inferInstanceAs (Decidable (IsOperand t))
  | .dynamic t => inferInstanceAs (Decidable (IsBalanced t))
  | .template t => inferInstanceAs (Decidable (closesStretches start (stretches t) = true))

/-- An expression whose operands and interpolations can be read on their own. -/
def IsTidy (expression : List Char) : Prop :=
  ∀ o ∈ operands expression, (classify o).IsTidy

instance : DecidablePred IsTidy :=
  fun expression => inferInstanceAs (Decidable (∀ o ∈ operands expression, (classify o).IsTidy))

/-- The operand of an escaped expression that an operand becomes. -/
def escapeOperand (operand : List Char) : List Char :=
  (classify operand).escape

theorem classify_trim (o : List Char) : classify (trim o) = classify o := by
  rw [classify, classify, trim_trim]

/-- What an operand of some kind looks like, trimmed. -/
theorem classify_cases (o : List Char) :
    (∃ quote ∈ ['\'', '"'], isQuotedBy quote (trim o) = true ∧ classify o = .literal (trim o)) ∨
    (isQuotedBy backtick (trim o) = true ∧ classify o = .template (trim o)) ∨
    (startsWithEscape (trim o) = true ∧ classify o = .escaped (trim o)) ∨
    classify o = .dynamic (trim o) := by
  rw [classify]
  split
  · next h =>
    rcases Bool.or_eq_true_iff.mp h with hquote | hquote
    · exact .inl ⟨_, by decide, hquote, rfl⟩
    · exact .inl ⟨_, by decide, hquote, rfl⟩
  split
  · next h => exact .inr (.inl ⟨h, rfl⟩)
  split
  · next h => exact .inr (.inr (.inl ⟨h, rfl⟩))
  · exact .inr (.inr (.inr rfl))

/-- An operand is a template, between its quotes, or it is none. -/
theorem classify_eq_template_or_ne (o : List Char) :
    (isQuotedBy backtick (trim o) = true ∧ classify o = .template (trim o)) ∨
      ∀ t, classify o ≠ .template t := by
  obtain ⟨quote, -, -, hkind⟩ | htemplate | ⟨-, hkind⟩ | hkind := classify_cases o
  · rw [hkind]
    exact .inr nofun
  · exact .inl htemplate
  · rw [hkind]
    exact .inr nofun
  · rw [hkind]
    exact .inr nofun

theorem isQuotedBy_iff {quote : Char} {t : List Char} : isQuotedBy quote t = true ↔
    2 ≤ t.length ∧ t.head? = some quote ∧ t.getLast? = some quote := by
  simp [isQuotedBy, and_assoc]

theorem exists_of_startsWithEscape {t : List Char} (h : startsWithEscape t = true) :
    ∃ call ∈ escapingCalls, call.toList <+: t := by
  obtain ⟨call, hcall, hstart⟩ := List.any_eq_true.mp h
  exact ⟨call, hcall, List.isPrefixOf_iff_prefix.mp hstart⟩

/-- The characters with which an operand of an escaped expression starts. -/
def operandHeads : List Char :=
  ['\'', '"', backtick, 's', 'e', 'D']

theorem head?_of_startsWithEscape {t : List Char} (h : startsWithEscape t = true) :
    ∃ c ∈ ['s', 'e', 'D'], t.head? = some c := by
  obtain ⟨call, hcall, rest, rfl⟩ := exists_of_startsWithEscape h
  have hheads : ∀ call ∈ escapingCalls, call.toList.head? ∈ ['s', 'e', 'D'].map some := by decide
  obtain ⟨c, hc, hhead⟩ := List.mem_map.mp (hheads call hcall)
  exact ⟨c, hc, by rw [List.head?_append, ← hhead]; rfl⟩

theorem startsWithEscape_wrap (t : List Char) : startsWithEscape (wrap t) = true := by
  refine List.any_eq_true.mpr ⟨"sanitize(", by decide, ?_⟩
  refine List.isPrefixOf_iff_prefix.mpr ⟨t ++ [')'], ?_⟩
  simp [wrap, helperName]

theorem getLast?_wrap (t : List Char) : (wrap t).getLast? = some ')' := by
  rw [wrap, List.getLast?_append]
  rfl

theorem trim_wrap (t : List Char) : trim (wrap t) = wrap t := by
  refine trim_eq_self ?_ fun c hc => ?_
  · rintro c ⟨⟩
    decide
  · obtain rfl := Option.some.inj ((getLast?_wrap t).symm.trans hc)
    decide

/-- A call of an escaping function has no quotes around it. -/
theorem classify_of_startsWithEscape {t : List Char} (htrim : trim t = t)
    (hescape : startsWithEscape t = true) : classify t = .escaped t := by
  obtain ⟨d, hd, hstart⟩ := head?_of_startsWithEscape hescape
  have hquotes : ∀ quote ∈ ['\'', '"', backtick], isQuotedBy quote t = false := by
    intro quote hquote
    have hne : ∀ d ∈ ['s', 'e', 'D'], ∀ quote ∈ ['\'', '"', backtick], d ≠ quote := by
      decide
    rw [Bool.eq_false_iff]
    intro hquoted
    exact hne d hd quote hquote
      (Option.some.inj (hstart.symm.trans (isQuotedBy_iff.mp hquoted).2.1))
  rw [classify, htrim, hquotes _ (by decide), hquotes _ (by decide), hquotes _ (by decide),
    hescape]
  rfl

theorem classify_wrap (t : List Char) : classify (wrap t) = .escaped (wrap t) :=
  classify_of_startsWithEscape (trim_wrap t) (startsWithEscape_wrap t)

/-- An operand that nothing stands in for is read as it is. -/
theorem isOperand_wrap {t : List Char} (h : IsBalanced t) : IsOperand (wrap t) :=
  reads_wrap h 0 0 []

theorem isOperand_escapeOperand {o : List Char} (h : (classify o).IsTidy) :
    IsOperand (escapeOperand o) := by
  rw [escapeOperand]
  cases hkind : classify o with
  | literal t =>
    rw [hkind] at h
    exact h
  | escaped t =>
    rw [hkind] at h
    exact h
  | dynamic t =>
    rw [hkind] at h
    exact isOperand_wrap h
  | template t =>
    rw [hkind] at h
    have hread := reads_escape_stretches h
    rwa [← escapeTemplate_eq] at hread

theorem Interpolated.two_le_length {copy : Nat} {cs cs' : List Char} (h : Interpolated copy cs cs')
    (hlength : 2 ≤ cs.length) : 2 ≤ cs'.length := by
  have hcons : ∀ {copy : Nat} {c : Char} {cs cs' : List Char}, Interpolated copy cs cs' →
      2 ≤ (c :: cs).length → 2 ≤ (c :: cs').length := by
    intro copy c cs cs' h hlength
    have hhead := h.head?_eq
    cases cs' with
    | nil =>
      have hnil := List.head?_eq_none_iff.mp hhead.symm
      simp [hnil] at hlength
    | cons d ds => simp
  cases h with
  | nil => exact hlength
  | copied h => exact hcons h hlength
  | backslash h => exact hcons h hlength
  | plain hc hdollar h => exact hcons h hlength
  | inside hbraces h => simp

/-- A rewritten template is quoted as the template was. -/
theorem isQuotedBy_escapeTemplate {t : List Char} (hquoted : isQuotedBy backtick t = true)
    (h : closesStretches start (stretches t) = true) :
    isQuotedBy backtick (escapeTemplate t) = true := by
  have hinter := interpolated_escapeTemplate h
  obtain ⟨hlength, hhead, hlast⟩ := isQuotedBy_iff.mp hquoted
  exact isQuotedBy_iff.mpr ⟨hinter.two_le_length hlength, hinter.head?_eq.trans hhead,
    hinter.getLast?_eq.trans hlast⟩

/-- What becomes of an operand starts with one of a few characters. -/
theorem head?_escapeOperand {o : List Char} (h : (classify o).IsTidy) :
    ∃ c ∈ operandHeads, (escapeOperand o).head? = some c := by
  rw [escapeOperand]
  obtain ⟨quote, hmem, hquoted, hkind⟩ | ⟨hquoted, hkind⟩ | ⟨hescape, hkind⟩ | hkind :=
    classify_cases o
  · have hheads : ∀ quote ∈ ['\'', '"'], quote ∈ operandHeads := by decide
    rw [hkind]
    exact ⟨quote, hheads quote hmem, (isQuotedBy_iff.mp hquoted).2.1⟩
  · rw [hkind] at h ⊢
    exact ⟨backtick, by decide, (isQuotedBy_iff.mp (isQuotedBy_escapeTemplate hquoted h)).2.1⟩
  · have hheads : ∀ c ∈ ['s', 'e', 'D'], c ∈ operandHeads := by decide
    obtain ⟨c, hc, hhead⟩ := head?_of_startsWithEscape hescape
    rw [hkind]
    exact ⟨c, hheads c hc, hhead⟩
  · rw [hkind]
    exact ⟨'s', by decide, rfl⟩

/-- What becomes of an operand ends in no blank. -/
theorem getLast?_escapeOperand {o : List Char} (h : (classify o).IsTidy) :
    ∀ c ∈ (escapeOperand o).getLast?, isBlank c = false := by
  rw [escapeOperand]
  obtain ⟨quote, hmem, hquoted, hkind⟩ | ⟨hquoted, hkind⟩ | ⟨hescape, hkind⟩ | hkind :=
    classify_cases o
  · rw [hkind]
    exact getLast?_trim o
  · rw [hkind] at h ⊢
    intro c hc
    have hlast := (isQuotedBy_iff.mp (isQuotedBy_escapeTemplate hquoted h)).2.2
    obtain rfl := Option.some.inj (hlast.symm.trans hc)
    decide
  · rw [hkind]
    exact getLast?_trim o
  · rw [hkind]
    intro c hc
    obtain rfl := Option.some.inj ((getLast?_wrap (trim o)).symm.trans hc)
    decide

theorem trim_escapeOperand {o : List Char} (h : (classify o).IsTidy) :
    trim (escapeOperand o) = escapeOperand o := by
  refine trim_eq_self (fun c hc => ?_) (getLast?_escapeOperand h)
  obtain ⟨d, hd, hhead⟩ := head?_escapeOperand h
  obtain rfl := Option.some.inj (hhead.symm.trans hc)
  have hheads : ∀ d ∈ operandHeads, isBlank d = false := by decide
  exact hheads d hd

theorem templateIsUnsafe_escapeTemplate {t : List Char}
    (h : closesStretches start (stretches t) = true) :
    templateIsUnsafe (escapeTemplate t) = false := by
  rw [templateIsUnsafe, List.any_eq_false]
  intro stretch hstretch
  cases stretch with
  | verbatim cs => simp
  | inside cs =>
    obtain ⟨inside, rfl⟩ := (interpolated_escapeTemplate h).exists_of_mem hstretch
    simp only [Bool.not_eq_true', Bool.not_eq_false]
    rw [escapeInside]
    split
    · next hescape => rwa [trim_trim]
    · rw [trim_wrap]
      exact startsWithEscape_wrap _

/-- An operand that is no template is left alone, and safe, or becomes a call of the helper. -/
theorem escapeOperand_cases {o : List Char} (h : ∀ t, classify o ≠ .template t) :
    (escapeOperand o = trim o ∧ (classify o).isUnsafe = false) ∨
      escapeOperand o = wrap (trim o) := by
  rw [escapeOperand]
  obtain ⟨quote, -, -, hkind⟩ | ⟨-, hkind⟩ | ⟨-, hkind⟩ | hkind := classify_cases o
  · rw [hkind]
    exact .inl ⟨rfl, rfl⟩
  · exact absurd hkind (h _)
  · rw [hkind]
    exact .inl ⟨rfl, rfl⟩
  · rw [hkind]
    exact .inr rfl

theorem isUnsafe_escapeOperand_of_ne {o : List Char} (h : ∀ t, classify o ≠ .template t) :
    (classify (escapeOperand o)).isUnsafe = false := by
  obtain ⟨hsame, hsafe⟩ | hwrap := escapeOperand_cases h
  · rw [hsame, classify_trim, hsafe]
  · rw [hwrap, classify_wrap]
    rfl

/-- What becomes of an operand needs no escaping. -/
theorem isUnsafe_escapeOperand {o : List Char} (h : (classify o).IsTidy) :
    (classify (escapeOperand o)).isUnsafe = false := by
  obtain ⟨hquoted, hkind⟩ | hne := classify_eq_template_or_ne o
  · have htrim := trim_escapeOperand h
    have hsame : escapeOperand o = escapeTemplate (trim o) := by
      rw [escapeOperand, hkind]
      rfl
    rw [hkind] at h
    have hquoted' := isQuotedBy_escapeTemplate hquoted h
    obtain ⟨-, hfirst, -⟩ := isQuotedBy_iff.mp hquoted'
    have hother : ∀ quote ∈ ['\'', '"'], isQuotedBy quote (escapeTemplate (trim o)) = false := by
      intro quote hquote
      have hne : ∀ quote ∈ ['\'', '"'], backtick ≠ quote := by decide
      rw [Bool.eq_false_iff]
      intro hquoted
      exact hne quote hquote (Option.some.inj (hfirst.symm.trans (isQuotedBy_iff.mp hquoted).2.1))
    rw [classify, htrim, hsame, hother _ (by decide), hother _ (by decide), hquoted']
    exact templateIsUnsafe_escapeTemplate h
  · exact isUnsafe_escapeOperand_of_ne hne

/-- An expression is escaped operand by operand. -/
theorem escape_eq {expression : List Char} (h : needsEscaping expression = true) :
    escape expression = [' ', '+', ' '].intercalate ((operands expression).map escapeOperand) := by
  rw [needsEscaping] at h
  rw [escape]
  split at h
  · next o ho =>
    rw [ho]
    rw [List.map_singleton, List.intercalate_singleton, escapeOperand]
    split at h
    · next t ht =>
      rw [ht]
      rfl
    · cases h
  · rfl

theorem needsEscaping_eq_false {expression : List Char}
    (h : ∀ o ∈ operands expression, (classify o).isUnsafe = false) :
    needsEscaping expression = false := by
  rw [needsEscaping]
  split
  · next o ho =>
    have hsafe := h o (by simp [ho])
    split
    · next t ht =>
      rw [ht] at hsafe
      exact hsafe
    · rfl
  · exact List.any_eq_false.mpr fun o ho => by simp [h o ho]

/-- An escaped expression needs no escaping. -/
theorem IsTidy.needsEscaping_escape {expression : List Char} (h : IsTidy expression)
    (hneeds : needsEscaping expression = true) : needsEscaping (escape expression) = false := by
  have hne : (operands expression).map escapeOperand ≠ [] := by
    exact mt List.map_eq_nil_iff.mp (operandsFrom_ne_nil start expression)
  have hall : ∀ e ∈ (operands expression).map escapeOperand,
      IsOperand e ∧ trim e = e ∧ (classify e).isUnsafe = false := by
    intro e he
    obtain ⟨o, ho, rfl⟩ := List.mem_map.mp he
    exact ⟨isOperand_escapeOperand (h o ho), trim_escapeOperand (h o ho),
      isUnsafe_escapeOperand (h o ho)⟩
  have hcut := isCut_of_forall hne fun e he => reads_splits_of_parts (hall e he).1
  have hoperands := map_trim_operands_intercalate hcut (List.forall_mem_nil _)
  rw [List.nil_append, ← escape_eq hneeds] at hoperands
  refine needsEscaping_eq_false fun o ho => ?_
  have htrim : trim o ∈ (operands (escape expression)).map trim := List.mem_map_of_mem ho
  rw [hoperands] at htrim
  obtain ⟨e, he, hsame⟩ := List.mem_map.mp htrim
  rw [← classify_trim, ← hsame, classify_trim]
  exact (hall e he).2.2

/-- An escaped expression is read back to where it started, and nothing in it ends an expression. -/
theorem IsTidy.reads_escape {expression : List Char} (h : IsTidy expression)
    (hneeds : needsEscaping expression = true) :
    start.reads halts (escape expression) = some start := by
  have hall : ∀ o ∈ operands expression, start.reads halts (escapeOperand o) = some start :=
    fun o ho => reads_halts_of_parts (isOperand_escapeOperand (h o ho))
  rw [escape_eq hneeds]
  generalize operands expression = os at hall
  induction os with
  | nil => rfl
  | cons o os ih =>
    obtain ⟨ho, hos⟩ := List.forall_mem_cons.mp hall
    cases os with
    | nil =>
      rw [List.map_singleton, List.intercalate_singleton]
      exact ho
    | cons o' os =>
      have hsign : start.reads halts [' ', '+', ' '] = some start := by decide
      rw [List.map_cons, List.map_cons, List.intercalate_cons_cons]
      exact reads_append_eq_some (reads_append_eq_some ho hsign) (ih hos)

/-- What is true of the first and of the last operand is true of an escaped expression. -/
theorem IsTidy.head?_escape {expression : List Char} (h : IsTidy expression)
    (hneeds : needsEscaping expression = true) :
    ∃ c ∈ operandHeads, (escape expression).head? = some c := by
  rw [escape_eq hneeds]
  obtain ⟨o, os, heq⟩ := List.exists_cons_of_ne_nil (operandsFrom_ne_nil start expression)
  have hoperands : operands expression = o :: os := heq
  obtain ⟨c, hc, hhead⟩ := head?_escapeOperand (h o (by simp [hoperands]))
  refine ⟨c, hc, ?_⟩
  rw [hoperands, List.map_cons]
  cases os with
  | nil => rwa [List.map_nil, List.intercalate_singleton]
  | cons o' os =>
    rw [List.map_cons, List.intercalate_cons_cons, List.append_assoc, List.head?_append, hhead]
    rfl

theorem getLast?_intercalate {sep e : List Char} {es : List (List Char)}
    (hlast : es.getLast? = some e) (hne : e ≠ []) : (sep.intercalate es).getLast? = e.getLast? := by
  induction es with
  | nil => cases hlast
  | cons e' es ih =>
    cases es with
    | nil =>
      have hsame : e' = e := Option.some.inj hlast
      rw [List.intercalate_singleton, hsame]
    | cons e'' es =>
      rw [List.getLast?_cons_cons] at hlast
      have hrest := ih hlast
      rw [List.intercalate_cons_cons, List.getLast?_append, hrest]
      cases he : e.getLast? with
      | none => exact absurd (List.getLast?_eq_none_iff.mp he) hne
      | some c => rfl

theorem IsTidy.getLast?_escape {expression : List Char} (h : IsTidy expression)
    (hneeds : needsEscaping expression = true) :
    ∀ c ∈ (escape expression).getLast?, isBlank c = false ∧ c ≠ '+' := by
  have hne : operands expression ≠ [] := operandsFrom_ne_nil start expression
  obtain ⟨o, ho⟩ := Option.ne_none_iff_exists'.mp (mt List.getLast?_eq_none_iff.mp hne)
  have htidy := h o (List.mem_of_getLast? ho)
  have hlast : ((operands expression).map escapeOperand).getLast? = some (escapeOperand o) := by
    rw [List.getLast?_map, ho]
    rfl
  have hnonempty : escapeOperand o ≠ [] := by
    obtain ⟨c, -, hhead⟩ := head?_escapeOperand htidy
    rintro hnil
    rw [hnil] at hhead
    cases hhead
  rw [escape_eq hneeds, getLast?_intercalate hlast hnonempty]
  intro c hc
  refine ⟨getLast?_escapeOperand htidy c hc, ?_⟩
  rintro rfl
  exact (isOperand_escapeOperand htidy).getLast?_ne_plus hc

end RepoAudit.Script
