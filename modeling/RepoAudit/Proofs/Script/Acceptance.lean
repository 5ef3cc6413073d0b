import RepoAudit.Proofs.Script.Tidy

/-!
# Accepted expressions

A concatenation or a template is accepted when none of its operands and interpolations needs
escaping. That is told from how they start and, for strings and templates, from how they end, so
whatever follows the first string, template or call is accepted with it. The operands in which
nothing follows are the safe ones: a string, a template whose interpolations are calls of escaping
functions, or such a call, and nothing else.

## Main definitions

- `StringRest`, `TemplateRest` — what follows the opening quote of a string, and of a template
  whose interpolations are escaped
- `IsEscapingCall` — a call of an escaping function that ends where its parenthesis is closed
- `IsSafeOperand` — an operand without any dynamic part outside such calls
- `isEnclosed` — what a text opens first is closed by its last character

## Main statements

- `isSafeOperand_iff_isEnclosed` — the operands of an accepted expression that are safe
-/

namespace RepoAudit.Script

open RepoAudit.Text Nesting

/-! ## Safe operands -/

/-- Whether everything open around a text is closed by its last character and not before, and no
bracket in it closes nothing. -/
def closesAtEnd (s : Nesting) : List Char → Bool
  | [] => false
  | c :: cs =>
    !s.closesNothing c &&
      if s.step false c = start then cs.isEmpty else closesAtEnd (s.step false c) cs

/-- What follows the opening quote of a string: its characters up to the first quote that no
backslash stands before, and nothing behind it. -/
inductive StringRest (quote : Char) : List Char → Prop where
  | close : StringRest quote [quote]
  | backslash (c : Char) {cs : List Char} (h : StringRest quote cs) :
    StringRest quote ('\\' :: c :: cs)
  | char {c : Char} {cs : List Char} (hquote : c ≠ quote) (hslash : c ≠ '\\')
    (h : StringRest quote cs) : StringRest quote (c :: cs)

/-- A call of an escaping function that ends where its parenthesis is closed. -/
def IsEscapingCall (t : List Char) : Prop :=
  ∃ call ∈ escapingCalls, ∃ arguments, t = call.toList ++ arguments ∧
    closesAtEnd ⟨.code 1 0, [], false, false⟩ arguments = true

/-- What follows the opening quote of a template in which every interpolation is a call of an
escaping function: its characters up to the quote that closes it, and nothing behind it. -/
inductive TemplateRest : List Char → Prop where
  | close : TemplateRest [backtick]
  | backslash (c : Char) {cs : List Char} (h : TemplateRest cs) : TemplateRest ('\\' :: c :: cs)
  | char {c : Char} {cs : List Char} (hquote : c ≠ backtick) (hslash : c ≠ '\\')
    (hdollar : ¬(c = '$' ∧ cs.head? = some '{')) (h : TemplateRest cs) : TemplateRest (c :: cs)
  | interpolation {inside cs : List Char} (hinside : IsEscapingCall (trim inside))
    (h : TemplateRest cs) : TemplateRest ('$' :: '{' :: (inside ++ '}' :: cs))

/-- An operand that is one string, one template in which every interpolation is a call of an
escaping function, or one such call. -/
inductive IsSafeOperand : List Char → Prop where
  | string {quote : Char} {rest : List Char} (hquote : quote ∈ ['\'', '"'])
    (h : StringRest quote rest) : IsSafeOperand (quote :: rest)
  | template {rest : List Char} (h : TemplateRest rest) : IsSafeOperand (backtick :: rest)
  | call {t : List Char} (h : IsEscapingCall t) : IsSafeOperand t

/-! ## Enclosed terms -/

/-- The quotes and brackets that open something. -/
def openers : List Char :=
  ['\'', '"', backtick, '(', '[', '{']

/-- Whether the first quote or bracket that a text opens is closed by its last character. -/
def isEnclosed : List Char → Bool
  | [] => false
  | c :: cs => if c ∈ openers then closesAtEnd (start.step false c) cs else isEnclosed cs

/-- The insides of the interpolations of an operand that is a template. -/
def insides (operand : List Char) : List (List Char) :=
  match classify operand with
  | .template t => (stretches t).filterMap fun
    | .inside cs => some (trim cs)
    | .verbatim _ => none
  | _ => []

/-- An expression that is a template or a concatenation. -/
def IsBuilt (expression : List Char) : Prop :=
  2 ≤ (operands expression).length ∨
    ∃ o t, operands expression = [o] ∧ classify o = .template t

/-! ## Strings -/

variable {s t : Nesting} {c : Char} {cs rest : List Char}

/-- As long as something is open, the text goes on. -/
theorem closesAtEnd_cons (hc : s.closesNothing c = false) (hstep : s.step false c = t)
    (ht : t ≠ start) : closesAtEnd s (c :: cs) = closesAtEnd t cs := by
  rw [closesAtEnd, hc, hstep, if_neg ht, Bool.not_false, Bool.true_and]

/-- Where everything is closed, the text ends. -/
theorem closesAtEnd_cons_start (hc : s.closesNothing c = false) (hstep : s.step false c = start) :
    closesAtEnd s (c :: cs) = true ↔ cs = [] := by
  rw [closesAtEnd, hc, hstep, if_pos rfl, Bool.not_false, Bool.true_and, List.isEmpty_iff]

/-- The nesting inside a string. -/
def inString (quote : Char) (escaped : Bool) : Nesting :=
  ⟨.quoted quote, [.code 0 0], escaped, false⟩

theorem inString_ne_start (quote : Char) (escaped : Bool) : inString quote escaped ≠ start := by
  simp [inString, start]

theorem closesAtEnd_backslash {quote : Char} :
    closesAtEnd (inString quote false) ('\\' :: c :: cs) = closesAtEnd (inString quote false) cs :=
  (closesAtEnd_cons (t := inString quote true) rfl rfl (inString_ne_start quote true)).trans
    (closesAtEnd_cons rfl rfl (inString_ne_start quote false))

theorem closesAtEnd_quote {quote : Char} (hslash : quote ≠ '\\') :
    closesAtEnd (inString quote false) (quote :: cs) = true ↔ cs = [] :=
  closesAtEnd_cons_start rfl (by simp [inString, step, pop, start, hslash])

theorem closesAtEnd_char {quote : Char} (hquote : c ≠ quote) (hslash : c ≠ '\\') :
    closesAtEnd (inString quote false) (c :: cs) = closesAtEnd (inString quote false) cs :=
  closesAtEnd_cons rfl (by simp [inString, step, hquote, hslash]) (inString_ne_start quote false)

/-- A string is closed by the last character of a text. -/
theorem closesAtEnd_inString_iff {quote : Char} (hslash : quote ≠ '\\') :
    closesAtEnd (inString quote false) cs = true ↔ StringRest quote cs := by
  constructor
  · intro h
    induction hlength : cs.length using Nat.strongRecOn generalizing cs with
    | ind n ih =>
      cases cs with
      | nil => cases h
      | cons c cs =>
        by_cases hc : c = '\\'
        · subst hc
          cases cs with
          | nil => cases h
          | cons d cs =>
            rw [closesAtEnd_backslash] at h
            refine .backslash d (ih cs.length ?_ h rfl)
            rw [← hlength, List.length_cons, List.length_cons]
            omega
        by_cases hquote : c = quote
        · subst hquote
          obtain rfl := (closesAtEnd_quote hslash).mp h
          exact .close
        · rw [closesAtEnd_char hquote hc] at h
          refine .char hquote hc (ih cs.length ?_ h rfl)
          rw [← hlength]
          exact Nat.lt_succ_self _
  · intro h
    induction h with
    | close => exact (closesAtEnd_quote hslash).mpr rfl
    | backslash c h ih => rw [closesAtEnd_backslash, ih]
    | char hquote hslash h ih => rw [closesAtEnd_char hquote hslash, ih]

/-! ## Calls -/

/-- The reading of a text that is closed by its last character ends where an expression starts. -/
theorem reads_of_closesAtEnd (h : closesAtEnd s cs = true) :
    s.reads closesNothing cs = some start := by
  induction cs generalizing s with
  | nil => cases h
  | cons c cs ih =>
    rw [closesAtEnd, Bool.and_eq_true, Bool.not_eq_true'] at h
    obtain ⟨hc, hrest⟩ := h
    refine reads_cons_eq_some.mpr ⟨hc, ?_⟩
    split at hrest
    · next hstart => rw [hstart, List.isEmpty_iff.mp hrest, reads_nil]
    · exact ih hrest

theorem reads_call {call : String} (h : call ∈ escapingCalls) :
    start.reads closesNothing call.toList = some ⟨.code 1 0, [], false, false⟩ := by
  have hall : ∀ call ∈ escapingCalls,
      start.reads closesNothing call.toList = some ⟨.code 1 0, [], false, false⟩ := by decide
  exact hall call h

theorem isEnclosed_call {call : String} (h : call ∈ escapingCalls) (arguments : List Char) :
    isEnclosed (call.toList ++ arguments) =
      closesAtEnd ⟨.code 1 0, [], false, false⟩ arguments := by
  simp only [escapingCalls, List.mem_cons, List.not_mem_nil, or_false] at h
  rcases h with rfl | rfl | rfl | rfl <;> rfl

/-- What starts like a call of an escaping function is one if it is enclosed. -/
theorem isEscapingCall_iff {t : List Char} (hescape : startsWithEscape t = true) :
    IsEscapingCall t ↔ isEnclosed t = true := by
  constructor
  · rintro ⟨call, hcall, arguments, rfl, h⟩
    rwa [isEnclosed_call hcall]
  · intro h
    obtain ⟨call, hcall, arguments, rfl⟩ := exists_of_startsWithEscape hescape
    rw [isEnclosed_call hcall] at h
    exact ⟨call, hcall, arguments, rfl, h⟩

theorem IsEscapingCall.reads {t : List Char} (h : IsEscapingCall t) :
    start.reads closesNothing t = some start := by
  obtain ⟨call, hcall, arguments, rfl, hclosed⟩ := h
  exact reads_append_eq_some (reads_call hcall) (reads_of_closesAtEnd hclosed)

theorem reads_of_blanks (h : ∀ c ∈ cs, isBlank c = true) :
    start.reads closesNothing cs = some start := by
  refine reads_blanks (fun c hc => ?_) h
  have hmarks := notMem_codeMarks_of_isBlank hc
  simp only [codeMarks, List.mem_cons, List.not_mem_nil, or_false, not_or] at hmarks
  simp [closesNothing, start, hmarks]

/-- The inside of an interpolation that is a call is read back to the code in which it stands. -/
theorem IsEscapingCall.reads_inside {inside : List Char} (h : IsEscapingCall (trim inside)) :
    start.reads closesNothing inside = some start := by
  obtain ⟨lead, tail, hinside, hlead, htail⟩ := exists_trim inside
  rw [hinside]
  exact reads_append_eq_some (reads_append_eq_some (reads_of_blanks hlead) h.reads)
    (reads_of_blanks htail)

/-! ## Templates -/

/-! Inside of something, the reading does not come back to the start of an expression, and no
bracket closes nothing. -/

theorem Nesting.Within.outer_ne_nil {brackets braces : Nat} {around : List Frame}
    (h : Within brackets braces around s t) (haround : around ≠ []) : t.outer ≠ [] := by
  obtain ⟨hframes, -, -⟩ := h
  obtain ⟨frame, frames, escaped, dollar⟩ := t
  generalize s.frame :: s.outer = fs at hframes
  cases hframes with
  | code b k => exact haround
  | cons f h => exact h.ne_nil.2

theorem Nesting.Within.ne_start {brackets braces : Nat} {around : List Frame}
    (h : Within brackets braces around s t) (haround : around ≠ []) : t ≠ start := by
  rintro rfl
  exact h.outer_ne_nil haround rfl

theorem Nesting.Within.closesNothing_eq {brackets braces : Nat} {around : List Frame}
    (h : Within brackets braces around s t) (haround : around ≠ []) (c : Char) :
    t.closesNothing c = false := by
  obtain ⟨f, fs, hframes⟩ := List.exists_cons_of_ne_nil (h.outer_ne_nil haround)
  rw [closesNothing, hframes]
  cases t.frame <;> rfl

/-- Inside of something, a text that is read on its own closes nothing of what stands around. -/
theorem Nesting.Within.closesAtEnd_append {brackets braces : Nat} {around : List Frame}
    {u : Nesting} (h : Within brackets braces around s t) (haround : around ≠ [])
    (hcs : s.reads closesNothing cs = some u) (rest : List Char) :
    ∃ v, Within brackets braces around u v ∧ closesAtEnd t (cs ++ rest) = closesAtEnd v rest := by
  induction cs generalizing s t with
  | nil =>
    cases hcs
    exact ⟨t, h, rfl⟩
  | cons c cs ih =>
    obtain ⟨hc, hcs⟩ := reads_cons_eq_some.mp hcs
    have hnext := h.step hc
    obtain ⟨v, hv, hsame⟩ := ih hnext hcs
    refine ⟨v, hv, ?_⟩
    rw [List.cons_append, closesAtEnd_cons (h.closesNothing_eq haround c) rfl
      (hnext.ne_start haround), hsame]

/-- The nesting directly inside a template. -/
def inTemplate (escaped dollar : Bool) : Nesting :=
  ⟨.template, [.code 0 0], escaped, dollar⟩

/-- The nesting at the start of an interpolation of that template. -/
def inInterpolation : Nesting :=
  ⟨.code 0 0, [.template, .code 0 0], false, false⟩

theorem inTemplate_ne_start (escaped dollar : Bool) : inTemplate escaped dollar ≠ start := by
  simp [inTemplate, start]

theorem closesAtEnd_inTemplate_backslash {dollar : Bool} :
    closesAtEnd (inTemplate false dollar) ('\\' :: c :: cs) =
      closesAtEnd (inTemplate false false) cs :=
  (closesAtEnd_cons (t := inTemplate true false) rfl (by cases dollar <;> rfl)
    (inTemplate_ne_start _ _)).trans (closesAtEnd_cons rfl rfl (inTemplate_ne_start _ _))

theorem closesAtEnd_inTemplate_backtick {dollar : Bool} :
    closesAtEnd (inTemplate false dollar) (backtick :: cs) = true ↔ cs = [] :=
  closesAtEnd_cons_start rfl (by cases dollar <;> rfl)

theorem closesAtEnd_inTemplate_char {dollar : Bool} (hopen : dollar = true → c ≠ '{')
    (hquote : c ≠ backtick) (hslash : c ≠ '\\') :
    closesAtEnd (inTemplate false dollar) (c :: cs) =
      closesAtEnd (inTemplate false (c = '$')) cs := by
  refine closesAtEnd_cons rfl ?_ (inTemplate_ne_start _ _)
  have hbrace : ¬(dollar = true ∧ c = '{') := fun h => hopen h.1 h.2
  simp [inTemplate, step, hbrace, hslash, hquote]

/-- An interpolation that is a call ends at the brace behind it. -/
theorem closesAtEnd_interpolation {dollar : Bool} {inside : List Char}
    (hinside : IsEscapingCall (trim inside)) (rest : List Char) :
    closesAtEnd (inTemplate false dollar) ('$' :: '{' :: (inside ++ rest)) =
      closesAtEnd inInterpolation rest := by
  have hinner : Within 0 0 [.template, .code 0 0] start inInterpolation := within_start
  obtain ⟨v, hv, hsame⟩ :=
    hinner.closesAtEnd_append (List.cons_ne_nil _ _) hinside.reads_inside rest
  rw [hv.eq_code] at hsame
  rw [closesAtEnd_inTemplate_char (fun _ => by decide) (by decide) (by decide),
    closesAtEnd_cons (t := inInterpolation) rfl rfl (by decide)]
  exact hsame

theorem closesAtEnd_inInterpolation :
    closesAtEnd inInterpolation ('}' :: cs) = closesAtEnd (inTemplate false false) cs :=
  closesAtEnd_cons rfl rfl (inTemplate_ne_start _ _)

/-- Where no dollar sign stands before it, a text may start with a brace. -/
theorem head?_ne_of_false (cs : List Char) : false = true → cs.head? ≠ some '{' :=
  nofun

/-- A template that is closed by the last character of a text, where the inside of every
interpolation is a call of an escaping function. -/
theorem templateRest_of_closesAtEnd {dollar : Bool}
    (hdollar : dollar = true → cs.head? ≠ some '{')
    (h : closesAtEnd (inTemplate false dollar) cs = true)
    (hinside : ∀ inside, .inside inside ∈ stretchesFrom 0 0 cs → IsEscapingCall (trim inside)) :
    TemplateRest cs := by
  -- An interpolation is left behind as a whole, so the induction is on the length of the text.
  induction hlength : cs.length using Nat.strongRecOn generalizing dollar cs with
  | ind n ih =>
    cases cs with
    | nil => cases h
    | cons c cs =>
      by_cases hslash : c = '\\'
      · subst hslash
        cases cs with
        | nil => cases dollar <;> cases h
        | cons d cs =>
          rw [closesAtEnd_inTemplate_backslash] at h
          refine .backslash d
            (ih cs.length ?_ (head?_ne_of_false cs) h (fun inside hmem => ?_) rfl)
          · rw [← hlength, List.length_cons, List.length_cons]
            omega
          · refine hinside inside ?_
            rw [stretchesFrom_backslash, mem_consVerbatim, stretchesFrom_copied, mem_consVerbatim]
            exact hmem
      by_cases hquote : c = backtick
      · subst hquote
        obtain rfl := closesAtEnd_inTemplate_backtick.mp h
        exact .close
      by_cases hmark : c = '$' ∧ cs.head? = some '{'
      · obtain ⟨rfl, hhead⟩ := hmark
        obtain ⟨rest, rfl⟩ := List.head?_eq_some_iff.mp hhead
        obtain ⟨inside, rest, rfl, hextent, hend⟩ := exists_inside 0 rest
        have hcall : IsEscapingCall (trim inside) := by
          refine hinside inside ?_
          rw [stretchesFrom_dollar hextent]
          exact List.mem_cons_of_mem _ List.mem_cons_self
        rw [closesAtEnd_interpolation hcall] at h
        obtain rfl | ⟨tail, rfl, -⟩ := hend
        · cases h
        rw [closesAtEnd_inInterpolation] at h
        refine .interpolation hcall
          (ih tail.length ?_ (head?_ne_of_false tail) h (fun inner hmem => ?_) rfl)
        · rw [← hlength]
          simp only [List.length_cons, List.length_append]
          omega
        · refine hinside inner ?_
          rw [stretchesFrom_dollar hextent, stretchesFrom_plain (by decide) (by simp)]
          exact List.mem_cons_of_mem _ (List.mem_cons_of_mem _ (mem_consVerbatim.mpr hmem))
      · have hopen : dollar = true → c ≠ '{' := fun hd hc => hdollar hd (by rw [hc]; rfl)
        rw [closesAtEnd_inTemplate_char hopen hquote hslash] at h
        refine .char hquote hslash hmark (ih cs.length ?_ (fun hd hhead => ?_) h
          (fun inside hmem => ?_) rfl)
        · rw [← hlength]
          exact Nat.lt_succ_self _
        · exact hmark ⟨of_decide_eq_true hd, hhead⟩
        · refine hinside inside ?_
          rw [stretchesFrom_plain hslash hmark]
          exact mem_consVerbatim.mpr hmem

/-- A template whose interpolations are calls is closed by its last character. -/
theorem TemplateRest.closesAtEnd_eq (h : TemplateRest cs) {dollar : Bool}
    (hdollar : dollar = true → cs.head? ≠ some '{') :
    closesAtEnd (inTemplate false dollar) cs = true := by
  induction h generalizing dollar with
  | close => exact closesAtEnd_inTemplate_backtick.mpr rfl
  | backslash c h ih => rw [closesAtEnd_inTemplate_backslash, ih (head?_ne_of_false _)]
  | char hquote hslash hmark h ih =>
    rw [closesAtEnd_inTemplate_char (fun hd hc => hdollar hd (by rw [hc]; rfl)) hquote hslash]
    exact ih fun hd hhead => hmark ⟨of_decide_eq_true hd, hhead⟩
  | interpolation hinside h ih =>
    rw [closesAtEnd_interpolation hinside, closesAtEnd_inInterpolation,
      ih (head?_ne_of_false _)]

/-! ## Accepted expressions -/

/-- Every operand of an accepted template or concatenation is taken for safe. -/
theorem isUnsafe_eq_false_of_accepted {expression : List Char}
    (h : needsEscaping expression = false) (hbuilt : IsBuilt expression) :
    ∀ o ∈ operands expression, (classify o).isUnsafe = false := by
  rw [needsEscaping] at h
  obtain hmany | ⟨o, t, hone, hkind⟩ := hbuilt
  · split at h
    · next o ho =>
      rw [ho] at hmany
      exact absurd hmany (by simp)
    · intro o ho
      exact Bool.eq_false_iff.mpr (List.any_eq_false.mp h o ho)
  · intro o' ho'
    rw [hone] at ho'
    obtain rfl := List.mem_singleton.mp ho'
    rw [hone] at h
    simp only [hkind] at h
    rw [hkind]
    exact h

theorem isEnclosed_string {quote : Char} (hquote : quote ∈ ['\'', '"']) :
    isEnclosed (quote :: rest) = true ↔ StringRest quote rest := by
  have hopens : ∀ quote ∈ ['\'', '"'], quote ∈ openers ∧ quote ≠ '\\' ∧
      start.step false quote = inString quote false := by decide
  obtain ⟨hopener, hslash, hstep⟩ := hopens quote hquote
  rw [isEnclosed, if_pos hopener, hstep, closesAtEnd_inString_iff hslash]

theorem IsSafeOperand.isEnclosed_eq {t : List Char} (h : IsSafeOperand t) :
    isEnclosed t = true := by
  cases h with
  | string hquote h => exact (isEnclosed_string hquote).mpr h
  | template h => exact h.closesAtEnd_eq (head?_ne_of_false _)
  | call h =>
    obtain ⟨call, hcall, arguments, rfl, hclosed⟩ := h
    rwa [isEnclosed_call hcall]

/-- An operand that is taken for safe is safe if it is enclosed. -/
theorem isSafeOperand_of_isEnclosed {o : List Char} (hne : trim o ≠ [])
    (hsafe : (classify o).isUnsafe = false) (hinside : ∀ t ∈ insides o, isEnclosed t = true)
    (h : isEnclosed (trim o) = true) : IsSafeOperand (trim o) := by
  obtain ⟨quote, hmem, hquoted, -⟩ | ⟨hquoted, hkind⟩ | ⟨hescape, -⟩ | hkind := classify_cases o
  · obtain ⟨rest, hrest⟩ := List.head?_eq_some_iff.mp (isQuotedBy_iff.mp hquoted).2.1
    rw [hrest] at h ⊢
    exact .string hmem ((isEnclosed_string hmem).mp h)
  · obtain ⟨rest, hrest⟩ := List.head?_eq_some_iff.mp (isQuotedBy_iff.mp hquoted).2.1
    rw [hkind, Operand.isUnsafe, templateIsUnsafe, List.any_eq_false] at hsafe
    have hcalls : ∀ inside, .inside inside ∈ stretches (trim o) → IsEscapingCall (trim inside) := by
      intro inside hmem
      refine (isEscapingCall_iff (by simpa using hsafe _ hmem)).mpr (hinside _ ?_)
      rw [insides, hkind]
      exact List.mem_filterMap.mpr ⟨_, hmem, rfl⟩
    rw [hrest] at h hcalls ⊢
    refine .template (templateRest_of_closesAtEnd (head?_ne_of_false rest) h fun inside hmem => ?_)
    refine hcalls inside ?_
    have hmark : ¬(backtick = '$' ∧ rest.head? = some '{') := fun hc => absurd hc.1 (by decide)
    rw [stretches, stretchesFrom_plain (by decide) hmark]
    exact mem_consVerbatim.mpr hmem
  · exact .call ((isEscapingCall_iff hescape).mpr h)
  · rw [hkind, Operand.isUnsafe] at hsafe
    exact absurd hsafe (by simpa using hne)

/-- An operand of an accepted template or concatenation is one string, one template in which every
interpolation is a call of an escaping function, or one such call, exactly if what it opens first is
closed by its last character. So it must be in the interpolations, too. -/
theorem isSafeOperand_iff_isEnclosed {expression : List Char}
    (haccepted : needsEscaping expression = false) (hbuilt : IsBuilt expression)
    (hinside : ∀ o ∈ operands expression, ∀ t ∈ insides o, isEnclosed t = true) :
    ∀ o ∈ operands expression, trim o ≠ [] →
      (IsSafeOperand (trim o) ↔ isEnclosed (trim o) = true) := by
  intro o ho hne
  refine ⟨IsSafeOperand.isEnclosed_eq, ?_⟩
  exact isSafeOperand_of_isEnclosed hne (isUnsafe_eq_false_of_accepted haccepted hbuilt o ho)
    (hinside o ho)

/-- A string, a call, and a template around one. -/
def escapedGreeting : List Char :=
  "'<b>' + sanitize(x) + \x60<i>$\x7bescape(f(y))\x7d</i>\x60".toList

theorem isSafeOperand_iff_escapedGreeting :
    needsEscaping escapedGreeting = false ∧ IsBuilt escapedGreeting ∧
      (∀ o ∈ operands escapedGreeting, ∀ t ∈ insides o, isEnclosed t = true) ∧
      ∀ o ∈ operands escapedGreeting, trim o ≠ [] →
        (IsSafeOperand (trim o) ↔ isEnclosed (trim o) = true) := by
  have haccepted : needsEscaping escapedGreeting = false := by decide +kernel
  have hbuilt : IsBuilt escapedGreeting := .inl (by decide +kernel)
  have hinside : ∀ o ∈ operands escapedGreeting, ∀ t ∈ insides o, isEnclosed t = true := by
    decide +kernel
  exact ⟨haccepted, hbuilt, hinside, isSafeOperand_iff_isEnclosed haccepted hbuilt hinside⟩

/-- An operand that starts with a call is accepted with whatever follows the call. -/
theorem not_isSafeOperand_of_accepted :
    ¬∀ expression, needsEscaping expression = false → IsBuilt expression →
      ∀ o ∈ operands expression, trim o ≠ [] → IsSafeOperand (trim o) := by
  intro h
  have hoperand := h "'<b>' + sanitize(x) || y".toList (by decide +kernel)
    (.inl (by decide +kernel)) " sanitize(x) || y".toList (by decide +kernel) (by decide +kernel)
  exact absurd hoperand.isEnclosed_eq (by decide +kernel)

end RepoAudit.Script
