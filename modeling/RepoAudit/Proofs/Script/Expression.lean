import RepoAudit.Proofs.Script.Nesting
import RepoAudit.Script.Expression

/-!
# Operands and interpolations

An expression is the join of its operands, and operands that can be read on their own are found
again in their join. A template whose interpolations are sent through the helper is cut into
stretches where it was cut before.

## Main definitions

- `IsCut` — texts that are read as the operands of one expression
- `Interpolated` — a template, and the one with its interpolations sent through the helper

## Main statements

- `operandsFrom_reads` — a text that no sign splits belongs to one operand
- `map_trim_operands_intercalate` — operands are found again in their join
- `Interpolated.exists_of_mem` — the interpolations of a rewritten template
-/

namespace RepoAudit.Script

open RepoAudit.Text Nesting

/-! ## Operands -/

/-- The parts of a text that has another one in front. -/
def joinFirst (cs : List Char) : List (List Char) → List (List Char)
  | [] => [cs]
  | part :: parts => (cs ++ part) :: parts

theorem operandsFrom_ne_nil (s : Nesting) (cs : List Char) : operandsFrom s cs ≠ [] := by
  cases cs with
  | nil => simp [operandsFrom]
  | cons c cs =>
    rw [operandsFrom]
    split
    · simp
    · split <;> simp

/-- A sign outside of every bracket starts another operand. -/
theorem operandsFrom_plus {s : Nesting} (h : s.isFlat = true) (cs : List Char) :
    operandsFrom s ('+' :: cs) = [] :: operandsFrom (s.step false '+') cs := by
  rw [operandsFrom, if_pos (by simp [h])]

/-- Every other character belongs to the first operand. -/
theorem operandsFrom_cons {s : Nesting} {c : Char} (h : ¬(c = '+' ∧ s.isFlat = true))
    (cs : List Char) :
    operandsFrom s (c :: cs) = joinFirst [c] (operandsFrom (s.step false c) cs) := by
  obtain ⟨o, os, heq⟩ := List.exists_cons_of_ne_nil (operandsFrom_ne_nil (s.step false c) cs)
  rw [operandsFrom, if_neg (by simpa using h), heq]
  rfl

/-- A text that is read without a sign that starts another operand belongs to one. -/
theorem operandsFrom_reads {s t : Nesting} {cs : List Char} (h : s.reads splits cs = some t)
    (rest : List Char) : operandsFrom s (cs ++ rest) = joinFirst cs (operandsFrom t rest) := by
  induction cs generalizing s with
  | nil =>
    cases h
    obtain ⟨o, os, heq⟩ := List.exists_cons_of_ne_nil (operandsFrom_ne_nil t rest)
    rw [List.nil_append, heq]
    rfl
  | cons c cs ih =>
    obtain ⟨hc, hcs⟩ := reads_cons_eq_some.mp h
    have hplus : ¬(c = '+' ∧ s.isFlat = true) := by
      rintro ⟨rfl, hflat⟩
      simp [splits, hflat] at hc
    obtain ⟨o, os, heq⟩ := List.exists_cons_of_ne_nil (operandsFrom_ne_nil t rest)
    rw [List.cons_append, operandsFrom_cons hplus, ih hcs, heq]
    rfl

theorem operandsFrom_eq_singleton {s t : Nesting} {cs : List Char}
    (h : s.reads splits cs = some t) : operandsFrom s cs = [cs] := by
  have hone := operandsFrom_reads h []
  rw [List.append_nil] at hone
  rw [hone, operandsFrom, joinFirst, List.append_nil]

/-- An expression is the join of its operands. -/
theorem intercalate_operandsFrom (s : Nesting) (cs : List Char) :
    ['+'].intercalate (operandsFrom s cs) = cs := by
  induction cs generalizing s with
  | nil => rfl
  | cons c cs ih =>
    have hrest := ih (s.step false c)
    have hne := operandsFrom_ne_nil (s.step false c) cs
    by_cases hplus : c = '+' ∧ s.isFlat = true
    · obtain ⟨rfl, hflat⟩ := hplus
      rw [operandsFrom_plus hflat, List.intercalate_cons_of_ne_nil hne, hrest]
      rfl
    · rw [operandsFrom_cons hplus]
      obtain ⟨o, os, heq⟩ := List.exists_cons_of_ne_nil hne
      rw [heq] at hrest ⊢
      cases os with
      | nil =>
        rw [List.intercalate_singleton] at hrest
        rw [joinFirst, List.intercalate_singleton, hrest]
        rfl
      | cons o' os =>
        rw [List.intercalate_cons_cons] at hrest
        rw [joinFirst, List.intercalate_cons_cons, ← hrest]
        simp

/-- Texts that are read as the operands of one expression: each of them without a sign that starts
another operand, and all but the last back to where the expression started. -/
def IsCut : List (List Char) → Prop
  | [] => False
  | [o] => (start.reads splits o).isSome = true
  | o :: o' :: os => start.reads splits o = some start ∧ IsCut (o' :: os)

theorem isCut_of_forall {os : List (List Char)} (hne : os ≠ [])
    (h : ∀ o ∈ os, start.reads splits o = some start) : IsCut os := by
  induction os with
  | nil => exact (hne rfl).elim
  | cons o os ih =>
    obtain ⟨ho, hos⟩ := List.forall_mem_cons.mp h
    cases os with
    | nil =>
      rw [IsCut, ho]
      rfl
    | cons o' os => exact ⟨ho, ih (List.cons_ne_nil o' os) hos⟩

/-- Operands joined with blanks around the signs are found again, but for the blanks. -/
theorem map_trim_operands_intercalate {es : List (List Char)} (hes : IsCut es) {lead : List Char}
    (hblank : ∀ c ∈ lead, isBlank c = true) :
    (operands (lead ++ [' ', '+', ' '].intercalate es)).map trim = es.map trim := by
  have htrim : ∀ (e : List Char) {lead : List Char}, (∀ c ∈ lead, isBlank c = true) →
      trim (lead ++ e) = trim e := by
    intro e lead hlead
    rw [trim, trimStart_append hlead, trim]
  have hspace : ∀ c ∈ [' '], isBlank c = true := List.all_eq_true.mp rfl
  induction es generalizing lead with
  | nil => exact hes.elim
  | cons e es ih =>
    have hlead : start.reads splits lead = some start := reads_splits_blanks hblank
    cases es with
    | nil =>
      obtain ⟨t, ht⟩ := Option.isSome_iff_exists.mp hes
      have hone := operandsFrom_eq_singleton (reads_append_eq_some hlead ht)
      rw [List.intercalate_singleton, operands, hone, List.map_singleton, List.map_singleton,
        htrim e hblank]
    | cons e' es =>
      obtain ⟨he, hes⟩ := hes
      have hrest := ih hes hspace
      have hfirst : start.reads splits (lead ++ e ++ [' ']) = some start :=
        reads_append_eq_some (reads_append_eq_some hlead he) (by decide)
      have hsplit : lead ++ [' ', '+', ' '].intercalate (e :: e' :: es) =
          lead ++ e ++ [' '] ++ '+' :: ([' '] ++ [' ', '+', ' '].intercalate (e' :: es)) := by
        rw [List.intercalate_cons_cons]
        simp
      rw [operands] at hrest
      rw [hsplit, operands, operandsFrom_reads hfirst, operandsFrom_plus rfl,
        show start.step false '+' = start from rfl]
      rw [joinFirst, List.append_nil, List.map_cons, hrest, trim_append _ hspace, htrim e hblank]
      rfl

/-! ## Interpolations -/

/-- The inside of an interpolation, sent through the helper unless it is escaped. -/
def escapeInside (cs : List Char) : List Char :=
  if startsWithEscape (trim cs) then trim cs else wrap (trim cs)

/-- How many braces are open after a character; none when it closes one that was not opened. -/
def braceStep (depth : Nat) (c : Char) : Option Nat :=
  if c = '{' then some (depth + 1)
  else if c = '}' then if depth = 0 then none else some (depth - 1)
  else some depth

/-- How many braces are open after a text; none when one is closed that was not opened. -/
def bracesAfter : Nat → List Char → Option Nat
  | depth, [] => some depth
  | depth, c :: cs => (braceStep depth c).bind fun d => bracesAfter d cs

theorem bracesAfter_append (depth : Nat) (as bs : List Char) :
    bracesAfter depth (as ++ bs) = (bracesAfter depth as).bind fun d => bracesAfter d bs := by
  induction as generalizing depth with
  | nil => rfl
  | cons c as ih =>
    rw [List.cons_append, bracesAfter, bracesAfter]
    cases braceStep depth c with
    | none => rfl
    | some d => exact ih d

/-- A text without braces opens and closes none. -/
theorem bracesAfter_of_notMem (depth : Nat) {cs : List Char} (hopen : '{' ∉ cs)
    (hclose : '}' ∉ cs) : bracesAfter depth cs = some depth := by
  induction cs with
  | nil => rfl
  | cons c cs ih =>
    simp only [List.mem_cons, not_or] at hopen hclose
    rw [bracesAfter, braceStep, if_neg (Ne.symm hopen.1), if_neg (Ne.symm hclose.1)]
    exact ih hopen.2 hclose.2

theorem insideLength_cons (depth : Nat) (c : Char) (cs : List Char) :
    insideLength depth (c :: cs) =
      match braceStep depth c with
      | some d => insideLength d cs + 1
      | none => 0 := by
  rw [braceStep]
  cases depth with
  | zero =>
    rw [insideLength]
    split
    · rfl
    · split <;> rfl
  | succ depth =>
    rw [insideLength]
    split
    · rfl
    · split <;> rfl

theorem braceStep_eq_none {depth : Nat} {c : Char} (h : braceStep depth c = none) :
    c = '}' ∧ depth = 0 := by
  rw [braceStep] at h
  split at h
  · cases h
  · split at h
    · next hclose =>
      split at h
      · next hdepth => exact ⟨hclose, hdepth⟩
      · cases h
    · cases h

theorem insideLength_append {depth d : Nat} {cs : List Char} (h : bracesAfter depth cs = some d)
    (rest : List Char) : insideLength depth (cs ++ rest) = insideLength d rest + cs.length := by
  induction cs generalizing depth with
  | nil =>
    cases h
    rfl
  | cons c cs ih =>
    obtain ⟨d', hstep, hrest⟩ := Option.bind_eq_some_iff.mp h
    rw [List.cons_append, insideLength_cons, hstep, List.length_cons]
    dsimp only
    rw [ih hrest, Nat.add_assoc]

/-- The inside of an interpolation runs to the brace that closes it, or to the end. -/
theorem exists_inside (depth : Nat) (cs : List Char) : ∃ inside rest, cs = inside ++ rest ∧
    insideLength depth cs = inside.length ∧
      (rest = [] ∨ ∃ tail, rest = '}' :: tail ∧ bracesAfter depth inside = some 0) := by
  induction cs generalizing depth with
  | nil => exact ⟨[], [], rfl, rfl, .inl rfl⟩
  | cons c cs ih =>
    cases hstep : braceStep depth c with
    | none =>
      obtain ⟨rfl, rfl⟩ := braceStep_eq_none hstep
      exact ⟨[], '}' :: cs, rfl, by rw [insideLength_cons, hstep]; rfl, .inr ⟨cs, rfl, rfl⟩⟩
    | some d =>
      obtain ⟨inside, rest, rfl, hinside, hrest⟩ := ih d
      refine ⟨c :: inside, rest, rfl, ?_, hrest.imp_right ?_⟩
      · rw [insideLength_cons, hstep, List.length_cons, ← hinside]
      · rintro ⟨tail, rfl, hbraces⟩
        exact ⟨tail, rfl, by rw [bracesAfter, hstep, Option.bind_some, hbraces]⟩

theorem bracesAfter_trim {cs : List Char} (h : bracesAfter 0 cs = some 0) :
    bracesAfter 0 (trim cs) = some 0 := by
  obtain ⟨lead, tail, hcs, hlead, htail⟩ := exists_trim cs
  have hblank : ∀ {as : List Char}, (∀ c ∈ as, isBlank c = true) → ∀ d,
      bracesAfter d as = some d := by
    intro as has d
    refine bracesAfter_of_notMem d (fun hmem => ?_) fun hmem => ?_
    · have := has _ hmem
      revert this
      decide
    · have := has _ hmem
      revert this
      decide
  rw [hcs, bracesAfter_append, bracesAfter_append, hblank hlead] at h
  cases hinner : bracesAfter 0 (trim cs) with
  | none =>
    rw [Option.bind_some, hinner] at h
    cases h
  | some d =>
    rw [Option.bind_some, hinner, Option.bind_some, hblank htail] at h
    exact h

theorem bracesAfter_wrap {cs : List Char} (h : bracesAfter 0 cs = some 0) :
    bracesAfter 0 (wrap cs) = some 0 := by
  have hsplit : wrap cs = (helperName.toList ++ ['(']) ++ (cs ++ [')']) := by
    simp [wrap]
  rw [hsplit, bracesAfter_append, bracesAfter_of_notMem 0 (by decide) (by decide),
    Option.bind_some, bracesAfter_append, h]
  rfl

theorem bracesAfter_escapeInside {cs : List Char} (h : bracesAfter 0 cs = some 0) :
    bracesAfter 0 (escapeInside cs) = some 0 := by
  rw [escapeInside]
  split
  · exact bracesAfter_trim h
  · exact bracesAfter_wrap (bracesAfter_trim h)

theorem stretchesFrom_skip (n copy : Nat) (cs : List Char) :
    stretchesFrom n copy cs = stretchesFrom 0 copy (cs.drop n) := by
  induction n generalizing cs with
  | zero => rfl
  | succ n ih =>
    cases cs with
    | nil => simp [stretchesFrom]
    | cons c cs => rw [stretchesFrom, ih, List.drop_succ_cons]

/-- An interpolation, whether it is closed or not. -/
theorem stretchesFrom_dollar {inside rest : List Char}
    (h : insideLength 0 (inside ++ rest) = inside.length) :
    stretchesFrom 0 0 ('$' :: '{' :: (inside ++ rest)) =
      .verbatim ['$', '{'] :: .inside inside :: stretchesFrom 0 0 rest := by
  have hdollar : ('$' = '$' && ('{' :: (inside ++ rest)).head? == some '{') = true := rfl
  rw [stretchesFrom, if_neg (by decide), if_pos hdollar]
  simp only [List.tail_cons, h]
  rw [List.take_left, stretchesFrom_skip, List.drop_succ_cons, List.drop_left]

/-- A closed interpolation. -/
theorem stretchesFrom_closed {inside : List Char} (h : bracesAfter 0 inside = some 0)
    (rest : List Char) : stretchesFrom 0 0 ('$' :: '{' :: (inside ++ '}' :: rest)) =
      .verbatim ['$', '{'] :: .inside inside :: stretchesFrom 0 0 ('}' :: rest) := by
  refine stretchesFrom_dollar ?_
  rw [insideLength_append h, insideLength, if_neg (by decide), if_pos rfl, Nat.zero_add]

/-- The rest of a template, and the same with its interpolations sent through the helper. The first
`copy` characters have no meaning. -/
inductive Interpolated : Nat → List Char → List Char → Prop where
  | nil {copy : Nat} : Interpolated copy [] []
  | copied {copy : Nat} {c : Char} {cs cs' : List Char} (h : Interpolated copy cs cs') :
    Interpolated (copy + 1) (c :: cs) (c :: cs')
  | backslash {cs cs' : List Char} (h : Interpolated 1 cs cs') :
    Interpolated 0 ('\\' :: cs) ('\\' :: cs')
  | plain {c : Char} {cs cs' : List Char} (hc : c ≠ '\\') (hdollar : ¬(c = '$' ∧ cs.head? = some '{'))
    (h : Interpolated 0 cs cs') : Interpolated 0 (c :: cs) (c :: cs')
  | inside {inside cs cs' : List Char} (hbraces : bracesAfter 0 inside = some 0)
    (h : Interpolated 0 ('}' :: cs) cs') :
    Interpolated 0 ('$' :: '{' :: (inside ++ '}' :: cs)) ('$' :: '{' :: (escapeInside inside ++ cs'))

/-- The text of a stretch with the inside of an interpolation sent through the helper. -/
def Stretch.escape : Stretch → List Char
  | .verbatim cs => cs
  | .inside cs => escapeInside cs

theorem escapeTemplate_eq (template : List Char) :
    escapeTemplate template = (stretches template).flatMap Stretch.escape := by
  rw [escapeTemplate]
  congr 1

theorem flatMap_consVerbatim (c : Char) (ss : List Stretch) :
    (consVerbatim c ss).flatMap Stretch.escape = c :: ss.flatMap Stretch.escape := by
  cases ss with
  | nil => rfl
  | cons s ss => cases s <;> rfl

theorem mem_consVerbatim {c : Char} {ss : List Stretch} {x : List Char} :
    .inside x ∈ consVerbatim c ss ↔ .inside x ∈ ss := by
  cases ss with
  | nil => simp [consVerbatim]
  | cons s ss => cases s <;> simp [consVerbatim]

theorem stretchesFrom_copied (copy : Nat) (c : Char) (cs : List Char) :
    stretchesFrom 0 (copy + 1) (c :: cs) = consVerbatim c (stretchesFrom 0 copy cs) := by
  rw [stretchesFrom]

theorem stretchesFrom_backslash (cs : List Char) :
    stretchesFrom 0 0 ('\\' :: cs) = consVerbatim '\\' (stretchesFrom 0 1 cs) := by
  rw [stretchesFrom, if_pos rfl]

theorem stretchesFrom_plain {c : Char} {cs : List Char} (hc : c ≠ '\\')
    (hdollar : ¬(c = '$' ∧ cs.head? = some '{')) :
    stretchesFrom 0 0 (c :: cs) = consVerbatim c (stretchesFrom 0 0 cs) := by
  rw [stretchesFrom, if_neg hc, if_neg (by simpa using hdollar)]

namespace Interpolated

variable {copy : Nat} {cs cs' : List Char}

theorem head?_eq (h : Interpolated copy cs cs') : cs'.head? = cs.head? := by
  cases h <;> rfl

theorem eq_flatMap (h : Interpolated copy cs cs') :
    cs' = (stretchesFrom 0 copy cs).flatMap Stretch.escape := by
  induction h with
  | nil => simp [stretchesFrom]
  | copied h ih => rw [stretchesFrom_copied, flatMap_consVerbatim, ← ih]
  | backslash h ih => rw [stretchesFrom_backslash, flatMap_consVerbatim, ← ih]
  | plain hc hdollar h ih => rw [stretchesFrom_plain hc hdollar, flatMap_consVerbatim, ← ih]
  | inside hbraces h ih =>
    rw [stretchesFrom_closed hbraces, List.flatMap_cons, List.flatMap_cons, ← ih]
    rfl

/-- The interpolations of the rewritten template are those that were sent through the helper. -/
theorem exists_of_mem (h : Interpolated copy cs cs') {x : List Char}
    (hx : .inside x ∈ stretchesFrom 0 copy cs') : ∃ y, x = escapeInside y := by
  induction h with
  | nil => simp [stretchesFrom] at hx
  | copied h ih =>
    rw [stretchesFrom_copied, mem_consVerbatim] at hx
    exact ih hx
  | backslash h ih =>
    rw [stretchesFrom_backslash, mem_consVerbatim] at hx
    exact ih hx
  | plain hc hdollar h ih =>
    rw [← h.head?_eq] at hdollar
    rw [stretchesFrom_plain hc hdollar, mem_consVerbatim] at hx
    exact ih hx
  | @inside inside cs cs' hbraces h ih =>
    obtain ⟨rest, rfl⟩ : ∃ rest, cs' = '}' :: rest := by
      have hhead := h.head?_eq
      cases cs' with
      | nil => cases hhead
      | cons c rest =>
        cases hhead
        exact ⟨rest, rfl⟩
    rw [stretchesFrom_closed (bracesAfter_escapeInside hbraces)] at hx
    rcases List.mem_cons.mp hx with hx | hx
    · cases hx
    rcases List.mem_cons.mp hx with hx | hx
    · cases hx
      exact ⟨inside, rfl⟩
    · exact ih hx

/-- A template ends as before. -/
theorem getLast?_eq (h : Interpolated copy cs cs') : cs'.getLast? = cs.getLast? := by
  have hcons : ∀ {c : Char} {cs cs' : List Char}, cs'.head? = cs.head? →
      cs'.getLast? = cs.getLast? → (c :: cs').getLast? = (c :: cs).getLast? := by
    intro c cs cs' hhead hlast
    rw [List.getLast?_cons, List.getLast?_cons, hlast]
  induction h with
  | nil => rfl
  | copied h ih => exact hcons h.head?_eq ih
  | backslash h ih => exact hcons h.head?_eq ih
  | plain hc hdollar h ih => exact hcons h.head?_eq ih
  | @inside inside cs cs' hbraces h ih =>
    obtain ⟨rest, rfl⟩ : ∃ rest, cs' = '}' :: rest :=
      List.head?_eq_some_iff.mp h.head?_eq
    have hlast : ∀ as bs : List Char, ('$' :: '{' :: (as ++ '}' :: bs)).getLast? =
        ('}' :: bs).getLast? := by
      intro as bs
      rw [← List.cons_append, ← List.cons_append, List.getLast?_append, List.getLast?_cons]
      rfl
    rw [hlast, hlast, ih]

end Interpolated

end RepoAudit.Script
