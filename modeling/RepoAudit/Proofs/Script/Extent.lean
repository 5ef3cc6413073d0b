import RepoAudit.Proofs.Script.Nesting
import RepoAudit.Script.Sink

/-!
# Where expressions end

An expression ends before one of a few characters, or with its text. What follows that character
matters only where it is a newline, and then only for the first sign that is met.

## Main definitions

- `enders` — the characters before which an expression ends
- `Closes` — a text that ends an expression which stands before it
- `Alike` — two texts that end an expression alike

## Main statements

- `exists_expression` — what stands behind an expression
- `trimEnd_expressionAt` — a text that can be read on its own is the expression before its end
- `expressionAt_congr` — what stands behind an expression may change
-/

namespace RepoAudit.Script

open RepoAudit.Text Nesting

variable {s t : Nesting} {read cs rest : List Char} {c : Char}

/-- The characters before which an expression ends. -/
def enders : List Char :=
  [')', ']', '}', ';', ',', '\n']

/-- A text that ends an expression which stands before it: there is nothing in it, or it starts with
one of the characters that end expressions, and a line that ends so does not go on with a plus
sign. -/
def Closes (cs : List Char) : Prop :=
  cs = [] ∨ ∃ c rest, cs = c :: rest ∧ c ∈ enders ∧
    (c = '\n' → (trimStart rest).head? ≠ some '+')

/-- Two texts that end an expression alike. -/
def Alike (cs cs' : List Char) : Prop :=
  (cs = [] ∧ cs' = []) ∨ ∃ c rest rest', cs = c :: rest ∧ cs' = c :: rest' ∧
    (trimStart rest').head? = (trimStart rest).head?

theorem Closes.of_alike {cs' : List Char} (h : Closes cs) (halike : Alike cs cs') : Closes cs' := by
  obtain ⟨rfl, rfl⟩ | ⟨c, rest, rest', rfl, rfl, hhead⟩ := halike
  · exact h
  · obtain hnil | ⟨d, tail, heq, hd, hline⟩ := h
    · cases hnil
    · cases heq
      refine .inr ⟨c, rest', rfl, hd, fun hc => ?_⟩
      rw [hhead]
      exact hline hc

theorem endsBefore_eq_false (h : s.halts c = false) (read rest : List Char) :
    endsBefore s read c rest = false := by
  obtain ⟨frame, outer, escaped, dollar⟩ := s
  cases frame with
  | quoted quote => rfl
  | template => rfl
  | code brackets braces =>
    cases outer with
    | cons f fs => rfl
    | nil =>
      simp only [halts, breaks, Bool.or_eq_false_iff] at h
      simp only [endsBefore, Bool.or_eq_false_iff]
      refine ⟨h.1, ?_⟩
      obtain hflat | hsigns := Bool.and_eq_false_iff.mp h.2
      · rw [hflat, Bool.false_and]
      · simp only [Bool.or_eq_false_iff] at hsigns
        rw [hsigns.1.1, hsigns.1.2, hsigns.2]
        simp

/-- What an expression ends before. -/
theorem mem_enders_of_endsBefore (h : endsBefore s read c rest = true) :
    c ∈ enders ∧ (c = '\n' → goesOn read rest = false) := by
  rw [endsBefore] at h
  split at h
  · simp only [Bool.or_eq_true, Bool.and_eq_true, decide_eq_true_eq, Bool.not_eq_true'] at h
    rcases h with ((⟨rfl | rfl, -⟩ | ⟨rfl, -⟩) | ⟨-, (rfl | rfl) | ⟨rfl, hline⟩⟩)
    · exact ⟨by decide, fun hc => absurd hc (by decide)⟩
    · exact ⟨by decide, fun hc => absurd hc (by decide)⟩
    · exact ⟨by decide, fun hc => absurd hc (by decide)⟩
    · exact ⟨by decide, fun hc => absurd hc (by decide)⟩
    · exact ⟨by decide, fun hc => absurd hc (by decide)⟩
    · exact ⟨by decide, fun _ => hline⟩
  · cases h

theorem endsBefore_start (hc : c ∈ enders) (hline : c = '\n' → goesOn read rest = false) :
    endsBefore start read c rest = true := by
  simp only [enders, List.mem_cons, List.not_mem_nil, or_false] at hc
  rcases hc with rfl | rfl | rfl | rfl | rfl | rfl
  · rfl
  · rfl
  · rfl
  · rfl
  · rfl
  · simp [endsBefore, start, isFlat, hline rfl]

/-- A text in which nothing ends an expression belongs to it. -/
theorem extentFrom_append (h : s.reads halts cs = some t) (read rest : List Char) :
    extentFrom s read (cs ++ rest) = extentFrom t (cs.reverse ++ read) rest + cs.length := by
  induction cs generalizing s read with
  | nil =>
    cases h
    rfl
  | cons c cs ih =>
    obtain ⟨hc, hcs⟩ := reads_cons_eq_some.mp h
    have hbreaks : s.breaks c = false := (Bool.or_eq_false_iff.mp hc).1
    rw [List.cons_append, extentFrom, endsBefore_eq_false hc, if_neg Bool.false_ne_true,
      step_true_eq hbreaks, ih hcs, List.reverse_cons, List.append_assoc, List.length_cons,
      Nat.add_assoc]
    rfl

/-- What has been read of an expression ends with something that a line does not go on after. -/
def IsSettled (read : List Char) : Prop :=
  ∃ c cs, read.dropWhile isBlank = c :: cs ∧ c ≠ '+'

theorem IsSettled.goesOn_eq_false (h : IsSettled read) (hrest : (trimStart rest).head? ≠ some '+') :
    goesOn read rest = false := by
  obtain ⟨c, cs, hread, hc⟩ := h
  simp [goesOn, hread, hc, hrest]

theorem IsSettled.cons (h : IsSettled read) (hc : isBlank c = true) : IsSettled (c :: read) := by
  obtain ⟨d, ds, hread, hd⟩ := h
  exact ⟨d, ds, by rwa [List.dropWhile_cons_of_pos hc], hd⟩

/-- Behind an expression there are only blanks before its end. -/
theorem extentFrom_le_of_blanks {blanks : List Char} (hblanks : ∀ c ∈ blanks, isBlank c = true)
    (hread : IsSettled read) (hrest : Closes rest) :
    extentFrom start read (blanks ++ rest) ≤ blanks.length := by
  induction blanks generalizing read with
  | nil =>
    obtain rfl | ⟨c, tail, rfl, hc, hline⟩ := hrest
    · exact Nat.le_refl 0
    · have hends : endsBefore start read c tail = true :=
        endsBefore_start hc fun h => hread.goesOn_eq_false (hline h)
      rw [List.nil_append, extentFrom, if_pos hends]
      exact Nat.le_refl 0
  | cons c blanks ih =>
    obtain ⟨hc, hblanks⟩ := List.forall_mem_cons.mp hblanks
    rw [List.cons_append, extentFrom]
    split
    · exact Nat.zero_le _
    · have hstep : start.step true c = start :=
        stepCode_of_notMem (notMem_codeMarks_of_isBlank hc) 0 0
      rw [hstep]
      exact Nat.succ_le_succ (ih hblanks (hread.cons hc))

/-- A text that can be read on its own is the expression before its end. -/
theorem trimEnd_expressionAt {expression blanks : List Char}
    (hread : start.reads halts expression = some start)
    (hne : expression ≠ []) (hlast : ∀ c ∈ expression.getLast?, isBlank c = false ∧ c ≠ '+')
    (hblanks : ∀ c ∈ blanks, isBlank c = true) (hrest : Closes rest) :
    trimEnd (expressionAt (expression ++ (blanks ++ rest))) = expression := by
  obtain ⟨c, hc⟩ := Option.ne_none_iff_exists'.mp (mt List.getLast?_eq_none_iff.mp hne)
  obtain ⟨front, rfl⟩ := List.getLast?_eq_some_iff.mp hc
  obtain ⟨hblank, hplus⟩ := hlast c hc
  have hsettled : IsSettled ((front ++ [c]).reverse ++ []) := by
    refine ⟨c, front.reverse, ?_, hplus⟩
    rw [List.append_nil, List.reverse_append]
    exact List.dropWhile_cons_of_neg (by simp [hblank])
  have hle := extentFrom_le_of_blanks hblanks hsettled hrest
  have htail : ∀ d ∈ blanks.take (extentFrom start ((front ++ [c]).reverse ++ []) (blanks ++ rest)),
      isBlank d = true := fun d hd => hblanks d (List.mem_of_mem_take hd)
  rw [expressionAt, extentFrom_append hread, Nat.add_comm, List.take_length_add_append,
    List.take_append_of_le_length hle, trimEnd_append _ htail]
  refine trimEnd_eq_self fun d hd => ?_
  exact (hlast d hd).1

/-- An expression, and what it ends before. -/
theorem exists_extent (s : Nesting) (read cs : List Char) : ∃ front rest, cs = front ++ rest ∧
    extentFrom s read cs = front.length ∧
      (rest = [] ∨ ∃ c tail t, rest = c :: tail ∧
        endsBefore t (front.reverse ++ read) c tail = true) := by
  induction cs generalizing s read with
  | nil => exact ⟨[], [], rfl, rfl, .inl rfl⟩
  | cons c cs ih =>
    by_cases hends : endsBefore s read c cs = true
    · exact ⟨[], c :: cs, rfl, by rw [extentFrom, if_pos hends]; rfl, .inr ⟨c, cs, s, rfl, hends⟩⟩
    · obtain ⟨front, rest, rfl, hlength, hrest⟩ := ih (s.step true c) (c :: read)
      refine ⟨c :: front, rest, rfl, by rw [extentFrom, if_neg hends, hlength]; rfl, ?_⟩
      simpa using hrest

/-- What stands behind an expression: blanks, and a text that ends it. -/
theorem exists_expression (cs : List Char) : ∃ blanks rest,
    cs = trimEnd (expressionAt cs) ++ (blanks ++ rest) ∧
      expressionAt cs = trimEnd (expressionAt cs) ++ blanks ∧
      (∀ c ∈ blanks, isBlank c = true) ∧ Closes rest := by
  obtain ⟨front, rest, hcs, hlength, hrest⟩ := exists_extent start [] cs
  have hfront : expressionAt cs = front := by
    rw [expressionAt, hlength, hcs, List.take_left]
  refine ⟨(front.reverse.takeWhile isBlank).reverse, rest, ?_, ?_, ?_, ?_⟩
  · rw [hfront, ← List.append_assoc, trimEnd, ← List.reverse_append, List.takeWhile_append_dropWhile,
      List.reverse_reverse]
    exact hcs
  · rw [hfront, trimEnd, ← List.reverse_append, List.takeWhile_append_dropWhile,
      List.reverse_reverse]
  · intro c hc
    rw [List.mem_reverse] at hc
    exact List.all_eq_true.mp List.all_takeWhile c hc
  · obtain rfl | ⟨c, tail, t, rfl, hends⟩ := hrest
    · exact .inl rfl
    · obtain ⟨hc, hline⟩ := mem_enders_of_endsBefore hends
      refine .inr ⟨c, tail, rfl, hc, fun hnewline hplus => ?_⟩
      have hgoes := hline hnewline
      simp [goesOn, hplus] at hgoes

/-! ## What stands behind -/

theorem head?_trimStart_append {rest' : List Char}
    (h : (trimStart rest').head? = (trimStart rest).head?) (cs : List Char) :
    (trimStart (cs ++ rest')).head? = (trimStart (cs ++ rest)).head? := by
  induction cs with
  | nil => exact h
  | cons c cs ih =>
    by_cases hc : isBlank c = true
    · rw [trimStart, trimStart, List.cons_append, List.cons_append, List.dropWhile_cons_of_pos hc,
        List.dropWhile_cons_of_pos hc]
      exact ih
    · rw [trimStart, trimStart, List.cons_append, List.cons_append, List.dropWhile_cons_of_neg hc,
        List.dropWhile_cons_of_neg hc]
      rfl

theorem endsBefore_congr {rest' : List Char}
    (h : (trimStart rest').head? = (trimStart rest).head?) (s : Nesting) (read : List Char)
    (c : Char) : endsBefore s read c rest' = endsBefore s read c rest := by
  unfold endsBefore goesOn
  rw [h]

theorem extentFrom_congr {tail tail' : List Char}
    (hhead : (trimStart tail').head? = (trimStart tail).head?) (s : Nesting) (read front : List Char)
    (h : extentFrom s read (front ++ c :: tail) = front.length) :
    extentFrom s read (front ++ c :: tail') = front.length := by
  induction front generalizing s read with
  | nil =>
    rw [List.nil_append, extentFrom] at h ⊢
    rw [endsBefore_congr hhead]
    split at h
    · next hends => rw [if_pos hends, List.length_nil]
    · cases h
  | cons d front ih =>
    have hbehind : (trimStart (front ++ c :: tail')).head? =
        (trimStart (front ++ c :: tail)).head? := by
      have hsingle := head?_trimStart_append hhead (front ++ [c])
      simpa using hsingle
    rw [List.cons_append, extentFrom] at h ⊢
    rw [endsBefore_congr hbehind]
    split at h
    · cases h
    · next hends =>
      rw [if_neg hends, ih _ _ (Nat.succ.inj h), List.length_cons]

/-- What stands behind an expression may change, as long as it ends the expression alike. -/
theorem expressionAt_congr {expression rest' : List Char}
    (h : expressionAt (expression ++ rest) = expression) (hrest : Alike rest rest') :
    expressionAt (expression ++ rest') = expression := by
  obtain ⟨rfl, rfl⟩ | ⟨c, tail, tail', rfl, rfl, hhead⟩ := hrest
  · exact h
  · have hlength : extentFrom start [] (expression ++ c :: tail) = expression.length := by
      obtain ⟨front, rest, hcs, hlength, -⟩ := exists_extent start [] (expression ++ c :: tail)
      rw [expressionAt, hlength, hcs, List.take_left] at h
      rw [hlength, h]
    rw [expressionAt, extentFrom_congr hhead _ _ _ hlength, List.take_left]

end RepoAudit.Script
