import Mathlib.Tactic.SplitIfs
import RepoAudit.Proofs.Text.Blank
import RepoAudit.Script.Nesting

/-!
# Reading without surprises

A text may be read in some nesting without meeting a bracket that closes nothing or the end of a
line inside a string, and without meeting, outside of every bracket, a character that separates
expressions or operands. Such a reading does not depend on whether strings end with their line. A
text that can be read on its own, back to where it started, can also be read inside any brackets,
and there no character in it separates anything.

## Main definitions

- `Nesting.breaks`, `Nesting.separates` — the characters that are met with a surprise
- `Nesting.splits` — the signs that start another operand
- `Nesting.reads` — reading on as long as no such character is met
- `IsBalanced`, `IsOperand` — a text that is read back to where it started
- `Nesting.Within` — a nesting inside some brackets

## Main statements

- `Nesting.reads_append` — reading two texts
- `Nesting.Within.reads` — what can be read on its own can be read inside brackets
- `IsBalanced.reads_code` — such a text is read back to where it started there, too
-/

namespace RepoAudit.Script

open RepoAudit.Text

namespace Nesting

/-- Whether a character is a bracket that closes nothing, or a newline inside a string. -/
def breaks (s : Nesting) (c : Char) : Bool :=
  match s.frame, s.outer with
  | .code brackets braces, [] =>
    ((c = ')' || c = ']') && brackets = 0) || (c = '}' && braces = 0)
  | .quoted _, _ => !s.escaped && c = '\n'
  | _, _ => false

/-- Whether a character is a bracket that closes nothing. -/
def closesNothing (s : Nesting) (c : Char) : Bool :=
  match s.frame, s.outer with
  | .code brackets braces, [] =>
    ((c = ')' || c = ']') && brackets = 0) || (c = '}' && braces = 0)
  | _, _ => false

/-- Whether a character outside of every bracket ends an expression or an operand. -/
def separates (s : Nesting) (c : Char) : Bool :=
  s.isFlat && (c = ';' || c = ',' || c = '\n' || c = '+')

/-- Whether a character outside of every bracket starts another operand. -/
def splits (s : Nesting) (c : Char) : Bool :=
  s.isFlat && c = '+'

/-- Whether a character breaks the reading or separates. -/
def parts (s : Nesting) (c : Char) : Bool :=
  s.breaks c || s.separates c

/-- Whether a character breaks the reading or ends an expression. -/
def halts (s : Nesting) (c : Char) : Bool :=
  s.breaks c || (s.isFlat && (c = ';' || c = ',' || c = '\n'))

/-- The nesting after a text, unless a character is met at which the reading stops. -/
def reads (stops : Nesting → Char → Bool) (s : Nesting) : List Char → Option Nesting
  | [] => some s
  | c :: cs => if stops s c then none else reads stops (s.step false c) cs

variable {stops : Nesting → Char → Bool} {s t u : Nesting} {c : Char} {cs : List Char}

@[simp] theorem reads_nil (stops : Nesting → Char → Bool) (s : Nesting) :
    s.reads stops [] = some s := rfl

theorem reads_cons_eq_some :
    s.reads stops (c :: cs) = some t ↔ stops s c = false ∧ (s.step false c).reads stops cs = some t := by
  rw [reads]
  cases stops s c <;> simp

theorem reads_append (as bs : List Char) :
    s.reads stops (as ++ bs) = (s.reads stops as).bind fun t => t.reads stops bs := by
  induction as generalizing s with
  | nil => rfl
  | cons c as ih =>
    rw [List.cons_append, reads, reads]
    split
    · rfl
    · exact ih

theorem reads_append_eq_some {as bs : List Char} (has : s.reads stops as = some t)
    (hbs : t.reads stops bs = some u) : s.reads stops (as ++ bs) = some u := by
  rw [reads_append, has]
  exact hbs

/-- What is read is also read where fewer characters stop the reading. -/
theorem reads_of_reads {fewer : Nesting → Char → Bool}
    (hfewer : ∀ s c, stops s c = false → fewer s c = false) (h : s.reads stops cs = some t) :
    s.reads fewer cs = some t := by
  induction cs generalizing s with
  | nil => exact h
  | cons c cs ih =>
    obtain ⟨hc, hcs⟩ := reads_cons_eq_some.mp h
    exact reads_cons_eq_some.mpr ⟨hfewer s c hc, ih hcs⟩

theorem reads_halts_of_parts (h : s.reads parts cs = some t) : s.reads halts cs = some t := by
  refine reads_of_reads (fun s c hparts => ?_) h
  simp only [parts, separates, Bool.or_eq_false_iff, Bool.and_eq_false_iff] at hparts
  simp only [halts, Bool.or_eq_false_iff, Bool.and_eq_false_iff]
  exact ⟨hparts.1, hparts.2.imp_right fun hsigns => hsigns.1⟩

theorem reads_splits_of_parts (h : s.reads parts cs = some t) : s.reads splits cs = some t := by
  refine reads_of_reads (fun s c hparts => ?_) h
  simp only [parts, separates, Bool.or_eq_false_iff, Bool.and_eq_false_iff] at hparts
  rw [splits, Bool.and_eq_false_iff]
  exact hparts.2.imp_right fun hsigns => hsigns.2

theorem closesNothing_of_breaks (h : s.breaks c = false) : s.closesNothing c = false := by
  obtain ⟨frame, outer, escaped, dollar⟩ := s
  cases frame with
  | code brackets braces => cases outer <;> exact h
  | quoted quote => rfl
  | template => rfl

/-- Strings may as well end with their line where they never meet its end. -/
theorem step_true_eq (h : s.breaks c = false) : s.step true c = s.step false c := by
  obtain ⟨frame, outer, escaped, dollar⟩ := s
  cases frame with
  | quoted quote =>
    cases escaped with
    | true => rfl
    | false =>
      have hline : c ≠ '\n' := by simpa [breaks] using h
      simp [step, hline]
  | template => rfl
  | code brackets braces => rfl

/-- The characters that matter in code. -/
def codeMarks : List Char :=
  ['\'', '"', backtick, '(', '[', ')', ']', '{', '}']

theorem stepCode_of_notMem (h : c ∉ codeMarks) (brackets braces : Nat) :
    s.stepCode brackets braces c = s := by
  simp only [codeMarks, List.mem_cons, List.not_mem_nil, or_false, not_or] at h
  unfold stepCode
  simp [h]

theorem notMem_codeMarks_of_isBlank (h : isBlank c = true) : c ∉ codeMarks := by
  intro hmem
  have hnone : ∀ d ∈ codeMarks, isBlank d = false := by decide
  rw [hnone c hmem] at h
  cases h

/-- Blanks are read without effect where none of them stops the reading. -/
theorem reads_blanks (hstops : ∀ c, isBlank c = true → stops start c = false)
    (h : ∀ c ∈ cs, isBlank c = true) : start.reads stops cs = some start := by
  induction cs with
  | nil => rfl
  | cons c cs ih =>
    obtain ⟨hc, hcs⟩ := List.forall_mem_cons.mp h
    have hstep : start.step false c = start :=
      stepCode_of_notMem (notMem_codeMarks_of_isBlank hc) 0 0
    rw [reads_cons_eq_some, hstep]
    exact ⟨hstops c hc, ih hcs⟩

/-- Blanks start no operand. -/
theorem reads_splits_blanks (h : ∀ c ∈ cs, isBlank c = true) :
    start.reads splits cs = some start := by
  refine reads_blanks (fun c hc => ?_) h
  have hplus : c ≠ '+' := by
    rintro rfl
    revert hc
    decide
  rw [splits, decide_eq_false hplus, Bool.and_false]

/-! ## Quotes -/

/-- The quotes of the strings that are open. -/
def quotes (s : Nesting) : List Char :=
  (s.frame :: s.outer).filterMap fun
    | .quoted quote => some quote
    | _ => none

theorem quotes_step (h : ∀ quote ∈ s.quotes, quote ∈ ['\'', '"']) (lineBound : Bool) (c : Char) :
    ∀ quote ∈ (s.step lineBound c).quotes, quote ∈ ['\'', '"'] := by
  have hpop : ∀ quote ∈ s.pop.quotes, quote ∈ ['\'', '"'] := by
    obtain ⟨frame, outer, escaped, dollar⟩ := s
    cases outer with
    | nil => exact h
    | cons f fs =>
      intro quote hquote
      exact h quote (((List.sublist_cons_self frame (f :: fs)).filterMap _).subset hquote)
  obtain ⟨frame, outer, escaped, dollar⟩ := s
  cases escaped with
  | true => exact h
  | false =>
    cases frame with
    | quoted quote =>
      simp only [step, Bool.false_eq_true, if_false]
      split_ifs
      · exact h
      · exact hpop
      · exact h
    | template =>
      simp only [step, Bool.false_eq_true, if_false]
      split_ifs
      · exact h
      · exact h
      · exact hpop
      · exact h
    | code brackets braces =>
      simp only [step, stepCode, Bool.false_eq_true, if_false]
      split_ifs with hquote
      · intro quote hmem
        rcases List.mem_cons.mp (show quote ∈ c :: _ from hmem) with rfl | hmem
        · simpa using hquote
        · exact h quote hmem
      · exact h
      · exact h
      · exact h
      · exact h
      · cases braces with
        | zero => exact hpop
        | succ braces => exact h
      · exact h

theorem quotes_reads (hs : ∀ quote ∈ s.quotes, quote ∈ ['\'', '"'])
    (h : s.reads stops cs = some t) : ∀ quote ∈ t.quotes, quote ∈ ['\'', '"'] := by
  induction cs generalizing s with
  | nil =>
    cases h
    exact hs
  | cons c cs ih => exact ih (quotes_step hs false c) (reads_cons_eq_some.mp h).2

/-- A character without a meaning in code leaves every frame as it is. -/
theorem isFlat_of_step (hs : ∀ quote ∈ s.quotes, quote ∈ ['\'', '"']) (hc : c ∉ codeMarks)
    (h : s.step false c = start) : s.isFlat = true := by
  obtain ⟨frame, outer, escaped, dollar⟩ := s
  cases escaped with
  | true =>
    obtain ⟨rfl, rfl, -, -⟩ := Nesting.mk.inj h
    rfl
  | false =>
    cases frame with
    | quoted quote =>
      have hmarks : ∀ quote ∈ ['\'', '"'], quote ∈ codeMarks := by decide
      have hquote : c ≠ quote := by
        rintro rfl
        exact hc (hmarks c (hs c List.mem_cons_self))
      by_cases hback : c = '\\' <;> simp [step, start, hback, hquote] at h
    | template =>
      have htick : c ≠ backtick := by
        rintro rfl
        exact hc (by decide)
      by_cases hback : c = '\\' <;> by_cases hopen : (dollar && c = '{') = true <;>
        simp [step, start, push, hback, hopen, htick] at h
    | code brackets braces =>
      have hcode : (⟨.code brackets braces, outer, false, dollar⟩ : Nesting).stepCode brackets
          braces c = start := h
      rw [stepCode_of_notMem hc] at hcode
      rw [hcode]
      rfl

/-- No character read before changes the meaning of the next one in code. -/
def IsClear (s : Nesting) : Prop :=
  ∀ brackets braces, s.frame = .code brackets braces → s.escaped = false ∧ s.dollar = false

theorem isClear_pop (s : Nesting) : s.pop.IsClear := by
  obtain ⟨frame, outer, escaped, dollar⟩ := s
  cases outer <;> exact fun _ _ _ => ⟨rfl, rfl⟩

theorem isClear_stepCode (hs : s.escaped = false ∧ s.dollar = false) (brackets braces : Nat)
    (c : Char) : (s.stepCode brackets braces c).IsClear := by
  unfold stepCode
  split_ifs
  · exact fun _ _ _ => ⟨rfl, rfl⟩
  · exact fun _ _ _ => ⟨rfl, rfl⟩
  · exact fun _ _ _ => ⟨rfl, rfl⟩
  · exact fun _ _ _ => ⟨rfl, rfl⟩
  · exact fun _ _ _ => ⟨rfl, rfl⟩
  · cases braces with
    | zero => exact isClear_pop s
    | succ braces => exact fun _ _ _ => ⟨rfl, rfl⟩
  · exact fun _ _ _ => hs

theorem IsClear.step (hs : s.IsClear) (lineBound : Bool) (c : Char) :
    (s.step lineBound c).IsClear := by
  obtain ⟨frame, outer, escaped, dollar⟩ := s
  cases frame with
  | code brackets braces =>
    obtain ⟨rfl, rfl⟩ : escaped = false ∧ dollar = false := hs brackets braces rfl
    exact isClear_stepCode ⟨rfl, rfl⟩ brackets braces c
  | quoted quote =>
    cases escaped with
    | true => nofun
    | false =>
      simp only [Nesting.step, Bool.false_eq_true, if_false]
      split_ifs
      · nofun
      · exact isClear_pop _
      · nofun
  | template =>
    cases escaped with
    | true => nofun
    | false =>
      simp only [Nesting.step, Bool.false_eq_true, if_false]
      split_ifs
      · exact fun _ _ _ => ⟨rfl, rfl⟩
      · nofun
      · exact isClear_pop _
      · nofun

theorem IsClear.reads (hs : s.IsClear) (h : s.reads stops cs = some t) : t.IsClear := by
  induction cs generalizing s with
  | nil =>
    cases h
    exact hs
  | cons c cs ih => exact ih (hs.step false c) (reads_cons_eq_some.mp h).2

/-- The frames of a nesting inside some others, the outermost one being counted together with the
brackets and braces around it. -/
inductive Over (brackets braces : Nat) (around : List Frame) : List Frame → List Frame → Prop
  | code (b k : Nat) :
    Over brackets braces around [.code b k] (.code (b + brackets) (k + braces) :: around)
  | cons (f : Frame) {fs gs : List Frame} (h : Over brackets braces around fs gs) :
    Over brackets braces around (f :: fs) (f :: gs)

/-- A nesting inside some brackets, braces and frames. -/
structure Within (brackets braces : Nat) (around : List Frame) (s t : Nesting) : Prop where
  /-- Its frames are those of the nesting on its own and the ones around. -/
  frames : Over brackets braces around (s.frame :: s.outer) (t.frame :: t.outer)
  /-- A backslash counts in both or in none. -/
  escaped : t.escaped = s.escaped
  /-- So does a dollar sign. -/
  dollar : t.dollar = s.dollar

variable {brackets braces : Nat} {around : List Frame}

theorem Over.ne_nil {fs gs : List Frame} (h : Over brackets braces around fs gs) :
    fs ≠ [] ∧ gs ≠ [] := by
  cases h <;> simp

theorem Over.code_of_eq {b k b' k' : Nat} (hb : b' = b + brackets) (hk : k' = k + braces) :
    Over brackets braces around [.code b k] (.code b' k' :: around) := by
  rw [hb, hk]
  exact .code b k

theorem within_start :
    Within brackets braces around start ⟨.code brackets braces, around, false, false⟩ where
  frames := .code_of_eq (Nat.zero_add _).symm (Nat.zero_add _).symm
  escaped := rfl
  dollar := rfl

namespace Within

theorem eq_code (h : Within brackets braces around start t) :
    t = ⟨.code brackets braces, around, false, false⟩ := by
  obtain ⟨hframes, hescaped, hdollar⟩ := h
  obtain ⟨frame, frames, escaped, dollar⟩ := t
  cases hframes with
  | code b k =>
    cases hescaped
    cases hdollar
    rw [Nat.zero_add, Nat.zero_add]
  | cons f h => cases h

/-- What does not break the reading on its own does not break it inside. -/
theorem breaks_eq (h : Within brackets braces around s t) (hc : s.breaks c = false) :
    t.breaks c = false := by
  obtain ⟨hframes, hescaped, -⟩ := h
  obtain ⟨frame, frames, escaped, dollar⟩ := s
  obtain ⟨frame', frames', escaped', dollar'⟩ := t
  cases hescaped
  cases hframes with
  | code b k =>
    cases frames' with
    | nil =>
      simp only [breaks, Bool.or_eq_false_iff, Bool.and_eq_false_iff, decide_eq_false_iff_not]
        at hc ⊢
      exact ⟨hc.1.imp_right fun h => by omega, hc.2.imp_right fun h => by omega⟩
    | cons f fs => rfl
  | cons f h =>
    cases frame with
    | quoted quote => exact hc
    | template => rfl
    | code b k =>
      obtain ⟨g, gs, rfl⟩ := List.exists_cons_of_ne_nil h.ne_nil.2
      rfl

/-- What is closed inside is not what stands around. -/
theorem pop {f : Frame} {fs gs : List Frame} (h : Over brackets braces around fs gs)
    (escaped dollar : Bool) :
    Within brackets braces around (Nesting.mk f fs escaped dollar).pop
      (Nesting.mk f gs escaped dollar).pop := by
  obtain ⟨g, fs, rfl⟩ := List.exists_cons_of_ne_nil h.ne_nil.1
  obtain ⟨g', gs, rfl⟩ := List.exists_cons_of_ne_nil h.ne_nil.2
  exact ⟨h, rfl, rfl⟩

theorem stepCode {fs gs : List Frame} (h : Over brackets braces around fs gs) (b k : Nat) (c : Char)
    (escaped dollar : Bool) :
    Within brackets braces around ((Nesting.mk (.code b k) fs escaped dollar).stepCode b k c)
      ((Nesting.mk (.code b k) gs escaped dollar).stepCode b k c) := by
  unfold Nesting.stepCode
  split_ifs
  · exact ⟨.cons _ (.cons _ h), rfl, rfl⟩
  · exact ⟨.cons _ (.cons _ h), rfl, rfl⟩
  · exact ⟨.cons _ h, rfl, rfl⟩
  · exact ⟨.cons _ h, rfl, rfl⟩
  · exact ⟨.cons _ h, rfl, rfl⟩
  · cases k with
    | zero => exact pop h _ _
    | succ k => exact ⟨.cons _ h, rfl, rfl⟩
  · exact ⟨.cons _ h, rfl, rfl⟩

/-- The outermost code is read inside as it is on its own, as long as no bracket closes nothing. -/
theorem stepCode_outermost (b k : Nat) (escaped dollar : Bool)
    (hc : (Nesting.mk (.code b k) [] escaped dollar).closesNothing c = false) :
    Within brackets braces around ((Nesting.mk (.code b k) [] escaped dollar).stepCode b k c)
      ((Nesting.mk (.code (b + brackets) (k + braces)) around escaped dollar).stepCode
        (b + brackets) (k + braces) c) := by
  simp only [closesNothing, Bool.or_eq_false_iff, Bool.and_eq_false_iff,
    decide_eq_false_iff_not] at hc
  unfold Nesting.stepCode
  split_ifs with hquote htemplate hopen hclose hbrace hend
  · exact ⟨.cons _ (.code b k), rfl, rfl⟩
  · exact ⟨.cons _ (.code b k), rfl, rfl⟩
  · exact ⟨.code_of_eq (by omega) rfl, rfl, rfl⟩
  · have hb : b ≠ 0 := by
      simp only [Bool.or_eq_true, decide_eq_true_eq] at hclose
      exact hc.1.resolve_left fun h => hclose.elim h.1 h.2
    exact ⟨.code_of_eq (by omega) rfl, rfl, rfl⟩
  · exact ⟨.code_of_eq rfl (by omega), rfl, rfl⟩
  · obtain ⟨k, rfl⟩ : ∃ k', k = k' + 1 := Nat.exists_eq_succ_of_ne_zero (hc.2.resolve_left (· hend))
    rw [Nat.succ_add]
    exact ⟨.code_of_eq rfl rfl, rfl, rfl⟩
  · exact ⟨.code b k, rfl, rfl⟩

/-- One character is read inside as it is read on its own. -/
theorem step (h : Within brackets braces around s t) (hc : s.closesNothing c = false) :
    Within brackets braces around (s.step false c) (t.step false c) := by
  obtain ⟨hframes, hescaped, hdollar⟩ := h
  obtain ⟨frame, frames, escaped, dollar⟩ := s
  obtain ⟨frame', frames', escaped', dollar'⟩ := t
  cases hescaped
  cases hdollar
  cases escaped with
  | true => exact ⟨hframes, rfl, rfl⟩
  | false =>
    cases hframes with
    | code b k => exact stepCode_outermost b k _ _ hc
    | cons f h =>
      cases frame with
      | code b k => exact stepCode h b k c _ _
      | quoted quote =>
        simp only [Nesting.step, Bool.false_eq_true, if_false]
        split_ifs
        · exact ⟨.cons _ h, rfl, rfl⟩
        · exact pop h _ _
        · exact ⟨.cons _ h, rfl, rfl⟩
      | template =>
        simp only [Nesting.step, Bool.false_eq_true, if_false]
        split_ifs
        · exact ⟨.cons _ (.cons _ h), rfl, rfl⟩
        · exact ⟨.cons _ h, rfl, rfl⟩
        · exact pop h _ _
        · exact ⟨.cons _ h, rfl, rfl⟩

/-- Something inside is not outside of every bracket. -/
theorem isFlat_eq (h : Within brackets braces around s t)
    (hinner : brackets ≠ 0 ∨ braces ≠ 0 ∨ around ≠ []) : t.isFlat = false := by
  obtain ⟨hframes, -, -⟩ := h
  obtain ⟨frame, frames, escaped, dollar⟩ := s
  obtain ⟨frame', frames', escaped', dollar'⟩ := t
  rw [isFlat, Bool.and_eq_false_iff]
  cases hframes with
  | code b k =>
    rcases hinner with hinner | hinner | hinner
    · exact .inl (by simp [hinner])
    · exact .inl (by simp [hinner])
    · exact .inr (by simpa using hinner)
  | cons f h => exact .inr (by simpa using h.ne_nil.2)

/-- Inside something, no character separates anything. -/
theorem separates_eq (h : Within brackets braces around s t)
    (hinner : brackets ≠ 0 ∨ braces ≠ 0 ∨ around ≠ []) : t.separates c = false := by
  rw [separates, h.isFlat_eq hinner, Bool.false_and]

/-- What can be read on its own can be read inside something, and separates nothing there. -/
theorem reads (h : Within brackets braces around s t)
    (hinner : brackets ≠ 0 ∨ braces ≠ 0 ∨ around ≠ [])
    (hcs : s.reads Nesting.breaks cs = some u) :
    ∃ v, t.reads parts cs = some v ∧ Within brackets braces around u v := by
  induction cs generalizing s t with
  | nil =>
    cases hcs
    exact ⟨t, rfl, h⟩
  | cons c cs ih =>
    obtain ⟨hc, hcs⟩ := reads_cons_eq_some.mp hcs
    obtain ⟨v, hv, hwithin⟩ := ih (h.step (closesNothing_of_breaks hc)) hcs
    refine ⟨v, reads_cons_eq_some.mpr ⟨?_, hv⟩, hwithin⟩
    rw [parts, h.breaks_eq hc, h.separates_eq hinner, Bool.or_false]

end Within

end Nesting

open Nesting

/-- A text that closes whatever it opens and nothing else, with no string over a line's end. -/
def IsBalanced (cs : List Char) : Prop :=
  start.reads breaks cs = some start

instance : DecidablePred IsBalanced :=
  fun cs => inferInstanceAs (Decidable (start.reads breaks cs = some start))

/-- A balanced text without any sign that separates expressions or operands. -/
def IsOperand (cs : List Char) : Prop :=
  start.reads parts cs = some start

instance : DecidablePred IsOperand :=
  fun cs => inferInstanceAs (Decidable (start.reads parts cs = some start))

/-- A balanced text is read inside code back to where it started. -/
theorem IsBalanced.reads_code {cs : List Char} (h : IsBalanced cs) {brackets braces : Nat}
    {around : List Frame} (hinner : brackets ≠ 0 ∨ braces ≠ 0 ∨ around ≠ []) :
    (Nesting.mk (.code brackets braces) around false false).reads parts cs =
      some ⟨.code brackets braces, around, false, false⟩ := by
  obtain ⟨v, hv, hwithin⟩ := within_start.reads hinner h
  rw [hv, hwithin.eq_code]

/-- An operand does not end with a plus sign, which would separate it from another one. -/
theorem IsOperand.getLast?_ne_plus {cs : List Char} (h : IsOperand cs) :
    cs.getLast? ≠ some '+' := by
  intro hlast
  obtain ⟨front, rfl⟩ := List.getLast?_eq_some_iff.mp hlast
  rw [IsOperand, reads_append, Option.bind_eq_some_iff] at h
  obtain ⟨t, hfront, hplus⟩ := h
  rw [reads_cons_eq_some, reads_nil] at hplus
  obtain ⟨hparts, hstep⟩ := hplus
  have hquotes := quotes_reads (by decide) hfront
  have hflat := isFlat_of_step hquotes (by decide) (Option.some.inj hstep)
  simp [parts, separates, hflat] at hparts

end RepoAudit.Script
