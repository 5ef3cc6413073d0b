import Mathlib.Tactic.SplitIfs
import RepoAudit.Proofs.Ruby.Call

/-!
# Commands between quotes

The body of a command between backticks or in a percent literal is read by a machine: it has to
hold an interpolation before it is closed, all on one line. Sending the commands that a search
finds through the wrapper changes their quotes alone, so what is left can be told from the quotes
that belong to no command found.

## Main definitions

- `Body.State`, `Body.run` — the machine for the body of a command
- `Quote.run` — the machine that looks for a command between backticks
- `EnclosesInput` — an interpolation stands between two backticks of a line
- `unquoted` — a text with plain quotes around the commands that a search finds

## Main statements

- `Body.run_eq_fed_iff` — the machine accepts the bodies that `bodyLength?` measures
- `enclosesInput_iff` — a command occurs when an interpolation stands between two backticks
- `Quote.run_quotesRouted`, `occurs_percentRouted` — which texts keep a command
-/

namespace RepoAudit.Ruby

open RepoAudit.Text

namespace Body

/-- How much of the body of a command has been read. -/
inductive State where
  /-- Before any interpolation. -/
  | lead
  /-- After a hash mark that may open the interpolation. -/
  | hash
  /-- Inside the interpolation. -/
  | inside
  /-- After the interpolation. -/
  | closed
  /-- After the end of the command. -/
  | fed
  /-- Where no command can end. -/
  | dead
deriving DecidableEq

open State

/-- Reads one character of a body that ends with `close`. -/
def State.step (close : Char) : State → Char → State
  | lead, c => if c = close ∨ c = '\n' then dead else if c = '#' then hash else lead
  | hash, c =>
    if c = close ∨ c = '\n' then dead
    else if c = '{' then inside
    else if c = '#' then hash
    else lead
  | inside, c => if c = '\n' then dead else if c = '}' then closed else inside
  | closed, c => if c = close then fed else if c = '\n' then dead else closed
  | fed, _ => fed
  | dead, _ => dead

/-- Reads a text. -/
def run (close : Char) (st : State) (cs : List Char) : State :=
  cs.foldl (State.step close) st

variable {close : Char}

@[simp] theorem run_nil (st : State) : run close st [] = st := rfl

@[simp] theorem run_cons (st : State) (c : Char) (cs : List Char) :
    run close st (c :: cs) = run close (st.step close c) cs := rfl

theorem run_append (st : State) (as bs : List Char) :
    run close st (as ++ bs) = run close (run close st as) bs :=
  List.foldl_append

@[simp] theorem run_fed (cs : List Char) : run close fed cs = fed := by
  induction cs with
  | nil => rfl
  | cons c cs ih => exact ih

@[simp] theorem run_dead (cs : List Char) : run close dead cs = dead := by
  induction cs with
  | nil => rfl
  | cons c cs ih => exact ih

/-- A quote that is none of the marks of an interpolation. -/
structure IsClose (close : Char) : Prop where
  ne_hash : close ≠ '#'
  ne_open : close ≠ '{'
  ne_end : close ≠ '}'
  ne_newline : close ≠ '\n'

theorem run_closed_of_inside (cs : List Char) (h : run close inside cs = fed) :
    run close closed cs = fed := by
  induction cs with
  | nil => cases h
  | cons c cs ih =>
    simp only [run_cons, State.step] at h ⊢
    by_cases hclose : c = close
    · rw [if_pos hclose, run_fed]
    · rw [if_neg hclose]
      by_cases hline : c = '\n'
      · rw [if_pos hline, run_dead] at h
        cases h
      · rw [if_neg hline] at h ⊢
        by_cases hend : c = '}'
        · rwa [if_pos hend] at h
        · rw [if_neg hend] at h
          exact ih h

/-- Whatever ends a body ends it all the more inside its interpolation. -/
theorem run_inside_of_lead (cs : List Char)
    (h : run close lead cs = fed ∨ run close hash cs = fed) : run close inside cs = fed := by
  induction cs with
  | nil => rcases h with h | h <;> cases h
  | cons c cs ih =>
    simp only [run_cons, State.step] at h ⊢
    by_cases hdead : c = close ∨ c = '\n'
    · simp [hdead] at h
    · obtain ⟨-, hline⟩ := not_or.mp hdead
      rw [if_neg hdead, if_neg hdead] at h
      rw [if_neg hline]
      by_cases hend : c = '}'
      · subst hend
        rw [if_pos rfl]
        refine run_closed_of_inside cs (ih (.inl ?_))
        simpa using h
      · rw [if_neg hend]
        by_cases hopen : c = '{'
        · subst hopen
          rcases h with h | h
          · exact ih (.inl h)
          · exact h
        · rw [if_neg hopen] at h
          split at h
          · exact ih (.inr (h.elim id id))
          · exact ih (.inl (h.elim id id))

theorem run_hash_eq_fed_iff (hclose : IsClose close) (cs : List Char) :
    run close hash cs = fed ↔
      run close lead cs = fed ∨ ∃ rest, cs = '{' :: rest ∧ run close inside rest = fed := by
  cases cs with
  | nil => simp
  | cons c cs =>
    by_cases hopen : c = '{'
    · subst hopen
      have hne : ¬ ('{' = close ∨ '{' = '\n') := by
        simpa using Ne.symm hclose.ne_open
      simp only [run_cons, State.step, if_neg hne]
      constructor
      · intro h
        exact .inr ⟨cs, rfl, h⟩
      · rintro (h | ⟨rest, hrest, h⟩)
        · exact run_inside_of_lead cs (.inl h)
        · obtain ⟨-, rfl⟩ := List.cons.inj hrest
          exact h
    · have hnone : ¬ ∃ rest, c :: cs = '{' :: rest ∧ run close inside rest = fed := by
        rintro ⟨rest, hrest, -⟩
        exact hopen (List.cons.inj hrest).1
      simp [run_cons, State.step, hopen]

theorem drop_length_takeWhile (p : Char → Bool) (cs : List Char) :
    cs.drop (cs.takeWhile p).length = cs.dropWhile p :=
  calc
    _ = (cs.takeWhile p ++ cs.dropWhile p).drop (cs.takeWhile p).length := by
      rw [List.takeWhile_append_dropWhile]
    _ = cs.dropWhile p := List.drop_left

theorem run_closed_eq_fed_iff (cs : List Char) :
    run close closed cs = fed ↔
      (cs.dropWhile fun d => d ≠ close && d ≠ '\n').head? = some close := by
  induction cs with
  | nil => simp
  | cons c cs ih =>
    simp only [run_cons, State.step]
    by_cases hclose : c = close
    · simp [hclose]
    · by_cases hline : c = '\n'
      · have hne : ¬ '\n' = close := hline ▸ hclose
        simp [hline, hne]
      · rw [if_neg hclose, if_neg hline, ih, List.dropWhile_cons_of_pos (by simp [hclose, hline])]

theorem run_inside_eq_fed_iff (cs : List Char) :
    run close inside cs = fed ↔
      ∃ rest, (cs.dropWhile fun d => d ≠ '}' && d ≠ '\n') = '}' :: rest ∧
        run close closed rest = fed := by
  induction cs with
  | nil => simp
  | cons c cs ih =>
    simp only [run_cons, State.step]
    by_cases hline : c = '\n'
    · simp [hline]
    · by_cases hend : c = '}'
      · simp [hend]
      · rw [if_neg hline, if_neg hend, ih, List.dropWhile_cons_of_pos (by simp [hend, hline])]

theorem isSome_bodyLength?_cons {c : Char} {cs : List Char} :
    (bodyLength? close (c :: cs)).isSome = true ↔
      (c ≠ close ∧ c ≠ '\n' ∧ (bodyLength? close cs).isSome = true) ∨
        c = '#' ∧ ∃ rest, cs = '{' :: rest ∧ run close inside rest = fed := by
  have hlater : (if c = close || c = '\n' then none
      else (bodyLength? close cs).map (· + 1)).isSome = true ↔
        c ≠ close ∧ c ≠ '\n' ∧ (bodyLength? close cs).isSome = true := by
    by_cases hne : c = close <;> by_cases hline : c = '\n' <;> simp [hne, hline]
  rw [bodyLength?, ← hlater]
  generalize (if c = close || c = '\n' then none
    else (bodyLength? close cs).map (· + 1)) = later
  cases later with
  | some n => simp
  | none =>
    simp only [Option.isSome_none, Bool.false_eq_true, false_or]
    cases cs with
    | nil => simp
    | cons d cs =>
      by_cases hopen : c = '#' ∧ d = '{'
      · obtain ⟨rfl, rfl⟩ := hopen
        rw [if_pos (by simp)]
        simp only [drop_length_takeWhile, List.tail_cons]
        have hexists : (∃ rest, '{' :: cs = '{' :: rest ∧ run close inside rest = fed) ↔
            run close inside cs = fed := by simp
        rw [hexists, run_inside_eq_fed_iff]
        split
        · rename_i rest hrest
          rw [hrest]
          simp only [true_and, List.cons.injEq, exists_eq_left', run_closed_eq_fed_iff]
          split <;> simp_all
        · rename_i hnone
          simp only [Option.isSome_none, Bool.false_eq_true, true_and, false_iff]
          rintro ⟨rest, hrest, -⟩
          exact hnone rest hrest
      · rw [if_neg (by simpa using hopen)]
        simp only [Option.isSome_none, Bool.false_eq_true, false_iff]
        rintro ⟨hhash, rest, hrest, -⟩
        exact hopen ⟨hhash, (List.cons.inj hrest).1⟩

/-- The machine accepts the bodies that have a length. -/
theorem run_eq_fed_iff (hclose : IsClose close) (cs : List Char) :
    run close lead cs = fed ↔ (bodyLength? close cs).isSome = true := by
  induction cs with
  | nil => simp [bodyLength?]
  | cons c cs ih =>
    rw [isSome_bodyLength?_cons, ← ih, run_cons, State.step]
    by_cases hdead : c = close ∨ c = '\n'
    · have hhash : c ≠ '#' := by
        rintro rfl
        rcases hdead with h | h
        · exact hclose.ne_hash h.symm
        · cases h
      have hnot : ¬ (c ≠ close ∧ c ≠ '\n' ∧ run close lead cs = fed) := fun h =>
        hdead.elim h.1 h.2.1
      rw [if_pos hdead, run_dead]
      simp [hhash, hnot]
    · obtain ⟨hne, hline⟩ := not_or.mp hdead
      rw [if_neg hdead]
      by_cases hhash : c = '#'
      · rw [if_pos hhash, run_hash_eq_fed_iff hclose]
        exact or_congr (by simp [hne, hline]) (by simp [hhash])
      · simp [hhash, hne, hline]

theorem not_mem_takeWhile {p : Char → Bool} {c : Char} (h : p c = false) (cs : List Char) :
    c ∉ cs.takeWhile p := by
  intro hc
  have hp := List.all_eq_true.mp List.all_takeWhile c hc
  rw [h] at hp
  cases hp

/-- A body ends before its quote and stays on its line. -/
theorem bodyLength?_eq_some {cs : List Char} {n : Nat} (h : bodyLength? close cs = some n) :
    ∃ body rest, cs = body ++ close :: rest ∧ body.length = n ∧ '\n' ∉ body := by
  induction cs generalizing n with
  | nil => cases h
  | cons c cs ih =>
    rw [bodyLength?] at h
    generalize hlater : (if c = close || c = '\n' then none
      else (bodyLength? close cs).map (· + 1)) = later at h
    cases later with
    | some m =>
      cases h
      split at hlater
      · cases hlater
      · rename_i hne
        obtain ⟨k, hk, rfl⟩ := Option.map_eq_some_iff.mp hlater
        obtain ⟨body, rest, rfl, rfl, hbody⟩ := ih hk
        refine ⟨c :: body, rest, rfl, rfl, ?_⟩
        have hline : ¬ '\n' = c := by
          rintro rfl
          simp at hne
        simp [hline, hbody]
    | none =>
      simp only [drop_length_takeWhile] at h
      split at h
      · rename_i hopen
        obtain ⟨hhash, hbrace⟩ : c = '#' ∧ cs.head? = some '{' := by simpa using hopen
        obtain ⟨cs, rfl⟩ := List.head?_eq_some_iff.mp hbrace
        rw [List.tail_cons] at h
        split at h
        · rename_i rest hrest
          split at h
          · rename_i hquote
            obtain ⟨tail, htail⟩ := List.head?_eq_some_iff.mp (beq_iff_eq.mp hquote)
            refine ⟨'#' :: '{' :: (cs.takeWhile (fun d => d ≠ '}' && d ≠ '\n') ++ '}' ::
              rest.takeWhile fun d => d ≠ close && d ≠ '\n'), tail, ?_, ?_, ?_⟩
            · rw [hhash]
              simp only [List.cons_append, List.append_assoc]
              rw [← htail, List.takeWhile_append_dropWhile, ← hrest,
                List.takeWhile_append_dropWhile]
            · rw [← Option.some.inj h]
              simp only [List.length_cons, List.length_append]
              omega
            · simp [not_mem_takeWhile]
          · cases h
        · cases h
      · cases h

end Body

open Body

/-- A command that is found lies between its opening and its quote, on one line. -/
theorem command_eq_some {opening cs body : List Char} {close : Char} {before : Option Char} {n : Nat}
    (h : command opening close before cs = some (body, n)) :
    '\n' ∉ body ∧ n = (opening ++ (body ++ [close])).length ∧
      ∃ rest, cs = opening ++ (body ++ [close]) ++ rest := by
  rw [command] at h
  obtain ⟨tail, htail, hbody⟩ := Option.bind_eq_some_iff.mp h
  obtain ⟨k, hk, hpair⟩ := Option.map_eq_some_iff.mp hbody
  obtain ⟨body', rest, rfl, rfl, hline⟩ := bodyLength?_eq_some hk
  rw [List.take_left] at hpair
  obtain ⟨rfl, rfl⟩ := Prod.mk.inj hpair
  refine ⟨hline, ?_, rest, ?_⟩
  · simp only [List.length_append, List.length_singleton]
    omega
  · rw [after?_eq_some.mp htail]
    simp

theorem isSome_command {opening cs : List Char} {close : Char} (hclose : IsClose close)
    {before : Option Char} :
    (command opening close before cs).isSome = true ↔
      ∃ rest, cs = opening ++ rest ∧ Body.run close .lead rest = .fed := by
  rw [command]
  constructor
  · intro h
    obtain ⟨hit, hhit⟩ := Option.isSome_iff_exists.mp h
    obtain ⟨rest, hrest, hbody⟩ := Option.bind_eq_some_iff.mp hhit
    obtain ⟨n, hn, -⟩ := Option.map_eq_some_iff.mp hbody
    refine ⟨rest, after?_eq_some.mp hrest, (run_eq_fed_iff hclose rest).mpr ?_⟩
    rw [hn]
    rfl
  · rintro ⟨rest, hcs, hrun⟩
    rw [after?_eq_some.mpr hcs, Option.bind_some, Option.isSome_map]
    exact (run_eq_fed_iff hclose rest).mp hrun

theorem fits_command (opening : List Char) (close : Char) : (command opening close).Fits := by
  intro before cs body n h
  obtain ⟨-, rfl, rest, rfl⟩ := command_eq_some h
  simp only [List.length_append, List.length_singleton]
  omega

theorem fits_backtickCommand : backtickCommand.Fits := fits_command _ _

theorem fits_percentCommand : percentCommand.Fits := fits_command _ _

theorem isClose_backtick : IsClose backtick := ⟨by decide, by decide, by decide, by decide⟩

theorem isClose_bracket : IsClose ')' := ⟨by decide, by decide, by decide, by decide⟩

/-! ## Commands between backticks -/

namespace Quote

/-- Reads one character in search of a command between backticks. Outside a command, and where no
interpolation was read, a backtick opens another one. -/
def step (st : Body.State) (c : Char) : Body.State :=
  if c = backtick ∧ st.step backtick c = .dead then .lead else st.step backtick c

/-- Reads a text. -/
def run (st : Body.State) (cs : List Char) : Body.State :=
  cs.foldl step st

@[simp] theorem run_nil (st : Body.State) : run st [] = st := rfl

@[simp] theorem run_cons (st : Body.State) (c : Char) (cs : List Char) :
    run st (c :: cs) = run (step st c) cs := rfl

theorem run_append (st : Body.State) (as bs : List Char) :
    run st (as ++ bs) = run (run st as) bs :=
  List.foldl_append

@[simp] theorem run_fed (cs : List Char) : run .fed cs = .fed := by
  induction cs with
  | nil => rfl
  | cons c cs ih =>
    rw [run_cons, step, if_neg (by simp [Body.State.step])]
    exact ih

theorem isSome_backtickCommand {before : Option Char} {c : Char} {cs : List Char} :
    (backtickCommand before (c :: cs)).isSome = true ↔
      c = backtick ∧ Body.run backtick .lead cs = .fed := by
  rw [backtickCommand, isSome_command isClose_backtick]
  constructor
  · rintro ⟨rest, hcs, hrun⟩
    obtain ⟨rfl, rfl⟩ := List.cons.inj hcs
    exact ⟨rfl, hrun⟩
  · rintro ⟨rfl, hrun⟩
    exact ⟨cs, rfl, hrun⟩

/-- The machine finds the commands between backticks. -/
theorem run_eq_fed_iff (st : Body.State) (before : Option Char) (cs : List Char) :
    run st cs = .fed ↔ Body.run backtick st cs = .fed ∨ Occurs backtickCommand before cs := by
  induction cs generalizing st before with
  | nil => simp
  | cons c cs ih =>
    rw [run_cons, ih (step st c) (some c), occurs_cons, isSome_backtickCommand, Body.run_cons,
      ← or_assoc]
    refine or_congr_left ?_
    rw [step]
    by_cases hquote : c = backtick
    · subst hquote
      by_cases hdead : st.step backtick backtick = .dead
      · simp [hdead]
      · rw [if_neg (by simp [hdead])]
        -- Inside an interpolation a backtick opens nothing that would not be fed without it.
        have hahead : Body.run backtick .lead cs = .fed →
            Body.run backtick (st.step backtick backtick) cs = .fed := by
          intro hlead
          cases st with
          | lead => exact absurd rfl hdead
          | hash => exact absurd rfl hdead
          | inside => exact run_inside_of_lead cs (.inl hlead)
          | closed => exact Body.run_fed cs
          | fed => exact Body.run_fed cs
          | dead => exact absurd rfl hdead
        simp only [true_and]
        exact ⟨.inl, fun h => h.elim id hahead⟩
    · simp [hquote]

theorem step_eq_fed {st : Body.State} {c : Char} (h : step st c = .fed) :
    st = .fed ∨ c = backtick := by
  by_cases hquote : c = backtick
  · exact .inr hquote
  · rw [step, if_neg (by simp [hquote])] at h
    cases st with
    | fed => exact .inl rfl
    | dead => cases h
    | _ =>
      simp only [Body.State.step, hquote, if_false] at h
      split_ifs at h

/-- A text without backticks ends no command. -/
theorem run_eq_fed_of_notMem {cs : List Char} (h : backtick ∉ cs) {st : Body.State} :
    run st cs = .fed ↔ st = .fed := by
  constructor
  · intro hrun
    induction cs generalizing st with
    | nil => exact hrun
    | cons c cs ih =>
      rw [List.mem_cons, not_or] at h
      rcases step_eq_fed (ih h.2 hrun) with hfed | hquote
      · exact hfed
      · exact absurd hquote.symm h.1
  · rintro rfl
    exact run_fed cs

/-- How far a command has been read. -/
def rank : Body.State → Nat
  | .dead => 0
  | .lead => 1
  | .hash => 1
  | .inside => 2
  | .closed => 3
  | .fed => 4

theorem rank_step {c : Char} (h : c ≠ '\n') (st : Body.State) : rank st ≤ rank (step st c) := by
  by_cases hquote : c = backtick
  · subst hquote
    cases st <;> decide
  · rw [step, if_neg (by simp [hquote])]
    cases st <;> simp only [Body.State.step, hquote, h, or_self, if_false, Nat.le_refl]
    all_goals split_ifs <;> decide

theorem rank_run {cs : List Char} (h : '\n' ∉ cs) (st : Body.State) :
    rank st ≤ rank (run st cs) := by
  induction cs generalizing st with
  | nil => exact Nat.le_refl _
  | cons c cs ih =>
    rw [List.mem_cons, not_or] at h
    exact Nat.le_trans (rank_step (Ne.symm h.1) st) (ih h.2 _)

end Quote

/-- An interpolation stands between two backticks of a line. -/
def EnclosesInput (cs : List Char) : Prop :=
  ∃ before first inner last after,
    cs = before ++ backtick :: (first ++ '#' :: '{' :: (inner ++ '}' :: (last ++ backtick :: after)))
      ∧ '\n' ∉ first ∧ '\n' ∉ inner ∧ '\n' ∉ last

theorem Quote.run_of_enclosesInput {cs : List Char} (h : EnclosesInput cs) (st : Body.State) :
    Quote.run st cs = .fed := by
  obtain ⟨before, first, inner, last, after, rfl, hfirst, hinner, hlast⟩ := h
  have hopen : ∀ st, 1 ≤ Quote.rank (Quote.step st backtick) := by
    intro st
    cases st <;> decide
  have hinput : ∀ st, 1 ≤ Quote.rank st → 2 ≤ Quote.rank (Quote.step (Quote.step st '#') '{') := by
    intro st hst
    cases st <;> first | decide | cases hst
  have hend : ∀ st, 2 ≤ Quote.rank st → 3 ≤ Quote.rank (Quote.step st '}') := by
    intro st hst
    cases st <;> first | decide | (revert hst; decide)
  have hclose : ∀ st, 3 ≤ Quote.rank st → Quote.step st backtick = .fed := by
    intro st hst
    cases st <;> first | rfl | (revert hst; decide)
  simp only [Quote.run_append, Quote.run_cons]
  rw [hclose, Quote.run_fed]
  refine Nat.le_trans ?_ (Quote.rank_run hlast _)
  refine hend _ (Nat.le_trans ?_ (Quote.rank_run hinner _))
  refine hinput _ (Nat.le_trans ?_ (Quote.rank_run hfirst _))
  exact hopen _

theorem Body.exists_of_run_closed {close : Char} {cs : List Char}
    (h : Body.run close .closed cs = .fed) :
    ∃ last after, cs = last ++ close :: after ∧ '\n' ∉ last := by
  induction cs with
  | nil => cases h
  | cons c cs ih =>
    simp only [Body.run_cons, Body.State.step] at h
    split_ifs at h with hclose hline
    · exact ⟨[], cs, by rw [hclose]; rfl, by simp⟩
    · rw [Body.run_dead] at h
      cases h
    · obtain ⟨last, after, rfl, hlast⟩ := ih h
      exact ⟨c :: last, after, rfl, by simp [Ne.symm hline, hlast]⟩

theorem Body.exists_of_run_inside {close : Char} {cs : List Char}
    (h : Body.run close .inside cs = .fed) :
    ∃ inner rest, cs = inner ++ '}' :: rest ∧ '\n' ∉ inner ∧ Body.run close .closed rest = .fed := by
  induction cs with
  | nil => cases h
  | cons c cs ih =>
    simp only [Body.run_cons, Body.State.step] at h
    split_ifs at h with hline hend
    · rw [Body.run_dead] at h
      cases h
    · exact ⟨[], cs, by rw [hend]; rfl, by simp, h⟩
    · obtain ⟨inner, rest, rfl, hinner, hrest⟩ := ih h
      exact ⟨c :: inner, rest, rfl, by simp [Ne.symm hline, hinner], hrest⟩

theorem Body.exists_of_run_lead {close : Char} (hclose : IsClose close) {cs : List Char}
    (h : Body.run close .lead cs = .fed) :
    ∃ first rest, cs = first ++ '#' :: '{' :: rest ∧ '\n' ∉ first ∧
      Body.run close .inside rest = .fed := by
  induction cs with
  | nil => cases h
  | cons c cs ih =>
    simp only [Body.run_cons, Body.State.step] at h
    have hfirst : Body.run close .lead cs = .fed → c ≠ '\n' →
        ∃ first rest, c :: cs = first ++ '#' :: '{' :: rest ∧ '\n' ∉ first ∧
          Body.run close .inside rest = .fed := by
      intro hlead hline
      obtain ⟨first, rest, rfl, hfirst, hrest⟩ := ih hlead
      exact ⟨c :: first, rest, rfl, by simp [Ne.symm hline, hfirst], hrest⟩
    split_ifs at h with hdead hhash
    · rw [Body.run_dead] at h
      cases h
    · rcases (run_hash_eq_fed_iff hclose cs).mp h with hlead | ⟨rest, rfl, hinside⟩
      · exact hfirst hlead (not_or.mp hdead).2
      · exact ⟨[], rest, by rw [hhash]; rfl, by simp, hinside⟩
    · exact hfirst h (not_or.mp hdead).2

theorem Quote.occurs_backtickCommand {cs : List Char} :
    Occurs backtickCommand none cs ↔ Quote.run .dead cs = .fed := by
  rw [Quote.run_eq_fed_iff .dead none cs, Body.run_dead]
  simp

/-- A command between backticks occurs when an interpolation stands between two of them. -/
theorem enclosesInput_iff {cs : List Char} :
    EnclosesInput cs ↔ Occurs backtickCommand none cs := by
  constructor
  · intro h
    exact Quote.occurs_backtickCommand.mpr (Quote.run_of_enclosesInput h .dead)
  · rintro ⟨before, rest, rfl, -, hmatch⟩
    obtain ⟨tail, rfl, hrun⟩ := (isSome_command isClose_backtick).mp hmatch
    obtain ⟨first, rest, rfl, hfirst, hinside⟩ := Body.exists_of_run_lead isClose_backtick hrun
    obtain ⟨inner, rest, rfl, hinner, hclosed⟩ := Body.exists_of_run_inside hinside
    obtain ⟨last, after, rfl, hlast⟩ := Body.exists_of_run_closed hclosed
    exact ⟨before, first, inner, last, after, rfl, hfirst, hinner, hlast⟩

/-! ## Sending commands through the wrapper -/

/-- What stands before a command in a call of the wrapper. -/
def wrapOpening : List Char := wrapperName ++ ['(', '"']

/-- What stands after a command in a call of the wrapper. -/
def wrapClosing : List Char := ['"', ')']

/-- A command with its quotes escaped. -/
def escapeQuotes (body : List Char) : List Char :=
  replaceAll ['"'] ['\\', '"'] body

theorem wrapCommand_eq (body : List Char) :
    wrapCommand body = wrapOpening ++ (escapeQuotes body ++ wrapClosing) := by
  rw [wrapCommand, wrapOpening, wrapClosing, escapeQuotes]
  simp only [List.append_assoc]

theorem escapeQuotes_cons (c : Char) (body : List Char) :
    escapeQuotes (c :: body) = (if c = '"' then ['\\', '"'] else [c]) ++ escapeQuotes body := by
  rw [escapeQuotes, escapeQuotes, replaceAll_singleton, replaceAll_singleton, List.flatMap_cons]

@[simp] theorem escapeQuotes_nil : escapeQuotes [] = [] := rfl

section Fold

variable {σ : Type} {step : σ → Char → σ}

theorem foldl_escapeQuotes (hquote : ∀ st, step (step st '\\') '"' = step st '"')
    (body : List Char) (st : σ) : (escapeQuotes body).foldl step st = body.foldl step st := by
  induction body generalizing st with
  | nil => rfl
  | cons c body ih =>
    rw [escapeQuotes_cons, List.foldl_append, ih, List.foldl_cons]
    by_cases hc : c = '"'
    · rw [if_pos hc, hc, List.foldl_cons, List.foldl_cons, List.foldl_nil, hquote]
    · rw [if_neg hc, List.foldl_cons, List.foldl_nil]

theorem foldl_imageOf_congr {α : Type} {f g : α → List Char}
    (h : ∀ value st, (f value).foldl step st = (g value).foldl step st) (ps : List (Piece α))
    (st : σ) : (imageOf f ps).foldl step st = (imageOf g ps).foldl step st := by
  induction ps generalizing st with
  | nil => rfl
  | cons p ps ih =>
    cases p with
    | plain c => exact ih (step st c)
    | found value text =>
      rw [imageOf_found, imageOf_found, List.foldl_append, List.foldl_append, h, ih]

theorem text_of_command {opening text rest body : List Char} {close : Char} {before : Option Char}
    (h : command opening close before (text ++ rest) = some (body, text.length)) :
    text = opening ++ (body ++ [close]) := by
  obtain ⟨-, hlength, tail, htail⟩ := command_eq_some h
  exact (List.append_inj htail hlength).1

/-- A machine that cannot tell the quotes of a command from those of a call of the wrapper reads a
text as it was before its commands were sent through the wrapper. -/
theorem foldl_imageOf_wrapCommand {opening cs : List Char} {close : Char} {before : Option Char}
    {ps : List (Piece (List Char))}
    (hopening : ∀ st, wrapOpening.foldl step st = opening.foldl step st)
    (hclose : ∀ st, wrapClosing.foldl step st = step st close)
    (hquote : ∀ st, step (step st '\\') '"' = step st '"')
    (h : Cut (command opening close) before cs ps) (st : σ) :
    (imageOf wrapCommand ps).foldl step st = cs.foldl step st := by
  induction h generalizing st with
  | done => rfl
  | @plain before c cs ps _ _ ih => exact ih (step st c)
  | found _ hmatch _ ih =>
    rw [imageOf_found, text_of_command hmatch, wrapCommand_eq]
    simp only [List.foldl_append, hopening, foldl_escapeQuotes hquote, hclose, ih, List.foldl_cons,
      List.foldl_nil]

end Fold

/-- A text with the commands between backticks that a search finds sent through the wrapper. -/
def quotesRouted (content : List Char) : List Char :=
  replaceMatches backtickCommand wrapCommand content

/-- A text with the percent literals that a search finds sent through the wrapper. -/
def percentRouted (content : List Char) : List Char :=
  replaceMatches percentCommand wrapCommand content

/-- A text with plain quotes around the commands between backticks that a search finds. -/
def unquoted (content : List Char) : List Char :=
  replaceMatches backtickCommand (fun body => '"' :: (body ++ ['"'])) content

theorem route_eq (content : List Char) :
    route content = percentRouted (quotesRouted (callsRouted content)) := rfl

theorem run_quotesRouted (content : List Char) :
    Call.run .free (quotesRouted content) = Call.run .free content := by
  rw [quotesRouted, replaceMatches_eq]
  refine foldl_imageOf_wrapCommand ?_ ?_ ?_ (fits_backtickCommand.cut content) _
  all_goals
    intro st
    cases st <;> decide +kernel

theorem run_percentRouted (content : List Char) :
    Call.run .free (percentRouted content) = Call.run .free content := by
  rw [percentRouted, replaceMatches_eq]
  refine foldl_imageOf_wrapCommand ?_ ?_ ?_ (fits_percentCommand.cut content) _
  all_goals
    intro st
    cases st <;> decide +kernel

theorem Quote.run_percentRouted (content : List Char) :
    Quote.run .dead (percentRouted content) = Quote.run .dead content := by
  rw [percentRouted, replaceMatches_eq]
  refine foldl_imageOf_wrapCommand ?_ ?_ ?_ (fits_percentCommand.cut content) _
  all_goals
    intro st
    cases st <;> decide +kernel

theorem Quote.run_quotesRouted (content : List Char) :
    Quote.run .dead (quotesRouted content) = Quote.run .dead (unquoted content) := by
  rw [quotesRouted, unquoted, replaceMatches_eq, replaceMatches_eq]
  refine foldl_imageOf_congr ?_ _ _
  intro body st
  have hquote : ∀ st, Quote.step (Quote.step st '\\') '"' = Quote.step st '"' := by
    intro st
    cases st <;> decide +kernel
  have hopening : wrapOpening.foldl Quote.step st = Quote.step st '"' := by
    cases st <;> decide +kernel
  have hclosing : ∀ st, wrapClosing.foldl Quote.step st = Quote.step st '"' := by
    intro st
    cases st <;> decide +kernel
  rw [wrapCommand_eq, List.foldl_append, List.foldl_append, hopening, foldl_escapeQuotes hquote,
    hclosing, List.foldl_cons, List.foldl_append, List.foldl_cons, List.foldl_nil]

/-! ## Percent literals -/

/-- A percent literal with an interpolation starts a text. -/
def OpensPercent (cs : List Char) : Prop :=
  ∃ rest, cs = '%' :: 'x' :: '(' :: rest ∧ Body.run ')' .lead rest = .fed

/-- A percent literal with an interpolation starts inside a text that is followed by another. -/
def PercentIn (text rest : List Char) : Prop :=
  ∃ u w, text = u ++ w ∧ w ≠ [] ∧ OpensPercent (w ++ rest)

theorem isSome_percentCommand {before : Option Char} {cs : List Char} :
    (percentCommand before cs).isSome = true ↔ OpensPercent cs :=
  isSome_command isClose_bracket

@[simp] theorem not_percentIn_nil (rest : List Char) : ¬ PercentIn [] rest := by
  rintro ⟨u, w, htext, hw, -⟩
  exact hw (List.append_eq_nil_iff.mp htext.symm).2

theorem percentIn_cons {c : Char} {text rest : List Char} :
    PercentIn (c :: text) rest ↔ OpensPercent (c :: (text ++ rest)) ∨ PercentIn text rest := by
  constructor
  · rintro ⟨u, w, htext, hw, hopens⟩
    cases u with
    | nil =>
      rw [List.nil_append] at htext
      rw [← htext] at hopens
      exact .inl hopens
    | cons d u => exact .inr ⟨u, w, (List.cons.inj htext).2, hw, hopens⟩
  · rintro (hopens | ⟨u, w, rfl, hw, hopens⟩)
    · exact ⟨[], c :: text, rfl, List.cons_ne_nil c text, hopens⟩
    · exact ⟨c :: u, w, rfl, hw, hopens⟩

theorem percentIn_append {text text' rest : List Char} :
    PercentIn (text ++ text') rest ↔ PercentIn text (text' ++ rest) ∨ PercentIn text' rest := by
  induction text with
  | nil => simp
  | cons c text ih =>
    rw [List.cons_append, percentIn_cons, percentIn_cons, ih, List.append_assoc, or_assoc]

theorem occurs_percentCommand {before : Option Char} {cs : List Char} :
    Occurs percentCommand before cs ↔ PercentIn cs [] := by
  induction cs generalizing before with
  | nil => simp
  | cons c cs ih =>
    rw [occurs_cons, ih, isSome_percentCommand, percentIn_cons, List.append_nil]

theorem not_opensPercent_cons {c : Char} (h : c ≠ '%') (cs : List Char) :
    ¬ OpensPercent (c :: cs) := by
  rintro ⟨rest, hcs, -⟩
  exact h (List.cons.inj hcs).1

theorem not_percentIn_of_notMem {text : List Char} (h : '%' ∉ text) (rest : List Char) :
    ¬ PercentIn text rest := by
  rintro ⟨u, w, rfl, hw, tail, hcs, -⟩
  obtain ⟨c, w, rfl⟩ := List.exists_cons_of_ne_nil hw
  obtain ⟨rfl, -⟩ := List.cons.inj hcs
  simp at h

theorem escapeQuotes_append_eq_cons {c : Char} (h : c ∉ ['"', '\\']) {body rest tail : List Char} :
    escapeQuotes body ++ '"' :: rest = c :: tail ↔
      ∃ body', body = c :: body' ∧ tail = escapeQuotes body' ++ '"' :: rest := by
  obtain ⟨hquote, hslash⟩ : c ≠ '"' ∧ c ≠ '\\' := by simpa using h
  cases body with
  | nil => simp [Ne.symm hquote]
  | cons d body =>
    rw [escapeQuotes_cons]
    by_cases hd : d = '"'
    · subst hd
      simp [Ne.symm hquote, Ne.symm hslash]
    · simp only [hd, if_false, List.nil_append, List.cons_append, List.cons.injEq, and_assoc,
        exists_and_left, exists_eq_left']
      rw [eq_comm (a := tail)]

theorem append_cons_eq_cons {c d : Char} (h : c ≠ d) {body rest tail : List Char} :
    body ++ d :: rest = c :: tail ↔ ∃ body', body = c :: body' ∧ tail = body' ++ d :: rest := by
  cases body with
  | nil => simp [Ne.symm h]
  | cons d body =>
    simp only [List.cons_append, List.cons.injEq, and_assoc, exists_and_left, exists_eq_left']
    rw [eq_comm (a := tail)]

/-- Escaping the quotes of a command opens and closes no percent literal in it. -/
theorem opensPercent_escapeQuotes {c : Char} {body rest rest' : List Char}
    (hrest : ∀ st, Body.run ')' st ('"' :: rest) = Body.run ')' st (')' :: rest')) :
    OpensPercent (c :: (escapeQuotes body ++ '"' :: rest)) ↔
      OpensPercent (c :: (body ++ ')' :: rest')) := by
  have hrun : ∀ text, Body.run ')' .lead (escapeQuotes text ++ '"' :: rest) =
      Body.run ')' .lead (text ++ ')' :: rest') := by
    intro text
    have hquote : ∀ st, Body.State.step ')' (Body.State.step ')' st '\\') '"' =
        Body.State.step ')' st '"' := by
      intro st
      cases st <;> decide +kernel
    have hescape := foldl_escapeQuotes hquote text .lead
    rw [Body.run_append, Body.run_append, hrest, Body.run, Body.run, Body.run, hescape]
    rfl
  constructor
  · rintro ⟨tail, hcs, htail⟩
    obtain ⟨rfl, hx⟩ := List.cons.inj hcs
    obtain ⟨body, rfl, hbracket⟩ := (escapeQuotes_append_eq_cons (c := 'x') (by decide)).mp hx
    obtain ⟨body, rfl, rfl⟩ :=
      (escapeQuotes_append_eq_cons (c := '(') (by decide)).mp hbracket.symm
    exact ⟨body ++ ')' :: rest', rfl, hrun body ▸ htail⟩
  · rintro ⟨tail, hcs, htail⟩
    obtain ⟨rfl, hx⟩ := List.cons.inj hcs
    obtain ⟨body, rfl, hbracket⟩ := (append_cons_eq_cons (c := 'x') (by decide)).mp hx
    obtain ⟨body, rfl, rfl⟩ := (append_cons_eq_cons (c := '(') (by decide)).mp hbracket.symm
    refine ⟨escapeQuotes body ++ '"' :: rest, ?_, hrun body ▸ htail⟩
    rw [escapeQuotes_cons, escapeQuotes_cons]
    rfl

theorem percentIn_escapeQuotes {body rest rest' : List Char}
    (hrest : ∀ st, Body.run ')' st ('"' :: rest) = Body.run ')' st (')' :: rest')) :
    PercentIn (escapeQuotes body) ('"' :: rest) ↔ PercentIn body (')' :: rest') := by
  induction body with
  | nil => simp
  | cons c body ih =>
    rw [escapeQuotes_cons, percentIn_append, ih, percentIn_cons]
    refine or_congr_left ?_
    by_cases hc : c = '"'
    · have hescaped : ¬ PercentIn ['\\', '"'] (escapeQuotes body ++ '"' :: rest) :=
        not_percentIn_of_notMem (by decide) _
      rw [if_pos hc]
      simp [hescaped, not_opensPercent_cons (c := c) (by simp [hc])]
    · rw [if_neg hc, percentIn_cons, List.nil_append, opensPercent_escapeQuotes hrest]
      simp

/-- Where a text that was sent through the wrapper starts with a character of a literal's opening,
the text before did. -/
theorem Cut.eq_plain_cons {before : Option Char} {cs tail : List Char}
    {ps : List (Piece (List Char))} {c : Char} (h : Cut percentCommand before cs ps) (hc : c ≠ 's')
    (himage : imageOf wrapCommand ps = c :: tail) :
    ∃ cs' ps', cs = c :: cs' ∧ Cut percentCommand (some c) cs' ps' ∧
      tail = imageOf wrapCommand ps' := by
  cases h with
  | done => cases himage
  | @plain _ d cs' ps' _ hcut =>
    obtain ⟨rfl, rfl⟩ := List.cons.inj himage
    exact ⟨cs', ps', rfl, hcut, rfl⟩
  | found _ _ _ =>
    rw [imageOf_found, wrapCommand_eq] at himage
    exact absurd (List.cons.inj himage).1.symm hc

theorem Body.run_imageOf {before : Option Char} {cs : List Char} {ps : List (Piece (List Char))}
    (h : Cut percentCommand before cs ps) (st : Body.State) :
    Body.run ')' st (imageOf wrapCommand ps) = Body.run ')' st cs := by
  refine foldl_imageOf_wrapCommand ?_ ?_ ?_ h st
  all_goals
    intro st
    cases st <;> decide +kernel

/-- A literal that starts inside another one starts inside its body. -/
theorem percentIn_literal {body rest : List Char} :
    (∃ u w, "%x(".toList ++ (body ++ [')']) = u ++ w ∧ u ≠ [] ∧ w ≠ [] ∧
      (percentCommand u.getLast? (w ++ rest)).isSome = true) ↔ PercentIn body (')' :: rest) := by
  have hmark : PercentIn ('x' :: '(' :: (body ++ [')'])) rest ↔ PercentIn body (')' :: rest) := by
    have hx := not_opensPercent_cons (c := 'x') (by decide)
    have hbracket := not_opensPercent_cons (c := '(') (by decide)
    have hend : ¬ PercentIn [')'] rest := not_percentIn_of_notMem (by decide) rest
    rw [percentIn_cons, percentIn_cons, percentIn_append]
    simp [hx, hbracket, hend]
  rw [← hmark]
  constructor
  · rintro ⟨u, w, htext, hu, hw, hmatch⟩
    obtain ⟨c, u, rfl⟩ := List.exists_cons_of_ne_nil hu
    exact ⟨u, w, (List.cons.inj htext).2, hw, isSome_percentCommand.mp hmatch⟩
  · rintro ⟨u, w, htext, hw, hopens⟩
    refine ⟨'%' :: u, w, ?_, by simp, hw, isSome_percentCommand.mpr hopens⟩
    rw [List.cons_append, ← htext]
    rfl

/-- A text keeps a percent literal when one literal that is found holds the start of another. -/
theorem percentIn_imageOf {before : Option Char} {cs : List Char} {ps : List (Piece (List Char))}
    (h : Cut percentCommand before cs ps) :
    PercentIn (imageOf wrapCommand ps) [] ↔ Overlaps percentCommand ps := by
  induction h with
  | done => simp
  | @plain before c cs ps hnone hcut ih =>
    rw [imageOf_plain, percentIn_cons, ih, overlaps_plain, List.append_nil]
    have hnot : ¬ OpensPercent (c :: imageOf wrapCommand ps) := by
      rintro ⟨tail, himage, hrun⟩
      obtain ⟨rfl, hx⟩ := List.cons.inj himage
      obtain ⟨cs, ps, rfl, hcut, hbracket⟩ := Cut.eq_plain_cons (c := 'x') hcut (by decide) hx
      obtain ⟨cs, ps, rfl, hcut, rfl⟩ :=
        Cut.eq_plain_cons (c := '(') hcut (by decide) hbracket.symm
      rw [Body.run_imageOf hcut] at hrun
      have hmatch : (percentCommand before _).isSome = true :=
        isSome_percentCommand.mpr ⟨cs, rfl, hrun⟩
      rw [hnone] at hmatch
      cases hmatch
    simp [hnot]
  | @found before body text rest ps _ hmatch hcut ih =>
    have hopening : ¬ PercentIn wrapOpening
        (escapeQuotes body ++ wrapClosing ++ imageOf wrapCommand ps) :=
      not_percentIn_of_notMem (by decide) _
    have hclosing : ¬ PercentIn wrapClosing (imageOf wrapCommand ps) :=
      not_percentIn_of_notMem (by decide) _
    have hrest : ∀ st, Body.run ')' st ('"' :: ')' :: imageOf wrapCommand ps) =
        Body.run ')' st (')' :: rest) := by
      intro st
      simp only [Body.run_cons]
      rw [Body.run_imageOf hcut]
      cases st <;> rfl
    rw [imageOf_found, wrapCommand_eq, percentIn_append, percentIn_append, percentIn_append, ih,
      overlaps_found]
    have hinside : (∃ u w, text = u ++ w ∧ u ≠ [] ∧ w ≠ [] ∧
        (percentCommand u.getLast? (w ++ textOf ps)).isSome = true) ↔
        PercentIn body (')' :: rest) := by
      rw [text_of_command hmatch, hcut.textOf_eq]
      exact percentIn_literal
    simp only [List.append_nil, hopening, hclosing, false_or, or_false, hinside]
    rw [wrapClosing, List.cons_append, List.singleton_append, percentIn_escapeQuotes hrest]

/-- Sending the percent literals that a search finds through the wrapper leaves one behind when
one of them holds the start of another. -/
theorem occurs_percentRouted {content : List Char} :
    Occurs percentCommand none (percentRouted content) ↔
      Overlaps percentCommand (pieces percentCommand content) := by
  rw [occurs_percentCommand, percentRouted, replaceMatches_eq]
  exact percentIn_imageOf (fits_percentCommand.cut content)

end RepoAudit.Ruby
