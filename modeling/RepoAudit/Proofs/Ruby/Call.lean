import Mathlib.Data.List.Chain
import Mathlib.Tactic.SplitIfs
import RepoAudit.Ruby.Shell
import RepoAudit.Proofs.Text.Blank
import RepoAudit.Proofs.Text.Match

/-!
# Calls of shell functions

A call of a shell function is found by a machine that reads a text from left to right and keeps how
much of a name it has seen. Renaming the calls that a search finds leaves a call behind exactly
when one call starts inside another one, as the first bracket of `exec(system(cmd))` does.

## Main definitions

- `Call.State`, `Call.run` — the machine
- `callsRouted` — a text with the calls that a search finds sent through the wrapper

## Main statements

- `Call.run_eq_opened_iff` — the machine ends in `opened` when a call occurs
- `occurs_callsRouted` — which texts keep a call
-/

namespace RepoAudit.Ruby

open RepoAudit.Text

/-- A text goes on with blanks and an opening bracket. -/
def OpensBracket (cs : List Char) : Prop :=
  (trimStart cs).head? = some '('

/-- A text starts with the name of a shell function, blanks and an opening bracket. -/
def OpensCall (cs : List Char) : Prop :=
  (callOpening? cs).isSome = true

/-- A call may start after a character. -/
def Leads (c : Char) : Prop :=
  c ≠ '.' ∧ isWord c = false

/-- A text goes on with some letters, blanks and an opening bracket. -/
def GoesOn (letters cs : List Char) : Prop :=
  ∃ rest, cs = letters ++ rest ∧ OpensBracket rest

theorem goesOn_cons {letter c : Char} {letters cs : List Char} :
    GoesOn (letter :: letters) (c :: cs) ↔ c = letter ∧ GoesOn letters cs := by
  constructor
  · rintro ⟨rest, hcs, hrest⟩
    obtain ⟨rfl, rfl⟩ := List.cons.inj hcs
    exact ⟨rfl, rest, rfl, hrest⟩
  · rintro ⟨rfl, rest, rfl, hrest⟩
    exact ⟨rest, rfl, hrest⟩

theorem goesOn_nil {cs : List Char} : GoesOn [] cs ↔ OpensBracket cs := by
  simp [GoesOn]

theorem opensBracket_cons {c : Char} {cs : List Char} :
    OpensBracket (c :: cs) ↔ c = '(' ∨ isBlank c = true ∧ OpensBracket cs := by
  rw [OpensBracket, trimStart]
  by_cases hblank : isBlank c = true
  · have hne : c ≠ '(' := by
      rintro rfl
      exact absurd hblank (by decide)
    rw [List.dropWhile_cons_of_pos hblank]
    simp [hblank, hne, OpensBracket, trimStart]
  · rw [List.dropWhile_cons_of_neg hblank]
    simp [hblank]

theorem opensCall_iff {cs : List Char} :
    OpensCall cs ↔ GoesOn "system".toList cs ∨ GoesOn "exec".toList cs := by
  have hnames : (∃ name ∈ ["system".toList, "exec".toList], GoesOn name cs) ↔
      GoesOn "system".toList cs ∨ GoesOn "exec".toList cs := by
    simp only [List.mem_cons, List.not_mem_nil, or_false, exists_eq_or_imp, exists_eq_left]
  rw [OpensCall, callOpening?, List.findSome?_isSome_iff, ← hnames]
  constructor
  · rintro ⟨name, hname, hopens⟩
    obtain ⟨opening, hopening⟩ := Option.isSome_iff_exists.mp hopens
    obtain ⟨rest, hrest, hmatch⟩ := Option.bind_eq_some_iff.mp hopening
    refine ⟨name, hname, rest, after?_eq_some.mp hrest, ?_⟩
    split at hmatch
    · rename_i htrim
      rw [OpensBracket, htrim]
      rfl
    · cases hmatch
  · rintro ⟨name, hname, rest, hcs, hbracket⟩
    refine ⟨name, hname, ?_⟩
    rw [after?_eq_some.mpr hcs, Option.bind_some]
    obtain ⟨tail, htail⟩ := List.head?_eq_some_iff.mp hbracket
    rw [htail]
    rfl

theorem opensCall_cons {c : Char} {cs : List Char} :
    OpensCall (c :: cs) ↔
      c = 's' ∧ GoesOn "ystem".toList cs ∨ c = 'e' ∧ GoesOn "xec".toList cs := by
  rw [opensCall_iff]
  exact or_congr goesOn_cons goesOn_cons

theorem callOpening?_eq_some {cs name opening : List Char}
    (h : callOpening? cs = some (name, opening)) :
    (name = "system".toList ∨ name = "exec".toList) ∧
      ∃ blanks rest, opening = blanks ++ ['('] ∧ (∀ c ∈ blanks, isBlank c = true) ∧
        cs = name ++ (opening ++ rest) := by
  rw [callOpening?] at h
  obtain ⟨found, hfound, hopening⟩ := List.exists_of_findSome?_eq_some h
  obtain ⟨rest, hrest, hmatch⟩ := Option.bind_eq_some_iff.mp hopening
  rw [after?_eq_some] at hrest
  split at hmatch
  · rename_i tail htail
    obtain ⟨rfl, rfl⟩ := Prod.mk.inj (Option.some.inj hmatch)
    have hsplit : rest = indent rest ++ '(' :: tail := by
      rw [← htail, indent_append_trimStart]
    refine ⟨by simpa using hfound, indent rest, tail, rfl, ?_, ?_⟩
    · intro c hc
      exact List.all_eq_true.mp List.all_takeWhile c hc
    · rw [hrest, List.append_assoc, List.singleton_append, ← hsplit]
  · cases hmatch

theorem not_opensBracket_of_opensCall {cs : List Char} (h : OpensCall cs) : ¬ OpensBracket cs := by
  cases cs with
  | nil => exact absurd h (by simp [OpensCall, callOpening?, after?])
  | cons c cs =>
    rw [opensBracket_cons]
    rcases opensCall_cons.mp h with ⟨rfl, -⟩ | ⟨rfl, -⟩
    · simp [show isBlank 's' = false by decide]
    · simp [show isBlank 'e' = false by decide]

theorem opensCall_name {name blanks rest : List Char}
    (hname : name = "system".toList ∨ name = "exec".toList)
    (hblanks : ∀ c ∈ blanks, isBlank c = true) :
    OpensCall (name ++ (blanks ++ ['('] ++ rest)) := by
  have hbracket : OpensBracket (blanks ++ ['('] ++ rest) := by
    rw [OpensBracket, trimStart, List.append_assoc, List.dropWhile_append_of_pos hblanks]
    rfl
  rw [opensCall_iff]
  rcases hname with rfl | rfl
  · exact .inl ⟨_, rfl, hbracket⟩
  · exact .inr ⟨_, rfl, hbracket⟩

theorem leads_of_isBlank {c : Char} (h : isBlank c = true) : Leads c := by
  refine ⟨?_, isWord_of_isBlank h⟩
  rintro rfl
  exact absurd h (by decide)

theorem Leads.ne {c letter : Char} (h : Leads c) (hletter : isWord letter = true) :
    c ≠ letter := by
  rintro rfl
  rw [h.2] at hletter
  cases hletter

/-- Two letters that follow each other start no name of a shell function. -/
def NoName (c d : Char) : Prop :=
  (c = 's' → d ≠ 'y') ∧ (c = 'e' → d ≠ 'x')

instance : DecidableRel NoName := fun _ _ => inferInstanceAs (Decidable (_ ∧ _))

theorem not_opensCall_of_isChain {cs rest : List Char} (h : (cs ++ ['(']).IsChain NoName) :
    ¬ OpensCall (cs ++ '(' :: rest) := by
  cases cs with
  | nil =>
    rw [List.nil_append, opensCall_cons]
    rintro (⟨hc, -⟩ | ⟨hc, -⟩) <;> cases hc
  | cons c cs =>
    obtain ⟨d, tail, htail⟩ : ∃ d tail, cs ++ ['('] = d :: tail :=
      List.exists_cons_of_ne_nil (by simp)
    have hrest : cs ++ '(' :: rest = d :: (tail ++ rest) := by
      rw [← List.cons_append, ← htail]
      simp
    rw [List.cons_append, htail] at h
    obtain ⟨⟨hy, hx⟩, -⟩ := List.isChain_cons_cons.mp h
    rw [List.cons_append, opensCall_cons, hrest]
    rintro (⟨hc, hname⟩ | ⟨hc, hname⟩)
    · exact hy hc (goesOn_cons.mp hname).1
    · exact hx hc (goesOn_cons.mp hname).1

namespace Call

/-- How much of a call has been read. -/
inductive State where
  /-- A name may start here. -/
  | free
  /-- The name of a receiver or a part of a word stands before. -/
  | bound
  /-- The start of `system`. -/
  | s | sy | sys | syst | syste
  /-- The start of `exec`. -/
  | e | ex | exe
  /-- A whole name. -/
  | named
  /-- A whole name and blanks. -/
  | spaced
  /-- A call. -/
  | opened
deriving DecidableEq

namespace State

/-- What is known after a character that belongs to no name. -/
def settle (c : Char) : State :=
  if c = '.' || isWord c then bound else free

/-- What is known after a character where a name may start. -/
def begin (c : Char) : State :=
  if c = 's' then s else if c = 'e' then e else settle c

/-- What is known after one letter that goes on with a name, or another character. -/
def spell (letter : Char) (next : State) (c : Char) : State :=
  if c = letter then next else settle c

/-- Reads one character. -/
def step : State → Char → State
  | free, c => begin c
  | bound, c => settle c
  | s, c => spell 'y' sy c
  | sy, c => spell 's' sys c
  | sys, c => spell 't' syst c
  | syst, c => spell 'e' syste c
  | syste, c => spell 'm' named c
  | e, c => spell 'x' ex c
  | ex, c => spell 'e' exe c
  | exe, c => spell 'c' named c
  | named, c => if c = '(' then opened else if isBlank c then spaced else settle c
  | spaced, c => if c = '(' then opened else if isBlank c then spaced else begin c
  | opened, _ => opened

end State

open State

/-- Reads a text. -/
def run (st : State) (cs : List Char) : State :=
  cs.foldl step st

@[simp] theorem run_nil (st : State) : run st [] = st := rfl

@[simp] theorem run_cons (st : State) (c : Char) (cs : List Char) :
    run st (c :: cs) = run (st.step c) cs := rfl

theorem run_append (st : State) (as bs : List Char) : run st (as ++ bs) = run (run st as) bs :=
  List.foldl_append

@[simp] theorem run_opened (cs : List Char) : run opened cs = opened := by
  induction cs with
  | nil => rfl
  | cons c cs ih => exact ih

/-- A text completes the call of which a state is the start. -/
def Completes : State → List Char → Prop
  | free, cs => OpensCall cs
  | bound, _ => False
  | s, cs => GoesOn "ystem".toList cs
  | sy, cs => GoesOn "stem".toList cs
  | sys, cs => GoesOn "tem".toList cs
  | syst, cs => GoesOn "em".toList cs
  | syste, cs => GoesOn "m".toList cs
  | e, cs => GoesOn "xec".toList cs
  | ex, cs => GoesOn "ec".toList cs
  | exe, cs => GoesOn "c".toList cs
  | named, cs => OpensBracket cs
  | spaced, cs => OpensBracket cs ∨ OpensCall cs
  | opened, _ => True

namespace State

theorem completes_free {cs : List Char} : Completes free cs ↔ OpensCall cs := Iff.rfl

theorem completes_named {cs : List Char} : Completes named cs ↔ OpensBracket cs := Iff.rfl

theorem completes_spaced {cs : List Char} :
    Completes spaced cs ↔ OpensBracket cs ∨ OpensCall cs := Iff.rfl

theorem completes_opened (cs : List Char) : Completes opened cs := trivial

theorem not_completes_bound (cs : List Char) : ¬ Completes bound cs := id

theorem completes_settle {c : Char} {cs : List Char} :
    Completes (settle c) cs ↔ Leads c ∧ OpensCall cs := by
  rw [settle, Leads]
  by_cases h : c = '.' ∨ isWord c = true
  · rw [if_pos (by simpa using h)]
    simp only [not_completes_bound, false_iff]
    rintro ⟨⟨hdot, hword⟩, -⟩
    rcases h with h | h
    · exact hdot h
    · rw [hword] at h
      cases h
  · rw [if_neg (by simpa using h)]
    obtain ⟨hdot, hword⟩ := not_or.mp h
    simp [completes_free, hdot, hword]

theorem completes_spell {letter c : Char} {next : State} {cs : List Char}
    (hletter : isWord letter = true) :
    Completes (spell letter next c) cs ↔
      c = letter ∧ Completes next cs ∨ Leads c ∧ OpensCall cs := by
  rw [spell]
  by_cases h : c = letter
  · subst h
    simp [Leads, hletter]
  · rw [if_neg h, completes_settle]
    simp [h]

theorem completes_begin {c : Char} {cs : List Char} :
    Completes (begin c) cs ↔ OpensCall (c :: cs) ∨ Leads c ∧ OpensCall cs := by
  rw [begin, opensCall_cons]
  by_cases hs : c = 's'
  · subst hs
    have hword : isWord 's' = true := by decide
    simp [Completes, Leads, hword]
  · by_cases he : c = 'e'
    · subst he
      have hword : isWord 'e' = true := by decide
      simp [Completes, Leads, hword]
    · rw [if_neg hs, if_neg he, completes_settle]
      simp [hs, he]

/-- After one more character, what completes a call completed it before or is a call that starts
after the character. -/
theorem completes_step (st : State) (c : Char) (cs : List Char) :
    Completes (st.step c) cs ↔ Completes st (c :: cs) ∨ Leads c ∧ OpensCall cs := by
  cases st with
  | free => exact completes_begin
  | bound =>
    refine completes_settle.trans ?_
    simp only [not_completes_bound, false_or]
  | s => exact (completes_spell (by decide)).trans (or_congr_left goesOn_cons.symm)
  | sy => exact (completes_spell (by decide)).trans (or_congr_left goesOn_cons.symm)
  | sys => exact (completes_spell (by decide)).trans (or_congr_left goesOn_cons.symm)
  | syst => exact (completes_spell (by decide)).trans (or_congr_left goesOn_cons.symm)
  | syste =>
    refine (completes_spell (by decide)).trans (or_congr_left ?_)
    exact (goesOn_cons.trans (and_congr_right fun _ => goesOn_nil)).symm
  | e => exact (completes_spell (by decide)).trans (or_congr_left goesOn_cons.symm)
  | ex => exact (completes_spell (by decide)).trans (or_congr_left goesOn_cons.symm)
  | exe =>
    refine (completes_spell (by decide)).trans (or_congr_left ?_)
    exact (goesOn_cons.trans (and_congr_right fun _ => goesOn_nil)).symm
  | named =>
    rw [step, completes_named, opensBracket_cons]
    by_cases hopen : c = '('
    · simp [hopen, completes_opened]
    · by_cases hblank : isBlank c = true
      · simp [hopen, hblank, completes_spaced, leads_of_isBlank hblank]
      · simp [hopen, hblank, completes_settle]
  | spaced =>
    rw [step, completes_spaced, opensBracket_cons]
    by_cases hopen : c = '('
    · simp [hopen, completes_opened]
    · by_cases hblank : isBlank c = true
      · have hname : ¬ OpensCall (c :: cs) := by
          rw [opensCall_cons]
          rintro (⟨rfl, -⟩ | ⟨rfl, -⟩) <;> exact absurd hblank (by decide)
        simp [hopen, hblank, completes_spaced, leads_of_isBlank hblank, hname]
      · simp [hopen, hblank, completes_begin]
  | opened => simp [step, completes_opened]

end State

theorem callAfter?_eq_some {lead cs : List Char} {call : Call} {n : Nat}
    (h : callAfter? lead cs = some (call, n)) :
    call.lead = lead ∧ ∃ name blanks, (name = "system".toList ∨ name = "exec".toList) ∧
      (∀ c ∈ blanks, isBlank c = true) ∧ call.opening = blanks ++ ['('] ∧
      cs = name ++ (call.opening ++ call.rest) ∧ n = (lead ++ (name ++ call.opening)).length := by
  rw [callAfter?] at h
  obtain ⟨⟨name, opening⟩, hopening, hcall⟩ := Option.map_eq_some_iff.mp h
  obtain ⟨hname, blanks, rest, hblanks, hall, hcs⟩ := callOpening?_eq_some hopening
  obtain ⟨rfl, rfl⟩ := Prod.mk.inj hcall
  refine ⟨rfl, name, blanks, hname, hall, hblanks, ?_, by simp⟩
  have hdrop : cs.drop (name.length + opening.length) = rest := by
    rw [hcs, ← List.append_assoc, ← List.length_append, List.drop_left]
  rw [hdrop]
  exact hcs

theorem isSome_callAfter? {lead cs : List Char} :
    (callAfter? lead cs).isSome = true ↔ OpensCall cs := by
  rw [callAfter?, Option.isSome_map, OpensCall]

theorem shellCall_cons (before c : Char) (cs : List Char) :
    shellCall (some before) (c :: cs) =
      if c = '.' || isWord c then none else callAfter? [c] cs := rfl

/-- At the start of a text a call needs no character before it. -/
theorem shellCall_none (before : Char) (cs : List Char) :
    shellCall none cs = (callAfter? [] cs).or (shellCall (some before) cs) := by
  cases h : callAfter? [] cs <;> simp [shellCall, h]

/-- A call that is found starts with its name at the start of the text, and else with a character
that leads it. -/
theorem shellCall_eq_some {before : Option Char} {cs : List Char} {call : Call} {n : Nat}
    (h : shellCall before cs = some (call, n)) :
    (before = none ∧ call.lead = [] ∨ ∃ c, call.lead = [c] ∧ Leads c) ∧
      ∃ name blanks, (name = "system".toList ∨ name = "exec".toList) ∧
        (∀ c ∈ blanks, isBlank c = true) ∧ call.opening = blanks ++ ['('] ∧
        cs = call.lead ++ (name ++ (call.opening ++ call.rest)) ∧
        n = (call.lead ++ (name ++ call.opening)).length := by
  have hinner : ∀ b, shellCall (some b) cs = some (call, n) →
      (∃ c, call.lead = [c] ∧ Leads c) ∧
        ∃ name blanks, (name = "system".toList ∨ name = "exec".toList) ∧
          (∀ c ∈ blanks, isBlank c = true) ∧ call.opening = blanks ++ ['('] ∧
          cs = call.lead ++ (name ++ (call.opening ++ call.rest)) ∧
          n = (call.lead ++ (name ++ call.opening)).length := by
    intro b hb
    cases cs with
    | nil => cases hb
    | cons c rest =>
      rw [shellCall_cons] at hb
      split at hb
      · cases hb
      · rename_i hlead
        have hleads : Leads c := by simpa [Leads] using hlead
        obtain ⟨hcall, name, blanks, hname, hall, hblanks, hcs, hn⟩ := callAfter?_eq_some hb
        refine ⟨⟨c, hcall, hleads⟩, name, blanks, hname, hall, hblanks, ?_, ?_⟩
        · rw [hcall, List.singleton_append, ← hcs]
        · rw [hcall, ← hn]
  cases before with
  | some b =>
    obtain ⟨hlead, hrest⟩ := hinner b h
    exact ⟨.inr hlead, hrest⟩
  | none =>
    rw [shellCall_none '.'] at h
    rcases Option.or_eq_some_iff.mp h with hstart | ⟨-, hlater⟩
    · obtain ⟨hlead, name, blanks, hname, hall, hblanks, hcs, hn⟩ := callAfter?_eq_some hstart
      refine ⟨.inl ⟨rfl, hlead⟩, name, blanks, hname, hall, hblanks, ?_, ?_⟩
      · rw [hlead, List.nil_append, ← hcs]
      · rw [hlead, ← hn]
    · obtain ⟨hlead, hrest⟩ := hinner '.' hlater
      exact ⟨.inr hlead, hrest⟩

theorem isSome_shellCall {before c : Char} {cs : List Char} :
    (shellCall (some before) (c :: cs)).isSome = true ↔ Leads c ∧ OpensCall cs := by
  rw [shellCall_cons]
  split
  · rename_i h
    simp only [Option.isSome_none, Bool.false_eq_true, false_iff, Leads]
    rintro ⟨⟨hdot, hword⟩, -⟩
    simp [hdot, hword] at h
  · rename_i h
    have hleads : Leads c := by simpa [Leads] using h
    simp [isSome_callAfter?, hleads]

theorem isSome_shellCall_start {c : Char} {cs : List Char} :
    (shellCall none (c :: cs)).isSome = true ↔
      OpensCall (c :: cs) ∨ Leads c ∧ OpensCall cs := by
  rw [shellCall_none c, Option.isSome_or, Bool.or_eq_true, isSome_callAfter?, isSome_shellCall]

theorem fits_shellCall : shellCall.Fits := by
  intro before cs call n h
  obtain ⟨-, name, blanks, hname, -, hopening, hcs, rfl⟩ := shellCall_eq_some h
  constructor
  · simp only [hopening, List.length_append, List.length_singleton]
    omega
  · rw [hcs]
    simp only [List.length_append]
    omega

theorem completes_nil (st : State) : Completes st [] ↔ st = opened := by
  have hname : ¬ OpensCall [] := by simp [OpensCall, callOpening?, after?]
  cases st <;> simp [Completes, GoesOn, OpensBracket, trimStart, hname]

/-- The machine finds the calls of a text. -/
theorem run_eq_opened_iff (st : State) (before : Char) (cs : List Char) :
    run st cs = opened ↔ Completes st cs ∨ Occurs shellCall (some before) cs := by
  induction cs generalizing st before with
  | nil => simp [completes_nil]
  | cons c cs ih =>
    rw [run_cons, ih (st.step c) c, State.completes_step, occurs_cons, isSome_shellCall, or_assoc]

theorem occurs_shellCall {cs : List Char} : Occurs shellCall none cs ↔ run free cs = opened := by
  cases cs with
  | nil => simp
  | cons c cs =>
    rw [occurs_cons, isSome_shellCall_start, run_cons, run_eq_opened_iff _ c,
      State.completes_step, State.completes_free]

namespace State

theorem settle_of_leads {c : Char} (h : Leads c) : settle c = free := by
  simp [settle, h.1, h.2]

theorem begin_of_leads {c : Char} (h : Leads c) : begin c = free := by
  rw [begin, if_neg (h.ne (by decide)), if_neg (h.ne (by decide)), settle_of_leads h]

theorem spell_of_leads {c letter : Char} (h : Leads c) (hletter : isWord letter = true)
    (next : State) : spell letter next c = free := by
  rw [spell, if_neg (h.ne hletter), settle_of_leads h]

/-- After a character that may lead a call, no name has been started. -/
theorem step_of_leads (st : State) {c : Char} (h : Leads c) :
    st.step c = opened ∨ st.step c = free ∨ st.step c = spaced := by
  cases st with
  | free => exact .inr (.inl (begin_of_leads h))
  | bound => exact .inr (.inl (settle_of_leads h))
  | named =>
    rw [step, settle_of_leads h]
    split <;> simp
  | spaced =>
    rw [step, begin_of_leads h]
    split <;> simp
  | opened => exact .inl rfl
  | _ => exact .inr (.inl (spell_of_leads h (by decide) _))

/-- A character that leads a call completes another one only as its bracket. -/
theorem completes_of_leads (st : State) {c : Char} {cs : List Char} (h : Leads c)
    (hbracket : ¬ OpensBracket cs) : Completes st (c :: cs) ↔ st.step c = opened := by
  have hcall : ¬ OpensCall (c :: cs) := by
    rw [opensCall_cons]
    rintro (⟨hc, -⟩ | ⟨hc, -⟩)
    · exact h.ne (by decide) hc
    · exact h.ne (by decide) hc
  have hspell : ∀ letter letters next, isWord letter = true →
      (GoesOn (letter :: letters) (c :: cs) ↔ spell letter next c = opened) := by
    intro letter letters next hletter
    rw [goesOn_cons, spell_of_leads h hletter]
    simp [h.ne hletter]
  cases st with
  | free =>
    rw [completes_free, step, begin_of_leads h]
    simp [hcall]
  | bound =>
    rw [step, settle_of_leads h]
    simp [not_completes_bound]
  | named =>
    rw [completes_named, opensBracket_cons, step, settle_of_leads h]
    by_cases hopen : c = '('
    · simp [hopen]
    · by_cases hblank : isBlank c = true <;> simp [hopen, hbracket, hblank]
  | spaced =>
    rw [completes_spaced, opensBracket_cons, step, begin_of_leads h]
    by_cases hopen : c = '('
    · simp [hopen]
    · by_cases hblank : isBlank c = true <;> simp [hopen, hbracket, hblank, hcall]
  | opened => simp [step, completes_opened]
  | s => exact hspell 'y' "stem".toList sy (by decide)
  | sy => exact hspell 's' "tem".toList sys (by decide)
  | sys => exact hspell 't' "em".toList syst (by decide)
  | syst => exact hspell 'e' "m".toList syste (by decide)
  | syste => exact hspell 'm' [] named (by decide)
  | e => exact hspell 'x' "ec".toList ex (by decide)
  | ex => exact hspell 'e' "c".toList exe (by decide)
  | exe => exact hspell 'c' [] named (by decide)

end State

theorem run_opening {st : State} {blanks : List Char} (h : ∀ c ∈ blanks, isBlank c = true)
    (hst : st = bound ∨ st = free) : run st (blanks ++ ['(']) = free := by
  induction blanks generalizing st with
  | nil => rcases hst with rfl | rfl <;> decide
  | cons c blanks ih =>
    obtain ⟨hc, hblanks⟩ := List.forall_mem_cons.mp h
    rw [List.cons_append, run_cons]
    refine ih hblanks (.inr ?_)
    rcases hst with rfl | rfl
    · exact State.settle_of_leads (leads_of_isBlank hc)
    · exact State.begin_of_leads (leads_of_isBlank hc)

/-- Renaming a call leaves nothing of it to the machine. -/
theorem run_renamed {st : State} {blanks : List Char} (h : ∀ c ∈ blanks, isBlank c = true)
    (hst : st = free ∨ st = spaced) : run st (wrapperName ++ (blanks ++ ['('])) = free := by
  rw [run_append]
  refine run_opening h (.inl ?_)
  rcases hst with rfl | rfl <;> decide

/-- A bracket that follows a character opens no call. -/
def NoBracket (c d : Char) : Prop :=
  d = '(' → c ≠ 'm' ∧ c ≠ 'c' ∧ isBlank c = false

instance : DecidableRel NoBracket := fun _ _ => inferInstanceAs (Decidable (_ → _))

theorem State.step_eq_opened {st : State} {c : Char} (h : st.step c = opened) :
    st = opened ∨ c = '(' ∧ (st = named ∨ st = spaced) := by
  cases st with
  | named =>
    by_cases hc : c = '('
    · exact .inr ⟨hc, .inl rfl⟩
    · simp only [step, settle, if_neg hc] at h
      split_ifs at h
  | spaced =>
    by_cases hc : c = '('
    · exact .inr ⟨hc, .inr rfl⟩
    · simp only [step, begin, settle, if_neg hc] at h
      split_ifs at h
  | opened => exact .inl rfl
  | _ =>
    simp only [step, begin, spell, settle] at h
    split_ifs at h

theorem State.step_eq_named {st : State} {c : Char} (h : st.step c = named ∨ st.step c = spaced) :
    c = 'm' ∨ c = 'c' ∨ isBlank c = true := by
  cases st with
  | opened => simp [step] at h
  | _ =>
    simp only [step, begin, spell, settle] at h
    split_ifs at h <;> simp_all

/-- A text whose brackets follow no name and no blank holds no call. -/
theorem run_ne_opened {st : State} {c : Char} {cs : List Char}
    (h : (c :: cs).IsChain NoBracket) (hst : st.step c ≠ opened) : run (st.step c) cs ≠ opened := by
  induction cs generalizing st c with
  | nil => exact hst
  | cons d cs ih =>
    obtain ⟨hcd, hcs⟩ := List.isChain_cons_cons.mp h
    refine ih hcs fun hopened => ?_
    rcases State.step_eq_opened hopened with hc | ⟨hd, hnamed⟩
    · exact hst hc
    · obtain ⟨hm, hc, hblank⟩ := hcd hd
      rcases State.step_eq_named hnamed with h | h | h
      · exact hm h
      · exact hc h
      · rw [hblank] at h
        cases h

end Call

open Call Call.State

/-- A call that is found, sent through the wrapper. -/
def renamed (call : Call) : List Char :=
  call.lead ++ wrapperName ++ call.opening

/-- A text with the calls that a search finds sent through the wrapper. -/
def callsRouted (content : List Char) : List Char :=
  replaceMatches shellCall renamed content

theorem isWord_of_mem_name {name : List Char} (h : name = "system".toList ∨ name = "exec".toList) :
    ∀ c ∈ name, isWord c = true := by
  rcases h with rfl | rfl <;> exact List.all_eq_true.mp rfl

/-- Inside a call that is found, only its bracket can lead another one. -/
theorem starts_inside_call {lead name blanks rest : List Char}
    (hlead : lead.length ≤ 1) (hname : name = "system".toList ∨ name = "exec".toList)
    (hblanks : ∀ c ∈ blanks, isBlank c = true) :
    (∃ u w, lead ++ (name ++ (blanks ++ ['('])) = u ++ w ∧ u ≠ [] ∧ w ≠ [] ∧
      (shellCall u.getLast? (w ++ rest)).isSome = true) ↔ OpensCall rest := by
  constructor
  · rintro ⟨u, w, htext, hu, hw, hmatch⟩
    obtain ⟨c, w, rfl⟩ := List.exists_cons_of_ne_nil hw
    rw [List.getLast?_eq_some_getLast hu, List.cons_append, isSome_shellCall] at hmatch
    obtain ⟨hleads, hcall⟩ := hmatch
    rcases append_eq_append_cases htext with ⟨u', -, htail⟩ | ⟨v, hv, hlead', -⟩
    · rcases append_eq_append_cases htail with ⟨u'', -, hopening⟩ | ⟨v, hv, hname', hvw⟩
      · rcases append_eq_append_cases hopening with ⟨u₃, -, hbracket⟩ | ⟨v, hv, hblank, hvw⟩
        · have hnil : w = [] := by
            have hlength := congrArg List.length hbracket
            rw [List.length_append, List.length_cons, List.length_cons, List.length_nil] at hlength
            exact List.length_eq_zero_iff.mp (by omega)
          rwa [hnil, List.nil_append] at hcall
        · obtain ⟨d, v, rfl⟩ := List.exists_cons_of_ne_nil hv
          obtain ⟨rfl, rfl⟩ := List.cons.inj hvw
          have hbracket : OpensBracket (v ++ ['('] ++ rest) := by
            rw [OpensBracket, trimStart, List.append_assoc, List.dropWhile_append_of_pos]
            · rfl
            · intro d hd
              exact hblanks d (hblank ▸ by simp [hd])
          exact absurd hbracket (not_opensBracket_of_opensCall hcall)
      · obtain ⟨d, v, rfl⟩ := List.exists_cons_of_ne_nil hv
        obtain ⟨rfl, -⟩ := List.cons.inj hvw
        have hword := isWord_of_mem_name hname c (hname' ▸ by simp)
        exact absurd rfl (hleads.ne hword)
    · have hlength := congrArg List.length hlead'
      rw [List.length_append] at hlength
      have hupos := List.length_pos_iff.mpr hu
      have hvpos := List.length_pos_iff.mpr hv
      omega
  · intro h
    refine ⟨lead ++ (name ++ blanks), ['('], by simp, ?_, by simp, ?_⟩
    · rcases hname with rfl | rfl <;> simp
    · have hu : lead ++ (name ++ blanks) ≠ [] := by rcases hname with rfl | rfl <;> simp
      rw [List.getLast?_eq_some_getLast hu]
      exact isSome_shellCall.mpr ⟨⟨by decide, by decide⟩, h⟩

/-- Where no call is found, what completes one after the next character completed it before. -/
theorem completes_step_of_eq_none {st : State} {before : Option Char} {c : Char} {cs : List Char}
    (hnone : shellCall before (c :: cs) = none) (hst : before = none → st = free) :
    Completes (st.step c) cs ↔ before ≠ none ∧ Completes st (c :: cs) := by
  have hnot : ¬(shellCall before (c :: cs)).isSome = true := by simp [hnone]
  rw [completes_step]
  cases before with
  | none =>
    obtain rfl := hst rfl
    rw [isSome_shellCall_start, not_or] at hnot
    rw [completes_free]
    simp [hnot.1, hnot.2]
  | some b =>
    rw [isSome_shellCall] at hnot
    simp [hnot]

/-- The text of a call that is found in front of some rest. -/
theorem text_of_shellCall {before : Option Char} {text rest : List Char} {call : Call}
    (h : shellCall before (text ++ rest) = some (call, text.length)) :
    (before = none ∧ call.lead = [] ∨ ∃ c, call.lead = [c] ∧ Leads c) ∧
      ∃ name blanks, (name = "system".toList ∨ name = "exec".toList) ∧
        (∀ c ∈ blanks, isBlank c = true) ∧ call.opening = blanks ++ ['('] ∧
        text = call.lead ++ (name ++ (blanks ++ ['('])) := by
  obtain ⟨hlead, name, blanks, hname, hblanks, hopening, hcs, hlength⟩ := shellCall_eq_some h
  rw [hopening] at hcs hlength
  have hsplit : text ++ rest = call.lead ++ (name ++ (blanks ++ ['('])) ++ call.rest := by
    rw [hcs]
    simp
  exact ⟨hlead, name, blanks, hname, hblanks, hopening, (List.append_inj hsplit hlength).1⟩

/-- What a call keeps the machine from is made good only by a call that starts inside another one. -/
theorem run_imageOf {st : State} {before : Option Char} {cs : List Char} {ps : List (Piece Call)}
    (h : Cut shellCall before cs ps) (hst : before = none → st = free) :
    run st (imageOf renamed ps) = opened ↔
      (before ≠ none ∧ Completes st cs) ∨ Overlaps shellCall ps := by
  induction h generalizing st with
  | @done before =>
    rw [imageOf_nil, run_nil, completes_nil]
    cases before with
    | none => simp [hst rfl]
    | some b => simp
  | @plain before c cs ps hnone hcut ih =>
    rw [imageOf_plain, run_cons, ih (by simp), completes_step_of_eq_none hnone hst, overlaps_plain]
    simp
  | @found before call text rest ps hne hmatch hcut ih =>
    obtain ⟨hlead, name, blanks, hname, hblanks, hopening, htext⟩ := text_of_shellCall hmatch
    have hafter : lastAfter before text ≠ none := by
      rw [lastAfter_of_ne_nil hne, List.getLast?_eq_some_getLast hne]
      simp
    have hinside : (∃ u w, text = u ++ w ∧ u ≠ [] ∧ w ≠ [] ∧
        (shellCall u.getLast? (w ++ textOf ps)).isSome = true) ↔ OpensCall rest := by
      rw [htext, hcut.textOf_eq]
      refine starts_inside_call ?_ hname hblanks
      rcases hlead with ⟨-, hlead⟩ | ⟨c, hlead, -⟩ <;> simp [hlead]
    have hfree : run free (imageOf renamed ps) = opened ↔ OpensCall rest ∨ Overlaps shellCall ps := by
      rw [ih (fun h => absurd h hafter), completes_free]
      simp [hafter]
    have himage : imageOf renamed (.found call text :: ps) =
        call.lead ++ (wrapperName ++ (blanks ++ ['(']) ++ imageOf renamed ps) := by
      rw [imageOf_found, renamed, hopening]
      simp
    rw [himage, overlaps_found, hinside, run_append, run_append]
    rcases hlead with ⟨hbefore, hlead⟩ | ⟨c, hlead, hleads⟩
    · rw [hst hbefore, hlead, run_nil, run_renamed hblanks (.inl rfl), hfree]
      simp [hbefore]
    · have hcall : OpensCall (name ++ (blanks ++ ['(']) ++ rest) := by
        rw [List.append_assoc]
        exact opensCall_name hname hblanks
      have hcompletes := st.completes_of_leads hleads (not_opensBracket_of_opensCall hcall)
      rw [hlead, run_cons, run_nil, htext, hlead, List.singleton_append, List.cons_append,
        hcompletes]
      rcases st.step_of_leads hleads with hstep | hstep
      · have hbefore : before ≠ none := by
          intro hbefore
          rw [hst hbefore, step, begin_of_leads hleads] at hstep
          cases hstep
        simp [hstep, hbefore]
      · have hstep' : st.step c ≠ opened := by rcases hstep with hstep | hstep <;> simp [hstep]
        rw [run_renamed hblanks hstep, hfree]
        simp [hstep']

theorem run_callsRouted (content : List Char) :
    run free (callsRouted content) = opened ↔ Overlaps shellCall (pieces shellCall content) := by
  rw [callsRouted, replaceMatches_eq, run_imageOf (fits_shellCall.cut content) fun _ => rfl]
  simp

/-- A text keeps a call when one call starts inside another one. -/
theorem occurs_callsRouted {content : List Char} :
    Occurs shellCall none (callsRouted content) ↔ Overlaps shellCall (pieces shellCall content) :=
  occurs_shellCall.trans (run_callsRouted content)

/-- Sending calls through the wrapper keeps a character that stands after another one. -/
theorem head?_imageOf {before : Char} {c : Char} {cs : List Char} {ps : List (Piece Call)}
    (h : Cut shellCall (some before) (c :: cs) ps) : ∃ tail, imageOf renamed ps = c :: tail := by
  generalize hcs : c :: cs = text at h
  cases h with
  | done => cases hcs
  | plain _ _ =>
    obtain ⟨rfl, rfl⟩ := List.cons.inj hcs
    exact ⟨_, rfl⟩
  | found _ hmatch _ =>
    obtain ⟨⟨hnone, -⟩ | ⟨d, hlead, -⟩, name, blanks, -, -, -, htext, -⟩ := shellCall_eq_some hmatch
    · cases hnone
    · rw [← hcs, hlead] at htext
      obtain ⟨rfl, -⟩ := List.cons.inj htext
      rw [imageOf_found, renamed, hlead]
      exact ⟨_, rfl⟩

/-- A call that goes on after a text ends with a bracket there, and only letters of the names of
the shell functions and blanks stand before the bracket. -/
theorem exists_of_shellCall {before : Option Char} {text rest : List Char} {call : Call} {n : Nat}
    (h : shellCall before (text ++ rest) = some (call, n)) (htext : text ≠ [])
    (hn : text.length < n) :
    ∃ inner tail, rest = inner ++ '(' :: tail ∧
      ∀ c ∈ inner, c ∈ "systemexec".toList ∨ isBlank c = true := by
  obtain ⟨hlead, name, blanks, hname, hblanks, hopening, hcs, rfl⟩ := shellCall_eq_some h
  have hlength : call.lead.length ≤ text.length := by
    have hpos := List.length_pos_iff.mpr htext
    rcases hlead with ⟨-, hlead⟩ | ⟨c, hlead, -⟩ <;> rw [hlead]
    · exact Nat.zero_le _
    · exact hpos
  have hmem : ∀ c ∈ name ++ blanks, c ∈ "systemexec".toList ∨ isBlank c = true := by
    intro c hc
    rcases List.mem_append.mp hc with hc | hc
    · rcases hname with rfl | rfl
      · exact .inl (List.mem_append_left "exec".toList hc)
      · exact .inl (List.mem_append_right "system".toList hc)
    · exact .inr (hblanks c hc)
  obtain ⟨text', rfl⟩ : call.lead <+: text :=
    List.prefix_of_prefix_length_le ⟨_, hcs.symm⟩ ⟨rest, rfl⟩ hlength
  rw [List.append_assoc] at hcs
  have hbody := List.append_cancel_left hcs
  rw [hopening, ← List.append_assoc, ← List.append_assoc, List.append_assoc _ ['('],
    List.singleton_append] at hbody
  rcases append_eq_append_cases hbody with ⟨inner, hinner, hrest⟩ | ⟨v, hv, htext', -⟩
  · refine ⟨inner, call.rest, hrest, fun c hc => hmem c ?_⟩
    rw [hinner]
    exact List.mem_append_right text' hc
  · have hpos := List.length_pos_iff.mpr hv
    rw [htext', hopening] at hn
    simp only [List.length_append, List.length_singleton] at hn
    omega

end RepoAudit.Ruby
