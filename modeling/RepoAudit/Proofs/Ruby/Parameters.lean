import RepoAudit.Proofs.Ruby.Method
import RepoAudit.Proofs.Text.Blank

/-!
# Where a guard goes in a method

A method line may open a parameter list, which ends with the bracket that closes it, perhaps some
lines below. The guard of a site goes below the method line, or below blank lines that follow it.
No blank closes a list, so the guard stands behind the whole list only if the method line itself
closes it.

## Main definitions

- `Reading` — how far a parameter list has been read
- `ClosesAt` — the line on which the parameter list of a method is closed

## Main statements

- `guardSite_of_enclosingDef?` — where the guard of a site in a method goes
- `ClosesAt.lt_iff` — a place below blank lines is behind the list of a method line alone
-/

namespace RepoAudit.Ruby

open RepoAudit.Text

/-- How far a parameter list has been read. -/
inductive Reading where
  /-- The bracket that closes it has been passed. -/
  | closed
  /-- Source inside some inner brackets. -/
  | code (depth : Nat)
  /-- A literal between quotes. -/
  | quoted (depth : Nat) (quote : Char)
  /-- A literal behind a backslash. -/
  | escaped (depth : Nat) (quote : Char)
  /-- A comment, to the end of its line. -/
  | comment (depth : Nat)
deriving DecidableEq, Repr

namespace Reading

/-- Behind a closing bracket that was passed inside some inner brackets. -/
def leave : Nat → Reading
  | 0 => closed
  | depth + 1 => code depth

/-- Reads one character. -/
def step : Reading → Char → Reading
  | closed, _ => closed
  | code depth, c =>
    if c = '(' then code (depth + 1)
    else if c = ')' then leave depth
    else if c = '"' || c = '\'' || c = backtick then quoted depth c
    else if c = '#' then comment depth
    else code depth
  | quoted depth q, c =>
    if c = '\\' then escaped depth q else if c = q then code depth else quoted depth q
  | escaped depth q, _ => quoted depth q
  | comment depth, c => if c = '\n' then code depth else comment depth

/-- Reads some characters. -/
def run (r : Reading) (cs : List Char) : Reading :=
  cs.foldl step r

/-- Only a closing bracket closes a list. -/
theorem step_eq_closed {r : Reading} {c : Char} (h : r.step c = closed) : r = closed ∨ c = ')' := by
  cases r with
  | closed => exact .inl rfl
  | code depth =>
    rw [step] at h
    split at h
    · cases h
    split at h
    · next hc => exact .inr hc
    split at h
    · cases h
    split at h <;> cases h
  | quoted depth q =>
    rw [step] at h
    split at h
    · cases h
    split at h <;> cases h
  | escaped depth q => cases h
  | comment depth =>
    rw [step] at h
    split at h <;> cases h

theorem run_eq_closed {cs : List Char} (hcs : ')' ∉ cs) {r : Reading} (h : r.run cs = closed) :
    r = closed := by
  induction cs generalizing r with
  | nil => exact h
  | cons c cs ih =>
    rw [List.mem_cons, not_or] at hcs
    exact (step_eq_closed (ih hcs.2 h)).resolve_right (Ne.symm hcs.1)

end Reading

/-- What stands behind the bracket that opens the parameter list of a method line. -/
def parameters? (line : Line) : Option (List Char) :=
  (afterDef? line).bind fun rest =>
    match trimStart (rest.dropWhile fun c => c ≠ '(' && !isBlank c) with
    | '(' :: inside => some inside
    | _ => none

/-- What has been read of a parameter list some lines below its method line. -/
def readBelow (lines : List Line) (d : Nat) (inside : List Char) : Nat → Reading
  | 0 => Reading.run (.code 0) inside
  | n + 1 => ((readBelow lines d inside n).step '\n').run (lines.getD (d + n + 1) [])

/-- The parameter list of a method line is closed on a line. -/
def ClosesAt (lines : List Line) (d e : Nat) : Prop :=
  ∃ inside n, parameters? (lines.getD d []) = some inside ∧ e = d + n ∧
    readBelow lines d inside n = .closed ∧ ∀ m < n, readBelow lines d inside m ≠ .closed

variable {lines : List Line} {index d e place : Nat}

/-- A place below a method line and blank lines is behind the parameter list exactly if the method
line itself closes it. -/
theorem ClosesAt.lt_iff (h : ClosesAt lines d e) (hplace : d < place)
    (hblank : ∀ k, d < k → k < place → isBlankText (lines.getD k []) = true) :
    e < place ↔ e = d := by
  refine ⟨fun hlt => ?_, fun heq => heq ▸ hplace⟩
  obtain ⟨inside, n, -, rfl, hclosed, hopen⟩ := h
  cases n with
  | zero => rfl
  | succ n =>
    -- The line that closes the list would be blank.
    have hline := hblank (d + n + 1) (by omega) hlt
    have hnone : ')' ∉ lines.getD (d + n + 1) [] := fun hmem =>
      absurd (List.all_eq_true.mp hline _ hmem) (by decide)
    have hstep := Reading.run_eq_closed hnone hclosed
    have hbefore := (Reading.step_eq_closed hstep).resolve_right (by decide)
    exact absurd hbefore (hopen n (Nat.lt_succ_self n))

/-- The guard of a site in a method goes below the method line and not below the line of the site;
only blank lines are passed on the way, and the indentation is that of some line. -/
theorem guardSite_of_enclosingDef? (h : enclosingDef? lines index = some d) :
    d < (guardSite lines index).1 ∧ (guardSite lines index).1 ≤ index ∧
      (∀ k, d < k → k < (guardSite lines index).1 → isBlankText (lines.getD k []) = true) ∧
      ∃ k, (guardSite lines index).2 = indent (lines.getD k []) := by
  have hlt := (precedes_of_enclosingDef? h).lt
  rw [guardSite, h]
  dsimp only
  split
  · next body hfind =>
    refine ⟨Nat.lt_succ_self d, hlt, fun k hk hk' => absurd hk' (by omega), ?_⟩
    have hmem := List.mem_of_mem_take (List.mem_of_mem_drop (List.mem_of_find?_eq_some hfind))
    obtain ⟨k, hk, rfl⟩ := List.getElem_of_mem hmem
    exact ⟨k, by rw [List.getD_eq_getElem _ _ hk]⟩
  · next hfind =>
    refine ⟨hlt, Nat.le_refl index, fun k hk hk' => ?_, index, rfl⟩
    by_cases hlength : k < lines.length
    · have hmem : lines.getD k [] ∈ (lines.take (index + 1)).drop (d + 1) := by
        refine List.mem_iff_getElem?.mpr ⟨k - (d + 1), ?_⟩
        rw [List.getElem?_drop, List.getElem?_take_of_lt (by omega),
          Nat.add_sub_cancel' (by omega), List.getD_eq_getElem _ _ hlength,
          List.getElem?_eq_getElem hlength]
      simpa using List.find?_eq_none.mp hfind _ hmem
    · rw [List.getD_eq_default _ _ (by omega)]
      rfl

end RepoAudit.Ruby
