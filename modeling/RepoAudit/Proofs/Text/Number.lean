import RepoAudit.Text.Number

/-!
# Reading written numbers

A counter that is written with any padding is read back, and is refused exactly beyond the bound.

## Main statements

- `digitsValue_toDigits` — the number that the digits of a number spell
- `readCounter?_padded` — a padded counter is read back
-/

namespace RepoAudit.Text

/-- A reader goes on with the value that its next step reads. -/
theorem bind_of_eq_some {α β : Type} {x : Option α} {a : α} {f : α → Option β} {r : Option β}
    (h : x = some a) (hf : f a = r) : (x >>= f) = r := by
  rw [h]
  exact hf

theorem isDigit_of_mem_toDigits {n : Nat} {c : Char} (h : c ∈ Nat.toDigits 10 n) :
    c.isDigit = true :=
  Nat.isDigit_of_mem_toDigits (by decide) (by decide) h

theorem digitsValue_toDigits (n : Nat) : digitsValue (Nat.toDigits 10 n) = n := by
  have h : Nat.ofDigitChars 10 (Nat.toDigits 10 n) 0 = n := Nat.ofDigitChars_ten_toDigits
  rw [Nat.ofDigitChars_eq_foldl] at h
  rw [digitsValue]
  simpa only [Nat.mul_comm, show '0'.toNat = 48 from rfl] using h

theorem isDigit_of_mem_padded {width n : Nat} {c : Char} (h : c ∈ padded width n) :
    c.isDigit = true := by
  rw [padded] at h
  rcases List.mem_append.mp h with hzero | hdigit
  · rw [List.eq_of_mem_replicate hzero]
    rfl
  · exact isDigit_of_mem_toDigits hdigit

theorem padded_ne_nil (width n : Nat) : padded width n ≠ [] := by
  intro h
  have hdigits := (List.append_eq_nil_iff.mp h).2
  exact Nat.toDigits_ne_nil hdigits

/-- Leading zeros do not change the number that digits spell. -/
theorem digitsValue_padded (width n : Nat) : digitsValue (padded width n) = n := by
  have hzeros : ∀ (k : Nat) (ds : List Char),
      digitsValue (List.replicate k '0' ++ ds) = digitsValue ds := by
    intro k ds
    induction k with
    | zero => rfl
    | succ k ih => exact ih
  rw [padded, hzeros, digitsValue_toDigits]

theorem readCounter?_of_digits {cs : List Char} (hne : cs ≠ []) (h : ∀ c ∈ cs, c.isDigit = true) :
    readCounter? cs = if digitsValue cs ≤ maxCounter then some (digitsValue cs) else none := by
  have hall : cs.all Char.isDigit = true := List.all_eq_true.mpr h
  have hempty : cs.isEmpty = false := by simpa using hne
  have hplus : ∀ ds, cs ≠ '+' :: ds := by
    rintro ds rfl
    have hdigit : Char.isDigit '+' = true := h '+' List.mem_cons_self
    contradiction
  rw [readCounter?, hempty, hall]
  · rfl
  · exact hplus

/-- A padded counter is read back if it is within the bound. -/
theorem readCounter?_padded {n : Nat} (h : n ≤ maxCounter) (width : Nat) :
    readCounter? (padded width n) = some n := by
  rw [readCounter?_of_digits (padded_ne_nil width n) fun c => isDigit_of_mem_padded,
    digitsValue_padded, if_pos h]

end RepoAudit.Text
