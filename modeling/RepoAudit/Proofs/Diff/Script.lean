import Mathlib.Algebra.Ring.Nat
import RepoAudit.Diff.Tidy

/-!
# What edit scripts do

An edit of a script stands where the edits before it lead, and what it covers is there: a kept run
has the same lines on both sides. A deleted run need only know its place in the old sequence and an
inserted one its place in the new sequence, because the other place is not kept up when runs pass
each other. A script that is made from another one in a few ways leads where that one did.

## Main definitions

- `Diff.Edit.Stands` — an edit stands at a place of both sequences
- `Diff.Leads` — the edits of a script stand one behind the other
- `Diff.Covers` — a script stands at a place and covers some lines
- `Diff.Amends` — a script leads where another one leads

## Main statements

- `Diff.leads_append` — scripts one behind the other
- `Diff.Amends.around` — a part of a script is amended
-/

namespace RepoAudit.Diff

variable {α : Type}

/-! ## Windows -/

theorem window_eq (as : Array α) (i n : Nat) : window as i n = (as.toList.drop i).take n := by
  rw [window, Array.toList_extract, List.extract_eq_take_drop, Nat.add_sub_cancel_left]

theorem length_window {as : Array α} {i n : Nat} (h : i + n ≤ as.size) :
    (window as i n).length = n := by
  rw [window_eq, List.length_take, List.length_drop, Array.length_toList]
  omega

theorem window_add (as : Array α) (i n m : Nat) :
    window as i (n + m) = window as i n ++ window as (i + n) m := by
  rw [window_eq, window_eq, window_eq, List.take_add, List.drop_drop]

theorem take_window {as : Array α} {i n k : Nat} (h : k ≤ n) :
    (window as i n).take k = window as i k := by
  rw [window_eq, window_eq, List.take_take, Nat.min_eq_left h]

theorem drop_window (as : Array α) (i n k : Nat) :
    (window as i n).drop k = window as (i + k) (n - k) := by
  rw [window_eq, window_eq, List.drop_take, List.drop_drop]

@[simp] theorem window_zero (as : Array α) (i : Nat) : window as i 0 = [] := by
  rw [window_eq, List.take_zero]

/-- Windows that are the same are the same in every part. -/
theorem window_part {olds news : Array α} {i j n k m : Nat}
    (h : window olds i n = window news j n) (hle : k + m ≤ n) :
    window olds (i + k) m = window news (j + k) m := by
  have hpart := congrArg (List.take m) (congrArg (List.drop k) h)
  rwa [drop_window, drop_window, take_window (by omega), take_window (by omega)] at hpart

/-! ## Common ends -/

section Common

variable [DecidableEq α]

theorem commonLead_le_left (as bs : List α) : commonLead as bs ≤ as.length := by
  fun_induction commonLead as bs with
  | case1 a as bs ih => simpa using ih
  | case2 => simp
  | case3 => simp

theorem commonLead_comm (as bs : List α) : commonLead as bs = commonLead bs as := by
  fun_induction commonLead as bs with
  | case1 a as bs ih => rw [commonLead, if_pos rfl, ih]
  | case2 a as b bs h => rw [commonLead, if_neg fun h' => h h'.symm]
  | case3 as bs h =>
    cases as with
    | nil => cases bs <;> rfl
    | cons a as =>
      cases bs with
      | nil => rfl
      | cons b bs => exact absurd rfl (h a as b bs rfl)

theorem commonLead_le_right (as bs : List α) : commonLead as bs ≤ bs.length := by
  rw [commonLead_comm]
  exact commonLead_le_left bs as

theorem take_commonLead (as bs : List α) :
    as.take (commonLead as bs) = bs.take (commonLead as bs) := by
  fun_induction commonLead as bs with
  | case1 a as bs ih => rw [List.take_succ_cons, List.take_succ_cons, ih]
  | case2 => rfl
  | case3 => rfl

theorem commonTail_le_left (as bs : List α) : commonTail as bs ≤ as.length := by
  have h := commonLead_le_left as.reverse bs.reverse
  rwa [List.length_reverse] at h

theorem commonTail_le_right (as bs : List α) : commonTail as bs ≤ bs.length := by
  have h := commonLead_le_right as.reverse bs.reverse
  rwa [List.length_reverse] at h

theorem drop_commonTail (as bs : List α) :
    as.drop (as.length - commonTail as bs) = bs.drop (bs.length - commonTail as bs) := by
  have h := congrArg List.reverse (take_commonLead as.reverse bs.reverse)
  rw [List.take_reverse, List.take_reverse, List.reverse_reverse, List.reverse_reverse] at h
  exact h

@[simp] theorem commonLead_nil (as : List α) : commonLead as [] = 0 := by
  cases as <;> rfl

@[simp] theorem commonTail_nil (as : List α) : commonTail as [] = 0 := by
  rw [commonTail, List.reverse_nil, commonLead_nil]

end Common

/-! ## Scripts -/

/-- An edit stands at a place of the old and a place of the new sequence. -/
def Edit.Stands (olds news : Array α) (i j : Nat) : Edit → Prop
  | .keep old new n => old = i ∧ new = j ∧ i + n ≤ olds.size ∧ j + n ≤ news.size ∧
      window olds i n = window news j n
  | .delete old _ n => old = i ∧ i + n ≤ olds.size
  | .insert _ new n => new = j ∧ j + n ≤ news.size
  | .replace old new n m => old = i ∧ new = j ∧ i + n ≤ olds.size ∧ j + m ≤ news.size

/-- Every part of a kept run stands where it starts. -/
theorem Edit.Stands.part {olds news : Array α} {i j old new size k m : Nat}
    (h : (Edit.keep old new size).Stands olds news i j) (hle : k + m ≤ size) :
    (Edit.keep (old + k) (new + k) m).Stands olds news (i + k) (j + k) := by
  obtain ⟨rfl, rfl, hold, hnew, hsame⟩ := h
  exact ⟨rfl, rfl, by omega, by omega, window_part hsame hle⟩

/-- The edits of a script stand one behind the other. -/
def Leads (olds news : Array α) : Nat → Nat → Script → Prop
  | _, _, [] => True
  | i, j, e :: rest =>
    e.Stands olds news i j ∧ Leads olds news (i + e.oldSize) (j + e.newSize) rest

/-- How many old lines a script covers. -/
def oldTotal (script : Script) : Nat :=
  (script.map Edit.oldSize).sum

/-- How many new lines a script covers. -/
def newTotal (script : Script) : Nat :=
  (script.map Edit.newSize).sum

@[simp] theorem oldTotal_nil : oldTotal [] = 0 := rfl

@[simp] theorem newTotal_nil : newTotal [] = 0 := rfl

@[simp] theorem oldTotal_cons (e : Edit) (script : Script) :
    oldTotal (e :: script) = e.oldSize + oldTotal script := by
  simp [oldTotal]

@[simp] theorem newTotal_cons (e : Edit) (script : Script) :
    newTotal (e :: script) = e.newSize + newTotal script := by
  simp [newTotal]

@[simp] theorem oldTotal_append (s t : Script) : oldTotal (s ++ t) = oldTotal s + oldTotal t := by
  simp [oldTotal]

@[simp] theorem newTotal_append (s t : Script) : newTotal (s ++ t) = newTotal s + newTotal t := by
  simp [newTotal]

variable {olds news : Array α} {i j : Nat} {r s t : Script}

/-- A script leads on where the one before it stops. -/
theorem leads_append : Leads olds news i j (s ++ t) ↔
    Leads olds news i j s ∧ Leads olds news (i + oldTotal s) (j + newTotal s) t := by
  induction s generalizing i j with
  | nil => simp [Leads]
  | cons e s ih =>
    rw [List.cons_append, Leads, Leads, ih, and_assoc, oldTotal_cons, newTotal_cons, Nat.add_assoc,
      Nat.add_assoc]

/-- A script stands at a place and covers some lines of both sequences. -/
structure Covers (olds news : Array α) (i j m n : Nat) (script : Script) : Prop where
  /-- It stands at the place. -/
  leads : Leads olds news i j script
  /-- The old lines that it covers. -/
  oldTotal : oldTotal script = m
  /-- The new lines that it covers. -/
  newTotal : newTotal script = n

theorem Covers.nil (i j : Nat) : Covers olds news i j 0 0 [] := ⟨trivial, rfl, rfl⟩

theorem Covers.append {m n m' n' : Nat} (h : Covers olds news i j m n s)
    (h' : Covers olds news (i + m) (j + n) m' n' t) :
    Covers olds news i j (m + m') (n + n') (s ++ t) where
  leads := by
    rw [leads_append, h.oldTotal, h.newTotal]
    exact ⟨h.leads, h'.leads⟩
  oldTotal := by rw [oldTotal_append, h.oldTotal, h'.oldTotal]
  newTotal := by rw [newTotal_append, h.newTotal, h'.newTotal]

/-- A script leads where another one leads, and covers as many lines on both sides. -/
structure Amends (olds news : Array α) (s t : Script) : Prop where
  /-- As many old lines. -/
  oldTotal : oldTotal t = oldTotal s
  /-- As many new lines. -/
  newTotal : newTotal t = newTotal s
  /-- It leads where the other one leads. -/
  leads : ∀ i j, Leads olds news i j s → Leads olds news i j t

namespace Amends

theorem refl (s : Script) : Amends olds news s s := ⟨rfl, rfl, fun _ _ h => h⟩

theorem trans (h : Amends olds news r s) (h' : Amends olds news s t) : Amends olds news r t :=
  ⟨h'.oldTotal.trans h.oldTotal, h'.newTotal.trans h.newTotal,
    fun i j hr => h'.leads i j (h.leads i j hr)⟩

theorem covers {m n : Nat} (h : Amends olds news s t) (hs : Covers olds news i j m n s) :
    Covers olds news i j m n t :=
  ⟨h.leads i j hs.leads, h.oldTotal.trans hs.oldTotal, h.newTotal.trans hs.newTotal⟩

/-- A part of a script is amended. -/
theorem around (h : Amends olds news s t) (before after : Script) :
    Amends olds news (before ++ (s ++ after)) (before ++ (t ++ after)) where
  oldTotal := by simp [h.oldTotal]
  newTotal := by simp [h.newTotal]
  leads := by
    intro i j
    rw [leads_append, leads_append, leads_append, leads_append, h.oldTotal, h.newTotal]
    rintro ⟨hbefore, hs, hafter⟩
    exact ⟨hbefore, h.leads _ _ hs, hafter⟩

/-- The end of a script is amended. -/
theorem behind (h : Amends olds news s t) (before : Script) :
    Amends olds news (before ++ s) (before ++ t) := by
  have hboth := h.around before []
  rwa [List.append_nil, List.append_nil] at hboth

/-- The start of a script is amended. -/
theorem before (h : Amends olds news s t) (after : Script) :
    Amends olds news (s ++ after) (t ++ after) :=
  h.around [] after

variable (olds news)

/-- Runs that keep nothing can be left out. -/
theorem of_keep_zero (old new : Nat) : Amends olds news [.keep old new 0] [] :=
  ⟨rfl, rfl, fun _ _ _ => trivial⟩

theorem of_deletes (o n o' n' size size' : Nat) :
    Amends olds news [.delete o n size, .delete o' n' size'] [.delete o n (size + size')] where
  oldTotal := by simp [Edit.oldSize]
  newTotal := by simp [Edit.newSize]
  leads := by
    rintro i j ⟨⟨rfl, -⟩, ⟨-, hsize⟩, -⟩
    simp only [Edit.oldSize] at hsize
    exact ⟨⟨rfl, by omega⟩, trivial⟩

theorem of_inserts (o n o' n' size size' : Nat) :
    Amends olds news [.insert o n size, .insert o' n' size'] [.insert o n (size + size')] where
  oldTotal := by simp [Edit.oldSize]
  newTotal := by simp [Edit.newSize]
  leads := by
    rintro i j ⟨⟨rfl, -⟩, ⟨-, hsize⟩, -⟩
    simp only [Edit.newSize] at hsize
    exact ⟨⟨rfl, by omega⟩, trivial⟩

theorem of_keeps (o n o' n' size size' : Nat) :
    Amends olds news [.keep o n size, .keep o' n' size'] [.keep o n (size + size')] where
  oldTotal := by simp [Edit.oldSize]
  newTotal := by simp [Edit.newSize]
  leads := by
    rintro i j ⟨⟨rfl, rfl, -, -, hsame⟩, ⟨-, -, hold, hnew, hsame'⟩, -⟩
    simp only [Edit.oldSize, Edit.newSize] at hold hnew hsame'
    exact ⟨⟨rfl, rfl, by omega, by omega, by rw [window_add, window_add, hsame, hsame']⟩, trivial⟩

/-- Deleted and inserted runs can pass each other. -/
theorem of_insert_delete (o n o' n' size size' : Nat) :
    Amends olds news [.insert o n size, .delete o' n' size']
      [.delete o' n' size', .insert o n size] where
  oldTotal := by simp [Edit.oldSize]
  newTotal := by simp [Edit.newSize]
  leads := by
    rintro i j ⟨hinsert, hdelete, -⟩
    exact ⟨hdelete, hinsert, trivial⟩

theorem of_delete_insert (o n o' n' size size' : Nat) :
    Amends olds news [.delete o' n' size', .insert o n size]
      [.insert o n size, .delete o' n' size'] where
  oldTotal := by simp [Edit.oldSize]
  newTotal := by simp [Edit.newSize]
  leads := by
    rintro i j ⟨hdelete, hinsert, -⟩
    exact ⟨hinsert, hdelete, trivial⟩

theorem of_replace (o n o' n' size size' : Nat) :
    Amends olds news [.delete o n size, .insert o' n' size'] [.replace o n' size size'] where
  oldTotal := by simp [Edit.oldSize]
  newTotal := by simp [Edit.newSize]
  leads := by
    rintro i j ⟨⟨rfl, hold⟩, ⟨rfl, hnew⟩, -⟩
    exact ⟨⟨rfl, rfl, hold, hnew⟩, trivial⟩

end Amends

end RepoAudit.Diff
