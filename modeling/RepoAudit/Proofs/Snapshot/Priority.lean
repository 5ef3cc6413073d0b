import Mathlib.Data.List.Pairwise
import RepoAudit.Proofs.Snapshot.Retracking

/-!
# Order of priority

Putting the issues of a snapshot in order depends on the issues alone, and not on the order that
they had: where identifiers are distinct, no two issues stand beside each other. The order is that
of falling severity, then of rising numbers with the issues without a number behind them, then of
identifiers. It fails for one number alone. An identifier that spells the largest counter is not
told apart from one that spells none, and the identifiers decide between the two.

## Main definitions

- `Issue.RanksBefore` — the order of severities, numbers and identifiers
- `Issue.Misplaces` — an issue without a number comes before the largest number

## Main statements

- `Issue.precedes_iff_ranksBefore` — how far the order of priority is that order
- `Snapshot.prioritize_eq_of_perm` — the order that some issues are put in
-/

namespace RepoAudit

namespace Issue

/-- A number comes before a larger one and before none. -/
def NumberPrecedes : Option Nat → Option Nat → Prop
  | some m, some n => m < n
  | some _, none => True
  | none, _ => False

/-- An issue comes before another one by its severity, else by its number, else by its
identifier. -/
def RanksBefore (i j : Issue) : Prop :=
  j.severity.rank < i.severity.rank ∨ i.severity.rank = j.severity.rank ∧
    (NumberPrecedes i.number? j.number? ∨ i.number? = j.number? ∧ i.id < j.id)

/-- An issue without a number comes before one of the same severity with the largest number. -/
def Misplaces (i j : Issue) : Prop :=
  i.severity.rank = j.severity.rank ∧ i.number? = none ∧ j.number? = some Text.maxCounter ∧
    i.id < j.id

theorem number?_le {i : Issue} {n : Nat} (h : i.number? = some n) : n ≤ Text.maxCounter := by
  rw [number?] at h
  unfold Text.readCounter? at h
  extract_lets digits at h
  split at h
  · cases h
  · split at h
    · next hle => exact Option.some.inj h ▸ hle
    · cases h

theorem orderNumber_le (i : Issue) : i.orderNumber ≤ Text.maxCounter := by
  rw [orderNumber]
  cases h : i.number? with
  | none => exact Nat.le_refl _
  | some n => exact number?_le h

theorem numberPrecedes_of_lt {i j : Issue} (h : i.orderNumber < j.orderNumber) :
    NumberPrecedes i.number? j.number? := by
  have hle := j.orderNumber_le
  rw [orderNumber, orderNumber] at h
  rw [orderNumber] at hle
  cases hi : i.number? with
  | none =>
    rw [hi, Option.getD_none] at h
    omega
  | some m =>
    cases hj : j.number? with
    | none => trivial
    | some n =>
      rw [hi, hj] at h
      exact h

/-- The largest number shares its place with the issues that have none. -/
theorem number?_eq_or_of_eq {i j : Issue} (h : i.orderNumber = j.orderNumber) :
    i.number? = j.number? ∨ i.number? = none ∧ j.number? = some Text.maxCounter ∨
      i.number? = some Text.maxCounter ∧ j.number? = none := by
  rw [orderNumber, orderNumber] at h
  cases hi : i.number? <;> cases hj : j.number? <;> simp_all

theorem numberPrecedes_asymm {m n : Option Nat} (h : NumberPrecedes m n) : ¬NumberPrecedes n m := by
  cases m with
  | none => cases h
  | some m =>
    cases n with
    | none => rintro ⟨⟩
    | some n => exact Nat.lt_asymm h

theorem not_numberPrecedes_self (n : Option Nat) : ¬NumberPrecedes n n :=
  fun h => numberPrecedes_asymm h h

theorem RanksBefore.asymm {i j : Issue} (h : i.RanksBefore j) : ¬j.RanksBefore i := by
  intro h'
  rcases h with h | ⟨hrank, h⟩
  · rcases h' with h' | ⟨hrank', -⟩ <;> omega
  · rcases h' with h' | ⟨-, h'⟩
    · omega
    · rcases h with h | ⟨hnumber, hid⟩
      · rcases h' with h' | ⟨hnumber', -⟩
        · exact numberPrecedes_asymm h h'
        · exact not_numberPrecedes_self _ (hnumber' ▸ h)
      · rcases h' with h' | ⟨-, hid'⟩
        · exact not_numberPrecedes_self _ (hnumber ▸ h')
        · exact String.lt_asymm hid hid'

theorem Misplaces.ranksBefore {i j : Issue} (h : i.Misplaces j) : j.RanksBefore i := by
  obtain ⟨hrank, hi, hj, -⟩ := h
  refine .inr ⟨hrank.symm, .inl ?_⟩
  rw [hi, hj]
  trivial

theorem Misplaces.precedes {i j : Issue} (h : i.Misplaces j) : i.precedes j = true := by
  obtain ⟨hrank, hi, hj, hid⟩ := h
  refine (precedes_iff i j).mpr (.inr ⟨hrank, .inr ⟨?_, Std.le_of_lt hid⟩⟩)
  rw [orderNumber, orderNumber, hi, hj]
  rfl

/-- The order of priority separates issues with distinct identifiers. -/
theorem id_eq_of_precedes {i j : Issue} (h : i.precedes j = true) (h' : j.precedes i = true) :
    i.id = j.id := by
  rw [precedes_iff] at h h'
  rcases h with h | ⟨hrank, h⟩
  · rcases h' with h' | ⟨hrank', -⟩ <;> omega
  · rcases h' with h' | ⟨-, h'⟩
    · omega
    · rcases h with h | ⟨horder, hid⟩
      · rcases h' with h' | ⟨horder', -⟩ <;> omega
      · rcases h' with h' | ⟨-, hid'⟩
        · omega
        · exact String.le_antisymm hid hid'

/-- The order of priority is that of severities, numbers and identifiers, but for the issues that it
misplaces. -/
theorem ranksBefore_or_of_precedes {i j : Issue} (h : i.precedes j = true) (hid : i.id ≠ j.id) :
    i.RanksBefore j ∨ i.Misplaces j := by
  rcases (precedes_iff i j).mp h with hrank | ⟨hrank, horder | ⟨horder, hle⟩⟩
  · exact .inl (.inl hrank)
  · exact .inl (.inr ⟨hrank, .inl (numberPrecedes_of_lt horder)⟩)
  · have hlt : i.id < j.id := Std.lt_of_le_of_ne hle hid
    rcases number?_eq_or_of_eq horder with heq | ⟨hi, hj⟩ | ⟨hi, hj⟩
    · exact .inl (.inr ⟨hrank, .inr ⟨heq, hlt⟩⟩)
    · exact .inr ⟨hrank, hi, hj, hlt⟩
    · refine .inl (.inr ⟨hrank, .inl ?_⟩)
      rw [hi, hj]
      trivial

end Issue

namespace Snapshot

open Issue

variable {s t : Snapshot}

/-- A list in which no two issues have one identifier is put in one order only. -/
theorem eq_of_pairwise_precedes {l l' : List Issue} (hperm : l.Perm l')
    (hids : (l.map Issue.id).Nodup) (h : l.Pairwise fun i j => i.precedes j = true)
    (h' : l'.Pairwise fun i j => i.precedes j = true) : l = l' := by
  refine List.Perm.eq_of_pairwise (fun i j hi hj hij hji => ?_) h h' hperm
  exact List.inj_on_of_nodup_map hids hi (hperm.mem_iff.mpr hj) (id_eq_of_precedes hij hji)

/-- In the order of priority, issues are ranked as far as no issue without a number is taken for one
with the largest number. -/
theorem pairwise_ranksBefore_iff {l : List Issue} (hids : (l.map Issue.id).Nodup)
    (h : l.Pairwise fun i j => i.precedes j = true) :
    l.Pairwise RanksBefore ↔ ∀ i ∈ l, ∀ j ∈ l, ¬i.Misplaces j := by
  have hdistinct : l.Pairwise fun i j => i.id ≠ j.id := List.pairwise_map.mp hids
  constructor
  · intro hranks i hi j hj hmisplaces
    have hne : i ≠ j := by
      rintro rfl
      exact String.lt_irrefl _ hmisplaces.2.2.2
    -- Of two issues, the one that precedes stands first, and is then ranked first.
    let Agree (i j : Issue) : Prop := i.precedes j = true ∧ i.RanksBefore j
    have : Std.Symm fun i j => Agree i j ∨ Agree j i := ⟨fun _ _ => Or.symm⟩
    have hagree : Agree i j ∨ Agree j i :=
      ((h.and hranks).imp (S := fun i j => Agree i j ∨ Agree j i) Or.inl).forall hi hj hne
    rcases hagree with ⟨-, hranks⟩ | ⟨hprecedes, -⟩
    · exact hmisplaces.ranksBefore.asymm hranks
    · refine absurd (id_eq_of_precedes hmisplaces.precedes hprecedes) fun hid => ?_
      exact hne (List.inj_on_of_nodup_map hids hi hj hid)
  · intro hnone
    refine (h.and hdistinct).imp_of_mem fun {i j} hi hj hij => ?_
    exact (ranksBefore_or_of_precedes hij.1 hij.2).resolve_right (hnone i hi j hj)

/-- Whatever order some issues have, if their identifiers are distinct they are put in one order of
priority, and putting them in order again changes nothing. They are ranked by severity, number and
identifier exactly if no issue without a number is taken for one with the largest number. -/
theorem prioritize_eq_of_perm (hperm : s.issues.Perm t.issues)
    (hids : (s.issues.map Issue.id).Nodup) :
    s.prioritize.issues = t.prioritize.issues ∧ s.prioritize.issues.Perm s.issues ∧
      s.prioritize.prioritize = s.prioritize ∧
      (s.prioritize.issues.Pairwise RanksBefore ↔
        ∀ i ∈ s.issues, ∀ j ∈ s.issues, ¬i.Misplaces j) := by
  have hs : s.prioritize.issues.Perm s.issues := Tracked.prioritize_perm s
  have ht : t.prioritize.issues.Perm t.issues := Tracked.prioritize_perm t
  have hids' : (s.prioritize.issues.map Issue.id).Nodup := (hs.map _).nodup_iff.mpr hids
  refine ⟨?_, hs, prioritize_eq_self (pairwise_prioritize s), ?_⟩
  · exact eq_of_pairwise_precedes ((hs.trans hperm).trans ht.symm) hids' (pairwise_prioritize s)
      (pairwise_prioritize t)
  · rw [pairwise_ranksBefore_iff hids' (pairwise_prioritize s)]
    simp only [hs.mem_iff]

/-! ## Numbers that coincide -/

/-- An issue of which only the identifier is told. -/
def bareIssue (id : String) : Issue where
  id := id
  repository := "/r"
  description := ""
  file := none
  line := none
  weakness := none
  severity := .medium
  score := none
  stage := .planning
  domain := none
  ecosystems := none
  createdAt := ⟨2024, 1, 1, 0, 0, 0, 0⟩
  updatedAt := ⟨2024, 1, 1, 0, 0, 0, 0⟩
  plan := none
  artifact := none
  notes := none

/-- A snapshot with issues of some identifiers. -/
def bareSnapshot (ids : List String) : Snapshot :=
  { new "/r" with issues := ids.map bareIssue }

/-- The same number twice, another one, and none at all. -/
theorem prioritize_eq_of_perm_bareSnapshot :
    (bareSnapshot ["x", "2", "1", "001"]).issues.Perm (bareSnapshot ["1", "x", "001", "2"]).issues ∧
      ((bareSnapshot ["x", "2", "1", "001"]).issues.map Issue.id).Nodup ∧
      (bareSnapshot ["x", "2", "1", "001"]).prioritize.issues =
        (bareSnapshot ["1", "x", "001", "2"]).prioritize.issues ∧
      (bareSnapshot ["x", "2", "1", "001"]).prioritize.issues.Pairwise RanksBefore ∧
      (bareSnapshot ["x", "2", "1", "001"]).prioritize.issues.map Issue.id =
        ["001", "1", "2", "x"] := by
  have hperm : (bareSnapshot ["x", "2", "1", "001"]).issues.Perm
      (bareSnapshot ["1", "x", "001", "2"]).issues :=
    List.Perm.map bareIssue (by decide)
  have hids : ((bareSnapshot ["x", "2", "1", "001"]).issues.map Issue.id).Nodup := by decide
  obtain ⟨heq, -, -, hranks⟩ := prioritize_eq_of_perm hperm hids
  refine ⟨hperm, hids, heq, hranks.mpr fun i _ j hj hmisplaces => ?_, ?_⟩
  · obtain ⟨id, hid, rfl⟩ := List.mem_map.mp hj
    have hnone : ∀ id ∈ ["x", "2", "1", "001"],
        (bareIssue id).number? ≠ some Text.maxCounter := by decide
    exact hnone id hid hmisplaces.2.2.1
  · rw [prioritize, mergeSort_precedes]
    decide

/-- An issue without a number is put before the one with the largest number. -/
theorem not_ranksBefore_largestNumber :
    ((bareSnapshot ["4294967295", "1x"]).issues.map Issue.id).Nodup ∧
      (bareSnapshot ["4294967295", "1x"]).prioritize.issues.map Issue.id = ["1x", "4294967295"] ∧
      (bareIssue "4294967295").number? = some 4294967295 ∧ (bareIssue "1x").number? = none ∧
      (bareIssue "4294967295").RanksBefore (bareIssue "1x") ∧
      ¬(bareSnapshot ["4294967295", "1x"]).prioritize.issues.Pairwise RanksBefore := by
  have hids : ((bareSnapshot ["4294967295", "1x"]).issues.map Issue.id).Nodup := by decide
  have hmisplaces : (bareIssue "1x").Misplaces (bareIssue "4294967295") :=
    ⟨rfl, by decide, by decide, by decide⟩
  have horder : (bareSnapshot ["4294967295", "1x"]).prioritize.issues =
      [bareIssue "1x", bareIssue "4294967295"] := by
    rw [prioritize, mergeSort_precedes]
    decide
  refine ⟨hids, by rw [horder]; rfl, by decide, by decide, hmisplaces.ranksBefore, ?_⟩
  rw [horder]
  intro hranks
  exact hmisplaces.ranksBefore.asymm ((List.pairwise_cons.mp hranks).1 _ List.mem_cons_self)

end Snapshot

end RepoAudit
