import Mathlib.Data.List.Nodup
import RepoAudit.Remedy.Basic
import RepoAudit.Proofs.Snapshot.RoundTrip
import RepoAudit.Proofs.Text.Number
import RepoAudit.Proofs.Weakness

/-!
# Sound snapshots

The shape that a snapshot has between commands. Its issues are numbered without gaps, no two track
one finding, they stand in order of priority, and each waits for its repair, waits for its check or
has ended. Most of this rests on the part of an issue that never changes, its core.

## Main definitions

- `Issue.core` — the part of an issue that never changes
- `Issue.Settled` — an issue as it is between commands
- `Snapshot.Tracked` — the part of soundness that does not depend on order or stage
- `Snapshot.Ordered` — a tracked snapshot whose issues stand in order of priority
- `Snapshot.Sound` — a snapshot as it is between commands

## Main statements

- `Snapshot.Tracked.exists_number` — every issue of a tracked snapshot has a number in range
- `Snapshot.Sound.of_read?` — a sound snapshot that is stored and read again is sound
-/

namespace RepoAudit

namespace Issue

/-- The part of an issue that never changes once it is tracked. -/
structure Core where
  /-- The identifier. -/
  id : String
  /-- What was seen. -/
  description : String
  /-- The file it was seen in. -/
  file : Option Path
  /-- The category. -/
  weakness : Option Weakness
  /-- How urgent it is. -/
  severity : Severity

/-- The core of an issue. -/
def core (i : Issue) : Core :=
  ⟨i.id, i.description, i.file, i.weakness, i.severity⟩

/-- Two issues track one finding: what was seen is the same, and so are the files, component by
component. -/
def SameFinding (i j : Issue) : Prop :=
  i.description = j.description ∧ i.file.map Path.components = j.file.map Path.components

/-- An issue stands before another in order of priority: it is more urgent, or as urgent with a
smaller number. -/
def Before (i j : Issue) : Prop :=
  j.severity.rank < i.severity.rank ∨
    i.severity.rank = j.severity.rank ∧ i.orderNumber < j.orderNumber

/-- An issue as it is between commands. -/
structure Settled (i : Issue) : Prop where
  /-- It waits for its repair or its check, or has ended. -/
  stage : i.stage = .planning ∨ i.stage = .verifying ∨ i.stage = .complete ∨ i.stage = .failed
  /-- What is planned is what is planned against its weakness. -/
  plan : i.plan = some (Remedy.planFor i.weakness)
  /-- Exactly a failed issue has notes. -/
  notes : i.notes.isSome ↔ i.stage = .failed
  /-- An issue that waits for its repair has no diff. -/
  unrepaired : i.stage = .planning → i.artifact = none
  /-- An issue that waits for its check has a diff. -/
  repaired : i.stage = .verifying → i.artifact.isSome

theorem Settled.congr {i j : Issue} (h : i.Settled) (hstage : j.stage = i.stage)
    (hplan : j.plan = i.plan) (hweakness : j.weakness = i.weakness) (hnotes : j.notes = i.notes)
    (hartifact : j.artifact = i.artifact) : j.Settled where
  stage := by rw [hstage]; exact h.stage
  plan := by rw [hplan, hweakness]; exact h.plan
  notes := by rw [hnotes, hstage]; exact h.notes
  unrepaired := by rw [hstage, hartifact]; exact h.unrepaired
  repaired := by rw [hstage, hartifact]; exact h.repaired

/-- A settled issue is past its triage. -/
theorem Settled.planning_le_rank {i : Issue} (h : i.Settled) :
    Stage.planning.rank ≤ i.stage.rank := by
  rcases h.stage with hstage | hstage | hstage | hstage <;> rw [hstage] <;> decide

theorem idOf_injective : Function.Injective idOf := by
  intro m n h
  have hdigits : Text.padded 3 m = Text.padded 3 n := by
    simpa [idOf] using congrArg String.toList h
  rw [← Text.digitsValue_padded 3 m, hdigits, Text.digitsValue_padded]

theorem number?_of_id {i : Issue} {n : Nat} (h : i.id = idOf n) (hn : n ≤ Text.maxCounter) :
    i.number? = some n := by
  rw [number?, h, idOf, String.toList_ofList]
  exact Text.readCounter?_padded hn 3

theorem orderNumber_of_id {i : Issue} {n : Nat} (h : i.id = idOf n) (hn : n ≤ Text.maxCounter) :
    i.orderNumber = n := by
  rw [orderNumber, number?_of_id h hn]
  rfl

end Issue

namespace Snapshot

open Issue

/-- The issues of a snapshot are numbered without gaps, and no two track one finding. -/
structure Tracked (s : Snapshot) : Prop where
  /-- The directory in the store is that of the repository. -/
  named : s.slug = slugOf s.repository
  /-- The identifiers are those of the numbers from one on, each once. -/
  numbered : (s.issues.map Issue.id).Perm ((List.range' 1 s.issues.length).map idOf)
  /-- The numbers are counters. -/
  bounded : s.issues.length ≤ Text.maxCounter
  /-- No two issues track one finding. -/
  distinct : s.issues.Pairwise fun i j => ¬i.SameFinding j
  /-- Every weakness is read back from its tag. -/
  normal : ∀ i ∈ s.issues, ∀ w, i.weakness = some w → w.IsNormal

/-- The issues of a tracked snapshot stand in order of priority. -/
structure Ordered (s : Snapshot) : Prop extends Tracked s where
  /-- The issues stand in order of priority. -/
  ordered : s.issues.Pairwise Issue.Before

/-- A snapshot as it is between commands. -/
structure Sound (s : Snapshot) : Prop extends Ordered s where
  /-- Every issue is settled. -/
  settled : ∀ i ∈ s.issues, i.Settled

theorem sound_new (repository : String) : (Snapshot.new repository).Sound where
  named := rfl
  numbered := .nil
  bounded := Nat.zero_le _
  distinct := .nil
  normal := by simp [Snapshot.new]
  ordered := .nil
  settled := by simp [Snapshot.new]

/-- The cores of two snapshots agree, in order. -/
structure SameCores (s t : Snapshot) : Prop where
  /-- The repositories agree. -/
  repository : t.repository = s.repository
  /-- The directories in the store agree. -/
  slug : t.slug = s.slug
  /-- The cores of the issues agree. -/
  cores : t.issues.map core = s.issues.map core

namespace SameCores

variable {s t u : Snapshot}

theorem refl (s : Snapshot) : SameCores s s := ⟨rfl, rfl, rfl⟩

theorem trans (h : SameCores s t) (h' : SameCores t u) : SameCores s u :=
  ⟨h'.repository.trans h.repository, h'.slug.trans h.slug, h'.cores.trans h.cores⟩

/-- A relation on issues that is told by their cores carries over. -/
theorem pairwise {R : Core → Core → Prop} (h : SameCores s t)
    (hs : s.issues.Pairwise fun i j => R i.core j.core) :
    t.issues.Pairwise fun i j => R i.core j.core := by
  rw [← List.pairwise_map (f := core)] at hs ⊢
  rwa [h.cores]

theorem length_eq (h : SameCores s t) : t.issues.length = s.issues.length := by
  simpa using congrArg List.length h.cores

theorem tracked (h : SameCores s t) (hs : s.Tracked) : t.Tracked where
  named := by rw [h.slug, h.repository]; exact hs.named
  numbered := by
    have hids : t.issues.map Issue.id = s.issues.map Issue.id := by
      have hmap := congrArg (List.map Core.id) h.cores
      rwa [List.map_map, List.map_map] at hmap
    rw [hids, h.length_eq]
    exact hs.numbered
  bounded := by rw [h.length_eq]; exact hs.bounded
  distinct := h.pairwise (R := fun a b => ¬(a.description = b.description ∧
    a.file.map Path.components = b.file.map Path.components)) hs.distinct
  normal := by
    intro j hj w hw
    have hcore : j.core ∈ s.issues.map core := by
      rw [← h.cores]
      exact List.mem_map_of_mem hj
    obtain ⟨i, hi, hij⟩ := List.mem_map.mp hcore
    exact hs.normal i hi w ((congrArg Core.weakness hij).trans hw)

theorem ordered (h : SameCores s t) (hs : s.Ordered) : t.Ordered where
  toTracked := h.tracked hs.toTracked
  ordered := h.pairwise (R := fun a b => b.severity.rank < a.severity.rank ∨
    a.severity.rank = b.severity.rank ∧
      (Text.readCounter? a.id.toList).getD Text.maxCounter <
        (Text.readCounter? b.id.toList).getD Text.maxCounter) hs.ordered

end SameCores

namespace Tracked

variable {s : Snapshot}

/-- Every issue of a tracked snapshot has a number in range, which its identifier spells. -/
theorem exists_number (h : s.Tracked) {i : Issue} (hi : i ∈ s.issues) :
    ∃ n, 1 ≤ n ∧ n ≤ s.issues.length ∧ i.id = idOf n ∧ i.orderNumber = n := by
  have hid : i.id ∈ (List.range' 1 s.issues.length).map idOf :=
    h.numbered.mem_iff.mp (List.mem_map_of_mem hi)
  obtain ⟨n, hn, hidOf⟩ := List.mem_map.mp hid
  rw [List.mem_range'_1] at hn
  have hbound : n ≤ Text.maxCounter := by have := h.bounded; omega
  exact ⟨n, hn.1, by omega, hidOf.symm, orderNumber_of_id hidOf.symm hbound⟩

/-- No two issues have the same identifier. -/
theorem nodup_ids (h : s.Tracked) : (s.issues.map Issue.id).Nodup := by
  rw [h.numbered.nodup_iff]
  exact List.Nodup.map idOf_injective List.nodup_range'

end Tracked

/-- Two relations between the members of lists, one after the other. -/
theorem forall₂_trans {α β γ : Type} {R : α → β → Prop} {S : β → γ → Prop} {T : α → γ → Prop}
    (hT : ∀ a b c, R a b → S b c → T a c) {as : List α} {bs : List β} {cs : List γ}
    (h : List.Forall₂ R as bs) (h' : List.Forall₂ S bs cs) : List.Forall₂ T as cs := by
  induction h generalizing cs with
  | nil =>
    cases h'
    exact .nil
  | cons hab _ ih =>
    cases h' with
    | cons hbc hrest => exact .cons (hT _ _ _ hab hbc) (ih hrest)

theorem map_eq_of_forall₂ {α β γ : Type} {R : α → β → Prop} {f : α → γ} {g : β → γ}
    {as : List α} {bs : List β} (h : List.Forall₂ R as bs)
    (hR : ∀ a ∈ as, ∀ b, R a b → g b = f a) : bs.map g = as.map f := by
  induction h with
  | nil => rfl
  | @cons a b as bs hab _ ih =>
    rw [List.map_cons, List.map_cons, hR a List.mem_cons_self b hab,
      ih fun a' ha' => hR a' (List.mem_cons_of_mem _ ha')]

theorem exists_of_forall₂ {α β : Type} {R : α → β → Prop} {as : List α} {bs : List β}
    (h : List.Forall₂ R as bs) {b : β} (hb : b ∈ bs) : ∃ a ∈ as, R a b := by
  induction h with
  | nil => cases hb
  | @cons a b' as bs hab _ ih =>
    rcases List.mem_cons.mp hb with rfl | hb
    · exact ⟨a, List.mem_cons_self, hab⟩
    · obtain ⟨a', ha', hR⟩ := ih hb
      exact ⟨a', List.mem_cons_of_mem _ ha', hR⟩

/-- A sound snapshot that is stored and read again is sound. -/
theorem Sound.of_read? {s t : Snapshot} (h : s.Sound) (hread : Snapshot.read? s.write = some t) :
    t.Sound := by
  have hissues := issues_of_read?_write hread
  have hrest := eq_of_read?_write hread
  have hweakness : ∀ i ∈ s.issues, ∀ j, Issue.ofJson? i.toJson = some j →
      j.weakness = i.weakness := by
    intro i hi j hj
    rw [eq_of_ofJson?_toJson hj]
    cases hw : i.weakness with
    | none => rfl
    | some w => exact congrArg some (h.normal i hi w hw)
  have hcores : SameCores s t := by
    refine ⟨by rw [hrest], by rw [hrest], map_eq_of_forall₂ hissues fun i hi j hj => ?_⟩
    rw [core, core, hweakness i hi j hj, eq_of_ofJson?_toJson hj]
  refine ⟨hcores.ordered h.toOrdered, fun j hj => ?_⟩
  obtain ⟨i, hi, hij⟩ := exists_of_forall₂ hissues hj
  have heq := eq_of_ofJson?_toJson hij
  exact (h.settled i hi).congr (by rw [heq]) (by rw [heq]) (hweakness i hi j hij) (by rw [heq])
    (by rw [heq])

end Snapshot

end RepoAudit
