import RepoAudit.Proofs.Session.Steps

/-!
# Which steps complete issues

An issue is complete in a snapshot when it stands there as such. Of all steps only a check that
passes brings an issue there: refreshing and tracking leave the stages alone, planning and repairing
bring an issue elsewhere, and so does a check that fails.

## Main definitions

- `Snapshot.HasComplete` — the issue with an identifier is complete
- `Snapshot.CompletesNone` — no issue is complete that was not complete before

## Main statements

- `Session.stepsBy_completesNone` — no step completes an issue but a check that passes
-/

namespace RepoAudit

namespace Snapshot

open Issue

/-- The issue with an identifier is complete. -/
def HasComplete (id : String) (s : Snapshot) : Prop :=
  ∃ i ∈ s.issues, i.id = id ∧ i.stage = .complete

/-- No issue is complete in the second snapshot that is not complete in the first one. -/
def CompletesNone (s t : Snapshot) : Prop :=
  ∀ id, t.HasComplete id → s.HasComplete id

namespace CompletesNone

variable {s t u : Snapshot}

theorem refl (s : Snapshot) : CompletesNone s s :=
  fun _ h => h

theorem trans (h : CompletesNone s t) (h' : CompletesNone t u) : CompletesNone s u :=
  fun id hu => h id (h' id hu)

theorem of_mem (h : ∀ j ∈ t.issues, j.stage = .complete → j ∈ s.issues) : CompletesNone s t := by
  rintro id ⟨j, hj, hid, hcomplete⟩
  exact ⟨j, h j hj hcomplete, hid, hcomplete⟩

theorem of_sameIssues (h : SameIssues s t) : CompletesNone s t :=
  of_mem fun _ hj _ => h.issues ▸ hj

/-- Putting the issues in order completes none. -/
theorem prioritize (s : Snapshot) : CompletesNone s s.prioritize :=
  of_mem fun _ hj _ => (Tracked.prioritize_perm s).mem_iff.mp hj

/-- A step on one issue that does not bring it to its completion completes none. -/
theorem of_changedAt {index : Nat} {R : Issue → Issue → Prop} (h : ChangedAt index R s t)
    (hR : ∀ i j, R i j → j.stage ≠ .complete) : CompletesNone s t := by
  refine of_mem fun j hj hcomplete => ?_
  obtain ⟨k, hk⟩ := List.mem_iff_getElem?.mp hj
  exact h.forall_getElem? (P := fun _ i => i ∈ s.issues)
    (Q := fun _ j => j.stage = .complete → j ∈ s.issues) (fun _ _ hi => List.mem_of_getElem? hi)
    (fun i j _ hij hj => (hR i j hij hj).elim) (fun _ _ _ hi _ => hi) hk hcomplete

end CompletesNone

/-- Changing an issue, but not its identifier or its stage, completes none. -/
theorem CompletesNone.modifyIssue (s : Snapshot) (index : Nat) {f : Issue → Issue}
    (hf : ∀ i, (f i).id = i.id ∧ (f i).stage = i.stage) :
    CompletesNone s (s.modifyIssue index f) := by
  rintro id ⟨j, hj, hid, hcomplete⟩
  obtain ⟨k, hk⟩ := List.mem_iff_getElem?.mp hj
  rw [Snapshot.modifyIssue, List.getElem?_modify] at hk
  obtain ⟨i, hi, rfl⟩ := Option.map_eq_some_iff.mp hk
  refine ⟨i, List.mem_of_getElem? hi, ?_⟩
  split at hid
  · rw [if_pos ‹_›] at hcomplete
    exact ⟨(hf i).1 ▸ hid, (hf i).2 ▸ hcomplete⟩
  · rw [if_neg ‹_›] at hcomplete
    exact ⟨hid, hcomplete⟩

/-- Tracking a finding completes no issue. -/
theorem completesNone_track {now : Instant} {f : Finding} {s s' : Snapshot} {t t' : Tally}
    (h : s.track now f t = .ok (s', t')) : s.CompletesNone s' := by
  rw [track] at h
  split at h
  · cases h
    exact .modifyIssue s _ fun _ => ⟨rfl, rfl⟩
  · dsimp only at h
    split at h
    · cases h
      refine .of_mem fun j hj hcomplete => (List.mem_append.mp hj).resolve_right fun hnew => ?_
      rw [List.mem_singleton.mp hnew] at hcomplete
      cases hcomplete
    · cases h

theorem completesNone_ingest {findings : List (Instant × Finding)} {s s' : Snapshot} {t : Tally}
    (h : s.ingest findings = .ok (s', t)) : s.CompletesNone s' :=
  ingest_induction CompletesNone.refl (fun _ _ _ => CompletesNone.trans)
    (fun _ _ _ _ _ _ => completesNone_track) h

end Snapshot

namespace Issue

variable {i j : Issue}

theorem MovedTo.stage_eq {next : Stage} (h : i.MovedTo next j) : j.stage = next := by
  obtain ⟨-, now, rfl⟩ := h
  rfl

theorem Planned.stage_eq (h : i.Planned j) : j.stage = .planning := by
  obtain ⟨-, now, rfl⟩ := h
  rfl

end Issue

namespace Session

open Act Snapshot

variable {session : Session} {lawful : String × String → Prop} {W : Watch}

/-- No step but a move to the completion completes an issue. -/
theorem stepsBy_completesNone (hW : session.Permits lawful W) :
    session.StepsBy lawful (· ≠ .complete) W
      fun s t => t.identity = s.identity ∧ s.CompletesNone t where
  toPermits := hW
  refl := fun s => ⟨rfl, .refl s⟩
  trans := fun h h' => ⟨h'.1.trans h.1, h.2.trans h'.2⟩
  identity_eq := And.left
  allowed_of_ne := fun _ h => h
  remark := fun _ message s hs _ => (hW.log message hs).weaken id fun _ _ ⟨_, ht⟩ => by
    rw [ht]
    exact ⟨rfl, .of_sameIssues ⟨rfl, rfl, rfl⟩⟩
  move := fun _ index next s hs hnext => (changedAt_advance hW index next hs).weaken id
    fun _ _ ht => ⟨ht.identity_eq, .of_changedAt ht fun _ _ hij => hij.stage_eq ▸ hnext⟩
  note := fun s index f hf => ⟨rfl, .modifyIssue s index fun i =>
    ⟨congrArg (fun o : Issue.Origin => o.core.id) (hf i).1, (hf i).2.1⟩⟩
  track := fun _ findings s => by
    refine (keeps_stamp hW findings).bind fun stamped => ?_
    cases hingest : s.ingest stamped with
    | error f => exact Keeps.fail _
    | ok r =>
      refine Keeps.pure fun _ => ⟨?_, (completesNone_ingest hingest).trans (.prioritize _)⟩
      rw [identity_prioritize, identity_ingest hingest]
  context := fun hidentity hissues _ => ⟨hidentity,
    .of_sameIssues ⟨congrArg Prod.fst hidentity, congrArg Prod.snd hidentity, hissues⟩⟩

end Session

end RepoAudit
