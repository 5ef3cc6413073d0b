import RepoAudit.Proofs.Snapshot.Evolution

/-!
# Tracking findings again

Once its findings are tracked, an issue stands for each of them, and goes on doing so. When the same
findings are tracked again, no issue is made: every finding only sets the instant of the issue that
stands for it. Issues in order of priority stay in order, since the instant plays no part in it.

## Main definitions

- `Snapshot.SameSetting` — two snapshots differ in their issues and their logs alone
- `Snapshot.Covers` — an issue stands for a finding
- `Issue.Touched` — an issue is the same but for the instant of its last change

## Main statements

- `Snapshot.covers_ingest` — findings that were tracked are covered
- `Snapshot.ingest_of_covers` — what becomes of findings that are covered
-/

namespace RepoAudit

namespace Issue

variable {i j k : Issue}

/-- An issue is the same but for the instant of its last change. -/
def Touched (i j : Issue) : Prop :=
  ∃ now, j = i.touch now

namespace Touched

theorem refl (i : Issue) : Touched i i := ⟨i.updatedAt, rfl⟩

theorem trans (h : Touched i j) (h' : Touched j k) : Touched i k := by
  obtain ⟨now, rfl⟩ := h
  obtain ⟨now', rfl⟩ := h'
  exact ⟨now', rfl⟩

theorem core_eq (h : Touched i j) : j.core = i.core := by
  obtain ⟨now, rfl⟩ := h
  rfl

theorem stage_eq (h : Touched i j) : j.stage = i.stage := by
  obtain ⟨now, rfl⟩ := h
  rfl

end Touched

theorem tracks_congr (h : j.core = i.core) (f : Finding) : j.tracks f = i.tracks f := by
  simp only [core, Core.mk.injEq] at h
  rw [tracks, tracks, h.2.1, h.2.2.1]

theorem tracks_ofFinding (s : Snapshot) (number : Nat) (now : Instant) (f : Finding) :
    (ofFinding s number now f).tracks f = true := by
  simp [tracks, ofFinding, Path.same]

/-- The order of priority goes by the cores. -/
theorem precedes_congr {i' j' : Issue} (hi : i'.core = i.core) (hj : j'.core = j.core) :
    i'.precedes j' = i.precedes j := by
  simp only [core, Core.mk.injEq] at hi hj
  rw [Bool.eq_iff_iff, precedes_iff, precedes_iff]
  simp only [orderNumber, number?, hi.1, hj.1, hi.2.2.2.2, hj.2.2.2.2]

end Issue

namespace Snapshot

open Issue

variable {s s' t : Snapshot} {f : Finding} {now : Instant} {findings : List (Instant × Finding)}
  {tally tally' : Tally}

/-- Two snapshots differ in their issues and their logs alone. -/
def SameSetting (s t : Snapshot) : Prop :=
  ∃ issues log, t = { s with issues := issues, log := log }

namespace SameSetting

theorem refl (s : Snapshot) : SameSetting s s := ⟨s.issues, s.log, rfl⟩

theorem trans {u : Snapshot} (h : SameSetting s t) (h' : SameSetting t u) : SameSetting s u := by
  obtain ⟨issues, log, rfl⟩ := h
  obtain ⟨issues', log', rfl⟩ := h'
  exact ⟨issues', log', rfl⟩

theorem withLog (s : Snapshot) (log : List String) : SameSetting s { s with log := log } :=
  ⟨s.issues, log, rfl⟩

theorem slug_eq (h : SameSetting s t) : t.slug = s.slug := by
  obtain ⟨issues, log, rfl⟩ := h
  rfl

theorem lastRunAt_eq (h : SameSetting s t) : t.lastRunAt = s.lastRunAt := by
  obtain ⟨issues, log, rfl⟩ := h
  rfl

/-- Tracking findings changes the issues alone. -/
theorem of_ingest (h : s.ingest findings = .ok (s', tally)) : SameSetting s s' := by
  refine ingest_induction refl (fun _ _ _ => trans) (fun f _ s s' t t' htrack => ?_) h
  rw [track] at htrack
  split at htrack
  · cases htrack
    exact ⟨_, s.log, rfl⟩
  · dsimp only at htrack
    split at htrack
    · cases htrack
      exact ⟨_, s.log, rfl⟩
    · cases htrack

end SameSetting

/-- An issue stands for a finding. -/
def Covers (s : Snapshot) (f : Finding) : Prop :=
  ∃ i ∈ s.issues, i.tracks f = true

theorem Covers.of_cores (h : s.Covers f)
    (hcores : ∀ i ∈ s.issues, ∃ j ∈ t.issues, j.core = i.core) :
    t.Covers f := by
  obtain ⟨i, hi, htracks⟩ := h
  obtain ⟨j, hj, hcore⟩ := hcores i hi
  exact ⟨j, hj, (tracks_congr hcore f).trans htracks⟩

theorem Covers.of_forall₂ (h : s.Covers f) (htouched : List.Forall₂ Touched s.issues t.issues) :
    t.Covers f := by
  refine h.of_cores fun i hi => ?_
  obtain ⟨j, hj, hij⟩ := exists_of_forall₂ htouched.flip hi
  exact ⟨j, hj, Touched.core_eq hij⟩

/-- Every issue of a snapshot is still there after a finding is tracked, and one stands for the
finding. -/
theorem covers_track (h : s.track now f tally = .ok (s', tally')) :
    (∀ i ∈ s.issues, ∃ j ∈ s'.issues, j.core = i.core) ∧ s'.Covers f := by
  rw [track] at h
  split at h
  · next index hindex =>
    cases h
    have hcores := SameCores.modifyIssue s index (f := touch now) fun _ => rfl
    have hkept : ∀ i ∈ s.issues, ∃ j ∈ (s.modifyIssue index (touch now)).issues,
        j.core = i.core := by
      intro i hi
      have hmem : i.core ∈ (s.modifyIssue index (touch now)).issues.map core := by
        rw [hcores.cores]
        exact List.mem_map_of_mem hi
      exact List.mem_map.mp hmem
    refine ⟨hkept, Covers.of_cores (s := s) ?_ hkept⟩
    obtain ⟨hlt, htracks, -⟩ := List.findIdx?_eq_some_iff_getElem.mp hindex
    exact ⟨_, List.getElem_mem hlt, htracks⟩
  · dsimp only at h
    split at h
    · cases h
      refine ⟨fun i hi => ⟨i, List.mem_append_left _ hi, rfl⟩, ?_⟩
      exact ⟨_, List.mem_append_right _ (List.mem_singleton_self _), tracks_ofFinding s _ now f⟩
    · cases h

/-- Findings that were tracked are covered. -/
theorem covers_ingest (h : s.ingest findings = .ok (s', tally)) :
    ∀ f ∈ findings, s'.Covers f.2 := by
  rw [ingest] at h
  -- What covers a finding has to survive the findings after it, so that goes into the induction.
  suffices hall : (∀ i ∈ s.issues, ∃ j ∈ s'.issues, j.core = i.core) ∧
      ∀ f ∈ findings, s'.Covers f.2 from hall.2
  generalize Tally.zero = t₀ at h
  induction findings generalizing s t₀ with
  | nil =>
    cases h
    exact ⟨fun i hi => ⟨i, hi, rfl⟩, fun f hf => absurd hf List.not_mem_nil⟩
  | cons f rest ih =>
    rw [trackAll] at h
    split at h
    · next s₁ t₁ htrack =>
      obtain ⟨hkept, hcovered⟩ := covers_track htrack
      obtain ⟨hkept', hrest⟩ := ih t₁ h
      refine ⟨fun i hi => ?_, fun g hg => ?_⟩
      · obtain ⟨j, hj, hcore⟩ := hkept i hi
        obtain ⟨k, hk, hcore'⟩ := hkept' j hj
        exact ⟨k, hk, hcore'.trans hcore⟩
      · rcases List.mem_cons.mp hg with rfl | hg
        · exact hcovered.of_cores hkept'
        · exact hrest g hg
    · cases h

/-- What every issue has, and is not lost with a new instant, every issue has after some findings
are tracked, if the new ones have it. -/
theorem forall_mem_ingest {P : Issue → Prop} (hs : ∀ i ∈ s.issues, P i)
    (htouch : ∀ i now, P i → P (i.touch now))
    (hnew : ∀ f ∈ findings, ∀ s number, P (ofFinding s number f.1 f.2))
    (h : s.ingest findings = .ok (s', tally)) : ∀ i ∈ s'.issues, P i := by
  refine ingest_induction (R := fun s s' => (∀ i ∈ s.issues, P i) → ∀ i ∈ s'.issues, P i)
    (fun _ h => h) (fun _ _ _ h h' hs => h' (h hs)) (fun f hf s s' t t' htrack hs j hj => ?_) h hs
  rw [track] at htrack
  split at htrack
  · cases htrack
    obtain ⟨i, hi, rfl | rfl⟩ := exists_of_mem_modifyIssue hj
    · exact hs _ hi
    · exact htouch i f.1 (hs i hi)
  · dsimp only at htrack
    split at htrack
    · cases htrack
      rcases List.mem_append.mp hj with hj | hj
      · exact hs j hj
      · rw [List.mem_singleton.mp hj]
        exact hnew f hf s _
    · cases htrack

/-- A finding that is covered only touches an issue. -/
theorem track_of_covers (h : s.Covers f) (now : Instant) (tally : Tally) :
    ∃ index, s.track now f tally = .ok (s.modifyIssue index (touch now), tally.withRefreshed) := by
  cases hindex : s.issues.findIdx? fun i => i.tracks f with
  | none =>
    obtain ⟨i, hi, htracks⟩ := h
    exact absurd htracks (by simpa using List.findIdx?_eq_none_iff.mp hindex i hi)
  | some index =>
    refine ⟨index, ?_⟩
    rw [track, hindex]

/-- Findings that are covered make no issue: each sets an instant, and nothing else changes. -/
theorem ingest_of_covers (h : ∀ f ∈ findings, s.Covers f.2) :
    ∃ issues, s.ingest findings = .ok ({ s with issues := issues }, ⟨0, findings.length⟩) ∧
      List.Forall₂ Touched s.issues issues := by
  -- The induction is over the findings, for every snapshot that covers them and every tally so far.
  suffices hall : ∀ (s : Snapshot) (t : Tally), (∀ f ∈ findings, s.Covers f.2) →
      ∃ issues, trackAll findings s t =
          .ok ({ s with issues := issues }, ⟨t.created, t.refreshed + findings.length⟩) ∧
        List.Forall₂ Touched s.issues issues by
    obtain ⟨issues, hrun, htouched⟩ := hall s .zero h
    refine ⟨issues, ?_, htouched⟩
    rw [ingest, hrun]
    simp [Tally.zero]
  clear h
  induction findings with
  | nil => exact fun s t _ => ⟨s.issues, rfl, List.forall₂_same.mpr fun i _ => .refl i⟩
  | cons f rest ih =>
    intro s t hcovers
    obtain ⟨index, htrack⟩ := track_of_covers (hcovers f List.mem_cons_self) f.1 t
    have hfirst : List.Forall₂ Touched s.issues (s.modifyIssue index (touch f.1)).issues :=
      forall₂_modifyIssue Touched.refl fun _ _ => ⟨f.1, rfl⟩
    obtain ⟨issues, hrest, htouched⟩ := ih (s.modifyIssue index (touch f.1)) t.withRefreshed
      fun g hg => (hcovers g (List.mem_cons_of_mem f hg)).of_forall₂ hfirst
    refine ⟨issues, ?_, forall₂_trans (fun _ _ _ h h' => h.trans h') hfirst htouched⟩
    rw [trackAll, htrack]
    dsimp only
    rw [hrest]
    simp only [Tally.withRefreshed, modifyIssue, List.length_cons]
    rw [Nat.add_assoc, Nat.add_comm 1]

/-! ## Order -/

theorem pairwise_prioritize (s : Snapshot) :
    s.prioritize.issues.Pairwise fun i j => i.precedes j = true :=
  List.pairwise_mergeSort precedes_trans precedes_total _

theorem prioritize_eq_self (h : s.issues.Pairwise fun i j => i.precedes j = true) :
    s.prioritize = s := by
  rw [prioritize, List.mergeSort_of_pairwise h]

theorem pairwise_of_sameCores (hcores : SameCores s t)
    (h : s.issues.Pairwise fun i j => i.precedes j = true) :
    t.issues.Pairwise fun i j => i.precedes j = true := by
  have hs : (s.issues.map core).Pairwise fun c d =>
      ∀ i j : Issue, i.core = c → j.core = d → i.precedes j = true := by
    rw [List.pairwise_map]
    refine h.imp fun hij i' j' hi hj => ?_
    rw [precedes_congr hi hj]
    exact hij
  rw [← hcores.cores, List.pairwise_map] at hs
  exact hs.imp fun hij => hij _ _ rfl rfl

end Snapshot

end RepoAudit
