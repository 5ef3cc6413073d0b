import RepoAudit.Proofs.Instant.RoundTrip
import RepoAudit.Proofs.Snapshot.Change

/-!
# How snapshots evolve

From one saved snapshot to the next no issue is lost, and what was told of it when it was tracked
stays. Its stage moves forward, and a final stage is kept. Issues may be added and put in order.

## Main definitions

- `Issue.origin` — what is told of an issue when it is tracked
- `Issue.Continues` — an issue goes on from another one
- `Snapshot.Evolves` — every issue goes on in another snapshot
- `Snapshot.LeavesOthers` — no issue but one has changed

## Main statements

- `Snapshot.Evolves.trans` — snapshots evolve one after the other
- `Snapshot.evolves_ingest`, `Snapshot.evolves_prioritize` — tracking findings, putting in order
- `Snapshot.sameIssues_of_read?_write` — the issues are read back from a stored text
-/

namespace RepoAudit

namespace Issue

/-- What is told of an issue when it is tracked, beside its core. -/
structure Origin where
  /-- The core. -/
  core : Core
  /-- The repository. -/
  repository : String
  /-- The line it was seen in. -/
  line : Option Nat
  /-- Its score. -/
  score : Option String
  /-- The domain of the repository. -/
  domain : Option Domain
  /-- The ecosystems of the repository. -/
  ecosystems : Option (List Ecosystem)
  /-- When it was tracked. -/
  createdAt : Instant

/-- What is told of an issue when it is tracked. -/
def origin (i : Issue) : Origin :=
  ⟨i.core, i.repository, i.line, i.score, i.domain, i.ecosystems, i.createdAt⟩

/-- An issue goes on from another one. -/
structure Continues (i j : Issue) : Prop where
  /-- What was told of it has stayed. -/
  origin : j.origin = i.origin
  /-- Its stage has not moved back. -/
  rank_le : i.stage.rank ≤ j.stage.rank
  /-- A final stage has stayed. -/
  final : i.stage.isFinal = true → j.stage = i.stage

namespace Continues

variable {i j k : Issue}

theorem refl (i : Issue) : Continues i i := ⟨rfl, Nat.le_refl _, fun _ => rfl⟩

theorem trans (h : Continues i j) (h' : Continues j k) : Continues i k where
  origin := h'.origin.trans h.origin
  rank_le := Nat.le_trans h.rank_le h'.rank_le
  final := fun hi => by
    have hj := h.final hi
    rw [h'.final (hj ▸ hi), hj]

theorem id_eq (h : Continues i j) : j.id = i.id :=
  congrArg (fun o : Origin => o.core.id) h.origin

/-- An issue whose stage has stayed goes on. -/
theorem of_stage_eq (horigin : j.origin = i.origin) (hstage : j.stage = i.stage) :
    Continues i j :=
  ⟨horigin, by rw [hstage], fun _ => hstage⟩

/-- An issue that was moved goes on. -/
theorem of_canMoveTo {next : Stage} (hmove : i.stage.canMoveTo next = true)
    (horigin : j.origin = i.origin) (hstage : j.stage = next) : Continues i j where
  origin := horigin
  rank_le := by
    rw [Stage.canMoveTo, Bool.and_eq_true, decide_eq_true_eq] at hmove
    exact hstage ▸ Nat.le_of_lt hmove.2
  final := fun hfinal => by simp [Stage.canMoveTo, hfinal] at hmove

end Continues

/-- The instants of an issue are days of the calendar. -/
structure IsDated (i : Issue) : Prop where
  /-- The one at which it was tracked. -/
  createdAt : i.createdAt.isValid
  /-- The one of its last change. -/
  updatedAt : i.updatedAt.isValid

/-- An issue with days of the calendar and a weakness that its tag is read as is read back, if it is
read at all. -/
theorem IsDated.eq_of_ofJson?_toJson {i j : Issue} (hdated : i.IsDated)
    (hnormal : ∀ w, i.weakness = some w → w.IsNormal)
    (h : Issue.ofJson? i.toJson = some j) : j = i := by
  have hweakness : (i.weakness.map fun w => Weakness.ofTag w.tag) = i.weakness := by
    cases hw : i.weakness with
    | none => rfl
    | some w => exact congrArg some (hnormal w hw)
  rw [Issue.ofJson?_toJson, Instant.read?_write hdated.createdAt,
    Instant.read?_write hdated.updatedAt, hweakness] at h
  simp only [Option.bind_eq_bind, Option.bind_some, Option.bind_eq_some_iff, Option.some.injEq] at h
  obtain ⟨line, hline, rfl⟩ := h
  suffices hsame : line = i.line by rw [hsame]
  cases hn : i.line with
  | none =>
    rw [hn] at hline
    exact (Option.some.inj hline).symm
  | some n =>
    rw [hn, Option.map_some, Json.optional_some _ (by simp [Json.nat]), Json.counter?_nat] at hline
    split at hline
    · exact (Option.some.inj hline).symm
    · cases hline

end Issue

namespace Snapshot

open Issue

/-- The instants of all issues are days of the calendar. -/
def IsDated (s : Snapshot) : Prop :=
  ∀ i ∈ s.issues, i.IsDated

theorem isDated_new (repository : String) : (Snapshot.new repository).IsDated :=
  fun i hi => by simp [Snapshot.new] at hi

/-- Every issue of a snapshot goes on in another one of the same repository. -/
structure Evolves (s t : Snapshot) : Prop where
  /-- The repository and its directory are the same. -/
  identity : t.identity = s.identity
  /-- Every issue goes on. -/
  issues : ∀ i ∈ s.issues, ∃ j ∈ t.issues, i.Continues j
  /-- The instants stay days of the calendar. -/
  dated : s.IsDated → t.IsDated

/-- No issue but the one with an identifier has changed, and the order is the same. -/
structure LeavesOthers (id : String) (s t : Snapshot) : Prop where
  /-- The order is the same. -/
  ids : t.issues.map Issue.id = s.issues.map Issue.id
  /-- The other issues are the same. -/
  others : ∀ (k : Nat) (i : Issue), s.issues[k]? = some i → i.id ≠ id → t.issues[k]? = some i

namespace Evolves

variable {s t u : Snapshot}

theorem refl (s : Snapshot) : Evolves s s :=
  ⟨rfl, fun i hi => ⟨i, hi, .refl i⟩, fun hs => hs⟩

theorem trans (h : Evolves s t) (h' : Evolves t u) : Evolves s u where
  identity := h'.identity.trans h.identity
  issues := fun i hi => by
    obtain ⟨j, hj, hij⟩ := h.issues i hi
    obtain ⟨k, hk, hjk⟩ := h'.issues j hj
    exact ⟨k, hk, hij.trans hjk⟩
  dated := fun hs => h'.dated (h.dated hs)

theorem of_sameIssues (h : SameIssues s t) : Evolves s t where
  identity := h.identity_eq
  issues := fun i hi => ⟨i, h.issues ▸ hi, .refl i⟩
  dated := fun hs i hi => hs i (h.issues ▸ hi)

/-- A snapshot evolves with the issue at one place. -/
theorem modifyIssue (s : Snapshot) (index : Nat) {f : Issue → Issue}
    (hf : ∀ i, s.issues[index]? = some i → i.Continues (f i) ∧ (i.IsDated → (f i).IsDated)) :
    Evolves s (s.modifyIssue index f) where
  identity := rfl
  issues := by
    intro i hi
    obtain ⟨k, hk⟩ := List.mem_iff_getElem?.mp hi
    have hmodify : (s.modifyIssue index f).issues[k]? = some (if index = k then f i else i) := by
      rw [Snapshot.modifyIssue, List.getElem?_modify, hk]
      rfl
    refine ⟨_, List.mem_of_getElem? hmodify, ?_⟩
    split
    · next hindex => exact (hf i (hindex ▸ hk)).1
    · exact .refl i
  dated := by
    intro hs j hj
    obtain ⟨k, hk⟩ := List.mem_iff_getElem?.mp hj
    rw [Snapshot.modifyIssue, List.getElem?_modify] at hk
    obtain ⟨i, hi, rfl⟩ := Option.map_eq_some_iff.mp hk
    have hdated := hs i (List.mem_of_getElem? hi)
    split
    · next hindex => exact (hf i (hindex ▸ hi)).2 hdated
    · exact hdated

end Evolves

theorem LeavesOthers.of_sameIssues {id : String} {s t : Snapshot} (h : SameIssues s t) :
    LeavesOthers id s t :=
  ⟨by rw [h.issues], fun k i hi _ => h.issues ▸ hi⟩

theorem LeavesOthers.andSame {id : String} {s t u : Snapshot} (h : LeavesOthers id s t)
    (h' : SameIssues t u) : LeavesOthers id s u :=
  ⟨by rw [h'.issues, h.ids], fun k i hi hne => h'.issues ▸ h.others k i hi hne⟩

theorem LeavesOthers.congr {id : String} {s s' t : Snapshot} (hsame : SameIssues s s')
    (h : LeavesOthers id s' t) : LeavesOthers id s t :=
  ⟨by rw [h.ids, hsame.issues], fun k i hi hne => h.others k i (hsame.issues ▸ hi) hne⟩

/-- A step on the issue with an identifier leaves the others alone. -/
theorem ChangedAt.leavesOthers {index : Nat} {R : Issue → Issue → Prop} {id : String}
    {s t : Snapshot} (h : ChangedAt index R s t) (hR : ∀ i j, R i j → j.core = i.core)
    (hid : ∀ i : Issue, s.issues[index]? = some i → i.id = id) : LeavesOthers id s t where
  ids := by
    have hids := congrArg (List.map Core.id) (h.sameCores hR).cores
    rwa [List.map_map, List.map_map] at hids
  others := by
    intro k i hi hne
    have hk : k ≠ index := by
      rintro rfl
      exact hne (hid i hi)
    rwa [h.others k hk]

/-! ## Tracking findings -/

theorem evolves_track {now : Instant} {f : Finding} {s s' : Snapshot} {t t' : Tally}
    (hnow : now.isValid) (h : s.track now f t = .ok (s', t')) : s.Evolves s' := by
  rw [track] at h
  split at h
  · cases h
    exact .modifyIssue s _ fun i _ => ⟨.of_stage_eq rfl rfl, fun hi => ⟨hi.createdAt, hnow⟩⟩
  · dsimp only at h
    split at h
    · cases h
      refine ⟨rfl, fun i hi => ⟨i, List.mem_append_left _ hi, .refl i⟩, fun hs i hi => ?_⟩
      rcases List.mem_append.mp hi with hi | hi
      · exact hs i hi
      · rw [List.mem_singleton.mp hi]
        exact ⟨hnow, hnow⟩
    · cases h

/-- A snapshot evolves when findings are tracked on days of the calendar. -/
theorem evolves_ingest {findings : List (Instant × Finding)} {s s' : Snapshot} {t : Tally}
    (hvalid : ∀ f ∈ findings, f.1.isValid) (h : s.ingest findings = .ok (s', t)) :
    s.Evolves s' :=
  ingest_induction Evolves.refl (fun _ _ _ => Evolves.trans)
    (fun f hf _ _ _ _ => evolves_track (hvalid f hf)) h

/-- A snapshot evolves when its issues are put in order. -/
theorem evolves_prioritize (s : Snapshot) : s.Evolves s.prioritize where
  identity := rfl
  issues := fun i hi => ⟨i, (Tracked.prioritize_perm s).mem_iff.mpr hi, .refl i⟩
  dated := fun hs i hi => hs i ((Tracked.prioritize_perm s).mem_iff.mp hi)

/-! ## Stored texts -/

/-- The issues of a sound snapshot with days of the calendar are read back from its text. -/
theorem sameIssues_of_read?_write {s t : Snapshot} (hs : s.Tracked) (hdated : s.IsDated)
    (h : Snapshot.read? s.write = some t) : s.SameIssues t := by
  have hissues := issues_of_read?_write h
  have hrest := eq_of_read?_write h
  refine ⟨by rw [hrest], by rw [hrest], ?_⟩
  have hmap := map_eq_of_forall₂ (f := fun i => i) (g := fun i => i) hissues fun i hi j hj =>
    (hdated i hi).eq_of_ofJson?_toJson (hs.normal i hi) hj
  simpa using hmap

end Snapshot

end RepoAudit
