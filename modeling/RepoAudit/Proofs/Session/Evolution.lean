import RepoAudit.Proofs.Session.Steps

/-!
# Snapshots evolve under the commands

What a command does to a snapshot between loading and saving it: every step moves issues forward or
leaves them alone, so does every pass, and what works on one issue leaves the others alone. All
this holds under every watch that permits the session and sees the clock show days of the calendar.

## Main definitions

- `Act.Watch.ShowsDays` — the clock shows days of the calendar

## Main statements

- `Session.stepsBy_evolves` — a snapshot evolves with every step
- `Session.leavesOthers_fixIssue`, `Session.leavesOthers_verifyIssue`,
  `Session.leavesOthers_commitIssue` — no other issue is changed
-/

namespace RepoAudit

open Act Snapshot

/-- Under a watch the clock shows days of the calendar. -/
def Act.Watch.ShowsDays (W : Watch) : Prop :=
  ∀ p : Prop, Keeps W p Act.now fun now => now.isValid

namespace Session

variable {session : Session} {lawful : String × String → Prop} {W : Watch} {p : Prop}

theorem evolves_log (hW : session.Permits lawful W) (message : String) {s : Snapshot}
    (hs : p → lawful s.identity) :
    Keeps W p (session.store.log message s) s.Evolves := by
  refine (hW.log message hs).weaken id ?_
  rintro _ - ⟨log, rfl⟩
  exact .of_sameIssues ⟨rfl, rfl, rfl⟩

theorem evolves_advance (hW : session.Permits lawful W) (hdays : W.ShowsDays) (index : Nat)
    (next : Stage) {s : Snapshot} (hs : p → lawful s.identity) :
    Keeps W p (session.advance index next s) s.Evolves := by
  rw [advance]
  cases hi : s.issues[index]? with
  | none => exact Keeps.pure fun _ => .refl s
  | some i =>
    dsimp only
    split
    · next hmove =>
      refine (hdays p).bind fun now => ?_
      refine (evolves_log hW _ fun h => ?_).weaken id fun t hnow ht => ?_
      · rw [identity_modifyIssue]
        exact hs h.1
      · refine Evolves.trans (.modifyIssue s index fun i' hi' => ?_) ht
        obtain rfl := Option.some.inj (hi.symm.trans hi')
        exact ⟨.of_canMoveTo hmove rfl rfl, fun hdated => ⟨hdated.createdAt, hnow.2⟩⟩
    · exact Keeps.fail _

theorem keeps_stamp_days (hdays : W.ShowsDays) (findings : List Finding) :
    Keeps W p (stamp findings) fun stamped => ∀ f ∈ stamped, f.1.isValid := by
  induction findings generalizing p with
  | nil => exact Keeps.pure fun _ => by simp
  | cons f fs ih =>
    refine (hdays p).bind fun now => ih.bind fun stamped => Keeps.pure ?_
    rintro ⟨⟨-, hnow⟩, hstamped⟩
    exact List.forall_mem_cons.mpr ⟨hnow, hstamped⟩

theorem evolves_trackFindings (hdays : W.ShowsDays) (findings : List Finding) (s : Snapshot) :
    Keeps W p (trackFindings findings s) fun r => s.Evolves r.1 := by
  refine (keeps_stamp_days hdays findings).bind fun stamped => ?_
  cases hingest : s.ingest stamped with
  | error f => exact Keeps.fail _
  | ok r =>
    exact Keeps.pure fun h => (evolves_ingest h.2 hingest).trans (evolves_prioritize _)

/-- A snapshot evolves with every step. -/
theorem stepsBy_evolves (hW : session.Permits lawful W) (hdays : W.ShowsDays) :
    session.StepsBy lawful (fun _ => True) W Evolves where
  toPermits := hW
  refl := .refl
  trans := .trans
  identity_eq := Evolves.identity
  allowed_of_ne := fun _ _ => trivial
  remark := fun _ message _ hs _ => evolves_log hW message hs
  move := fun _ index next _ hs _ => evolves_advance hW hdays index next hs
  note := fun s index f hf => .modifyIssue s index fun i _ => by
    obtain ⟨horigin, hstage, hupdated⟩ := hf i
    have hcreated : (f i).createdAt = i.createdAt := congrArg Issue.Origin.createdAt horigin
    exact ⟨.of_stage_eq horigin hstage, fun hdated =>
      ⟨hcreated ▸ hdated.createdAt, hupdated ▸ hdated.updatedAt⟩⟩
  track := fun _ findings s => evolves_trackFindings hdays findings s
  context := fun hidentity hissues _ =>
    .of_sameIssues ⟨congrArg Prod.fst hidentity, congrArg Prod.snd hidentity, hissues⟩

/-! ## Single issues -/

/-- The place of an issue is one at which no other issue stands. -/
theorem keeps_place_id (id : String) (s : Snapshot) :
    Keeps W p (place id s) fun index => ∀ i : Issue, s.issues[index]? = some i → i.id = id := by
  rw [place]
  cases hindex : s.indexOf? id with
  | none => exact Keeps.fail _
  | some index =>
    refine Keeps.pure fun _ i hi => ?_
    obtain ⟨hlt, hid, -⟩ := List.findIdx?_eq_some_iff_getElem.mp hindex
    rw [List.getElem?_eq_getElem hlt] at hi
    rw [← Option.some.inj hi]
    simpa using hid

theorem sameIssues_commitIssue (hW : session.Permits lawful W) (id : String) {s : Snapshot}
    (hs : p → lawful s.identity) :
    Keeps W p (session.commitIssue id s) fun r => s.SameIssues r.1 :=
  (keeps_place id s).bind fun index => sameIssues_commitAt hW index fun h => hs h.1

/-- Repairing one issue leaves the others alone. -/
theorem leavesOthers_fixIssue (hW : session.PermitsRepairs lawful (fun _ => True) W) (id : String)
    {s : Snapshot}
    (hs : p → lawful s.identity) :
    Keeps W p (session.fixIssue id s) fun r => s.LeavesOthers id r.1 := by
  refine (keeps_place_id id s).bind fun index => ?_
  cases hi : s.issues[index]? with
  | none => exact Keeps.pure fun _ => .of_sameIssues (.refl s)
  | some i =>
    dsimp only
    split
    · exact Keeps.fail _
    · split
      · refine (changedAt_planAt hW.toPermits index fun h => hs h.1).bind fun t => ?_
        refine (changedAt_fixAt hW index (fun h => h.2.identity_eq ▸ hs h.1.1)
          fun _ _ _ => trivial).weaken (fun h => h) fun r h hr =>
            (h.2.trans hr).leavesOthers ?_ fun i' hi' => h.1.2 i' (hi.symm.trans hi')
        rintro i k ⟨j, hij, hjk⟩
        exact hjk.core_eq.trans hij.core_eq
      · exact (changedAt_fixAt hW index (fun h => hs h.1)
          fun _ _ _ => trivial).weaken (fun h => h) fun r h hr =>
          hr.leavesOthers (fun _ _ => Issue.FixTried.core_eq)
            fun i' hi' => h.2 i' (hi.symm.trans hi')

/-- Checking one issue leaves the others alone. -/
theorem leavesOthers_verifyIssue (hW : session.Permits lawful W) (id : String) {s : Snapshot}
    (hs : p → lawful s.identity) :
    Keeps W p (session.verifyIssue id s) fun r => s.LeavesOthers id r.1 := by
  refine (keeps_place_id id s).bind fun index => ?_
  cases hi : s.issues[index]? with
  | none => exact Keeps.pure fun _ => .of_sameIssues (.refl s)
  | some i =>
    dsimp only
    split
    · exact Keeps.fail _
    · exact (changedAt_verifyAt hW index fun h => hs h.1).weaken (fun h => h) fun r h hr =>
        hr.leavesOthers (fun _ _ => Issue.CheckTried.core_eq)
          fun i' hi' => h.2 i' (hi.symm.trans hi')

end Session

end RepoAudit
