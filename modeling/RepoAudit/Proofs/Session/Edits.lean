import RepoAudit.Proofs.Pipeline
import RepoAudit.Proofs.Snapshot.Edit
import RepoAudit.Proofs.Succession

/-!
# The commands edit their snapshots

Every pass edits the snapshot it works on, so what each single edit keeps is kept by every command
and holds of every snapshot that the commands ever store.

## Main statements

- `Session.stepsBy_edits` — every step edits the snapshot
- `Session.PermitsKeeping.perform` — what every edit keeps is kept by every command
- `Store.Reachable.holdsOnly` — it holds of every snapshot in the store
-/

namespace RepoAudit

open Act Snapshot

namespace Session

variable {session : Session} {lawful : String × String → Prop} {W : Watch} {p : Prop}

/-! ## Single steps -/

/-- A message that is logged is added to the log of the snapshot. -/
theorem Permits.logged (hW : session.Permits lawful W) (message : String) {s : Snapshot}
    (hs : p → lawful s.identity) :
    Keeps W p (session.store.log message s) fun t => ∃ now, t = s.logged now message :=
  hW.logLine message hs

theorem edits_log (hW : session.Permits lawful W) {message : String} {s : Snapshot}
    (hs : p → lawful s.identity) (hremark : p → s.Remark message) :
    Keeps W p (session.store.log message s) s.Edits := by
  refine (hW.logged message hs).weaken id ?_
  rintro _ hp ⟨now, rfl⟩
  exact .single (.remark (hremark hp) now)

theorem edits_advance (hW : session.Permits lawful W) (index : Nat) (next : Stage) {s : Snapshot}
    (hs : p → lawful s.identity) : Keeps W p (session.advance index next s) s.Edits := by
  rw [advance]
  cases hi : s.issues[index]? with
  | none => exact Keeps.pure fun _ => .refl s
  | some i =>
    dsimp only
    split
    · next hmove =>
      refine (hW.now p).bind fun now => ?_
      refine (hW.logged _ fun h => ?_).weaken id ?_
      · rw [identity_modifyIssue]
        exact hs h.1
      · rintro _ - ⟨now', rfl⟩
        exact .single (.move hi hmove now now')
    · exact Keeps.fail _

theorem edits_trackFindings (hW : session.Permits lawful W) (findings : List Finding)
    (s : Snapshot) : Keeps W p (trackFindings findings s) fun r => s.Edits r.1 := by
  refine (keeps_stamp hW findings).bind fun stamped => ?_
  cases hingest : s.ingest stamped with
  | error f => exact Keeps.fail _
  | ok r =>
    obtain ⟨t, tally⟩ := r
    have hedits : s.Edits t.prioritize :=
      (Edits.ingest hingest).trans (Edits.single (Edit.prioritize t))
    exact Keeps.pure fun _ => hedits

/-- Every step edits the snapshot. -/
theorem stepsBy_edits (hW : session.Permits lawful W) :
    session.StepsBy lawful (fun _ => True) W Edits where
  toPermits := hW
  refl := .refl
  trans := .trans
  identity_eq := Edits.identity_eq
  allowed_of_ne := fun _ _ => trivial
  remark := fun _ _ _ hs hremark => edits_log hW hs hremark
  move := fun _ index next _ hs _ => edits_advance hW index next hs
  note := fun _ index _ hf => .single (.note index fun i =>
    ⟨congrArg Issue.Origin.core (hf i).1, (hf i).2.1⟩)
  track := fun _ findings s => edits_trackFindings hW findings s
  context := fun hidentity hissues hlog => .single (.context hidentity hissues hlog)

theorem edits_verifyAndCommit (hW : session.Permits lawful W) (id : String) {s : Snapshot}
    (hs : p → lawful s.identity) :
    Keeps W p (session.verifyAndCommit id s) fun r => s.Edits r.1 := by
  have hsteps := stepsBy_edits hW
  refine (hsteps.verifyIssue trivial id hs).bind fun r => ?_
  obtain ⟨t, verdict⟩ := r
  dsimp only
  split
  · exact (hsteps.commitIssue id (hsteps.lawful_of hs)).bind fun r =>
      Keeps.pure fun h => h.1.2.trans h.2
  · exact Keeps.pure And.right

/-! ## Commands -/

/-- What the commands of a session are made of keeps what is watched, and so do loading and saving
for snapshots with a property, which every edit keeps. -/
structure PermitsKeeping (session : Session) (P : Snapshot → Prop) (W : Watch) : Prop extends
    session.PermitsRepairs (fun _ => True) (fun _ => True) W where
  /-- Every edit keeps the property. -/
  edit : ∀ s t : Snapshot, s.Edit t → P s → P t
  /-- A snapshot that is loaded has the property. -/
  load : ∀ (p : Prop) (repository : String), Keeps W p (session.store.load repository) P
  /-- A snapshot with the property may be saved. -/
  save : ∀ (p : Prop) (s : Snapshot), (p → P s) → Keeps W p (session.store.save s) fun _ => True

variable {P : Snapshot → Prop}

theorem PermitsKeeping.onSnapshot (hW : session.PermitsKeeping P W) {α : Type}
    {step : Snapshot → Act (Snapshot × α)}
    (hstep : ∀ s, Keeps W True (step s) fun r => s.Edits r.1) (repository : String) :
    Keeps W p (session.onSnapshot repository step) fun _ => True := by
  refine (hW.load p _).bind fun s => ((hstep s).given fun _ => trivial).bind fun r => ?_
  exact (hW.save _ r.1 fun h => h.2.keeps hW.edit h.1.2).bind fun _ => Keeps.pure fun _ => trivial

theorem PermitsKeeping.runOne (hW : session.PermitsKeeping P W) (profile? : Option Profile)
    (repository : String) : Keeps W p (session.runOne profile? repository) fun _ => True := by
  refine (hW.load p _).bind fun s => ?_
  have hsteps := stepsBy_edits hW.toPermits
  refine (hsteps.scanSnapshot profile? fun _ => trivial).bind fun r₁ => ?_
  refine (hsteps.fixAll hW.toPermitsRepairs fun _ => trivial).bind fun r₂ => ?_
  refine (hsteps.verifyAll trivial fun _ => trivial).bind fun r₃ => ?_
  refine (edits_log hW.toPermits (fun _ => trivial) fun _ => remark_runLine _ _ _ _).bind
    fun t => ?_
  refine ((hW.save _ t fun h => ?_).mapFailure _).bind fun _ => Keeps.pure fun _ => trivial
  obtain ⟨⟨⟨⟨⟨-, hs⟩, h₁⟩, h₂⟩, h₃⟩, h₄⟩ := h
  exact (((h₁.trans h₂).trans h₃).trans h₄).keeps hW.edit hs

/-- What every edit keeps is kept by every command. -/
theorem PermitsKeeping.perform (hW : session.PermitsKeeping P W) (c : Command) :
    Keeps W p (session.perform c) fun _ => True :=
  keeps_perform_of fun r _ =>
    have hsteps := stepsBy_edits hW.toPermits
    { scan := fun _ profile? =>
        hW.onSnapshot (fun _ => hsteps.scanSnapshot profile? fun _ => trivial) r
      run := fun _ profile? => hW.runOne profile? r
      fix := fun _ id =>
        (hW.onSnapshot (fun _ => hsteps.fixIssue hW.toPermitsRepairs id fun _ => trivial) r).bind
          fun _ => Keeps.pure fun _ => trivial
      verify := fun _ id =>
        (hW.onSnapshot (fun _ => edits_verifyAndCommit hW.toPermits id fun _ => trivial) r).bind
          fun _ => Keeps.pure fun _ => trivial
      commit := fun _ id =>
        (hW.onSnapshot (fun _ => hsteps.commitIssue id fun _ => trivial) r).bind
          fun _ => Keeps.pure fun _ => trivial }

end Session

namespace Store

open Session FileTree

/-- What a snapshot file holds, if there is one: the text of a snapshot with a property. -/
def HoldsOnly (P : Snapshot → Prop) (content? : Option ByteArray) : Prop :=
  ∀ content, content? = some content → ∃ s : Snapshot, P s ∧ content = s.write.toUTF8

/-- A property that new snapshots have and that every edit and storing keep. -/
structure Lasting (P : Snapshot → Prop) : Prop where
  /-- A new snapshot has the property. -/
  new : ∀ repository, P (.new repository)
  /-- Every edit keeps the property. -/
  edit : ∀ s t : Snapshot, s.Edit t → P s → P t
  /-- It is kept by storing a snapshot and reading it again. -/
  read : ∀ s t : Snapshot, P s → Snapshot.read? s.write = some t → P t

variable {P : Snapshot → Prop}

/-- The guard over a store that holds only snapshots with a lasting property permits the commands. -/
theorem Lasting.permitsKeeping (hP : Lasting P) {session : Session} {start : World}
    (hspares : session.settings.SparesSnapshots) :
    session.PermitsKeeping P (session.store.guard (fun _ => HoldsOnly P) start) where
  toPermitsRepairs := permitsRepairs_guard hspares
  edit := hP.edit
  load := by
    intro p repository
    refine (keeps_load repository).weaken id ?_
    rintro s - (rfl | ⟨content, text, hgood, htext, hread⟩)
    · exact hP.new repository
    · obtain ⟨t, ht, hwrite⟩ := hgood content rfl
      rw [hwrite, fromUTF8?_toUTF8] at htext
      rw [← Option.some.inj htext] at hread
      exact hP.read t s ht hread
  save := fun p s hs => keeps_save s fun hp _ hcontent =>
    ⟨s, hs hp, (Option.some.inj hcontent).symm⟩

/-- Every snapshot file in a reachable world holds the text of a snapshot with any lasting
property. -/
theorem Reachable.holdsOnly (hP : Lasting P) {base : Route} {w : World} (h : Reachable base w)
    (repository : String) : HoldsOnly P (w.files.fileAt (snapshotRoute base repository)) := by
  induction h generalizing repository with
  | empty w hempty =>
    intro content hcontent
    rw [hempty repository] at hcontent
    cases hcontent
  | @command w _ session c hbase halone ih =>
    subst hbase
    exact (halone.guards ((hP.permitsKeeping halone.settings).perform c) ih).good _
      ⟨repository, rfl⟩
  | @change w _ w' hfiles ih =>
    intro content hcontent
    exact ih repository content (hfiles repository content hcontent)

end Store

end RepoAudit
