import RepoAudit.Proofs.Isolation
import RepoAudit.Proofs.Session.Completion
import RepoAudit.Proofs.Settlement
import RepoAudit.Proofs.Succession

/-!
# How issues become complete

An issue becomes complete in a pass over its repository that checks it, and only when its remedy
accepts what its file holds in the world of the check. From the check to the end of the pass nothing
is written but the files that the store keeps for the repository, so the file is still accepted when
the pass ends. A run makes one pass for each of its repositories, and a later pass may rewrite the
file.

## Main definitions

- `Issue.AcceptedAs` — the remedy of an issue accepts what its file holds
- `Session.ChecksAt` — the moments at which a pass checks issues
- `Session.passes` — the passes of a command
- `Session.Completes` — a pass accepts an issue and leaves its file alone
- `Store.ShowsComplete` — an issue is stored as complete

## Main statements

- `Session.passWorld_cases` — what a pass does to the snapshot files
- `Store.Reachable.completed` — what is stored as complete was accepted
-/

namespace RepoAudit

open Act Snapshot FileTree

/-- The remedy of an issue accepts the text that its file holds. -/
structure Issue.AcceptedAs (advisories : List Advisory) (i : Issue) (remedy : Remedy) (file : Path)
    (text : String) (w : World) : Prop where
  /-- The remedy is the one for the weakness of the issue. -/
  weakness : i.weakness.bind Remedy.for? = some remedy
  /-- The file is the one of the issue. -/
  path : i.file = some file
  /-- The file can be read. -/
  read : w.files.readText w.here file = .ok text
  /-- Its text is accepted. -/
  passed : remedy.verify advisories file text.toList = .passed

/-- A check passes when the remedy of the issue accepts the text of its file. -/
theorem Issue.check_eq_passed {advisories : List Advisory} {i : Issue} {w : World} :
    (i.check advisories w).1 = .ok .passed ↔
      ∃ remedy file text, i.AcceptedAs advisories remedy file text w := by
  constructor
  · intro h
    rw [check] at h
    cases htarget : i.remedyAndFile with
    | error reason =>
      rw [htarget] at h
      cases h
    | ok target =>
      obtain ⟨remedy, file⟩ := target
      rw [htarget] at h
      dsimp only at h
      rw [run_bind, Act.readText, run_look] at h
      cases htext : w.files.readText w.here file with
      | error cause =>
        rw [htext] at h
        cases h
      | ok text =>
        rw [htext] at h
        refine ⟨remedy, file, text, ?_, ?_, htext, Except.ok.inj h⟩
        all_goals
          unfold remedyAndFile at htarget
          split at htarget
          · cases htarget
          split at htarget
          · cases htarget
          split at htarget
          · cases htarget
          cases htarget
          simp_all
  · rintro ⟨remedy, file, text, hremedy, hfile, htext, hpassed⟩
    obtain ⟨weakness, hweakness, hfor⟩ := Option.bind_eq_some_iff.mp hremedy
    have htarget : i.remedyAndFile = .ok (remedy, file) := by
      simp [remedyAndFile, hweakness, hfor, hfile]
    rw [check, htarget]
    dsimp only
    rw [run_bind, Act.readText, run_look, htext]
    exact congrArg Except.ok hpassed

namespace Store

/-- A route is none of those at which the store itself writes for the repository with a slug. -/
def Spares (st : Store) (here : Route) (slug : String) (r : Route) : Prop :=
  ∀ name ∈ fileNames, r ≠ ((st.directory slug).entry name).routeFrom here

/-- The snapshot file of a repository shows the issue with an identifier as complete. -/
def ShowsComplete (base : Route) (q id : String) (w : World) : Prop :=
  ∃ content text s, w.files.fileAt (snapshotRoute base q) = some content ∧
    String.fromUTF8? content = some text ∧ Snapshot.read? text = some s ∧ s.HasComplete id

end Store

namespace Session

open Store

/-! ## Passes and their checks -/

/-- The moments at which a pass checks an issue: the place of the issue, the snapshot and the
world. The check of one issue comes when that issue stands at its check. The checks of a run come
one after the other, when all remedies have been tried. -/
inductive ChecksAt (session : Session) (w : World) : Command → Nat → Snapshot → World → Prop
  /-- The check of one issue. -/
  | verify {repository id : String} {s₀ s : Snapshot} {k : Nat} {v : World}
      (hload : (session.store.load (session.resolve repository) w).1 = .ok s₀)
      (hplace : s₀.indexOf? id = some k)
      (hmove : session.advanceUnlessAt k .verifying s₀ w = (.ok s, v)) :
      ChecksAt session w (.verify repository id) k s v
  /-- A check of a run over one repository. -/
  | run {repository : String} {profile? : Option Profile} {s₁ s₂ s₃ s : Snapshot} {n₂ n₃ k : Nat}
      {w₁ w₂ w₃ v : World} {before after : List Nat}
      (hscan : session.Scans repository profile? w s₁ w₁)
      (hfix : session.fixAll s₁ w₁ = (.ok (s₂, n₂), w₂))
      (hplaces : placesAt .verifying s₂ = before ++ k :: after)
      (hbefore : countSteps session.verifyStep before s₂ w₂ = (.ok (s₃, n₃), w₃))
      (hmove : session.advanceUnlessAt k .verifying s₃ w₃ = (.ok s, v)) :
      ChecksAt session w (.run [repository] profile?) k s v

/-- The passes of a run, each with the world in which it starts. A pass that fails is the last. -/
def runPasses (session : Session) (profile? : Option Profile) :
    List String → World → List (Command × World)
  | [], _ => []
  | r :: rs, w =>
    let (result, w₁) := session.perform (.run [r] profile?) w
    (.run [r] profile?, w) :: if result.isOk then session.runPasses profile? rs w₁ else []

/-- The passes of a command. A run makes one for each of its repositories, and any other command is
one. -/
def passes (session : Session) : Command → World → List (Command × World)
  | .run rs profile?, w => session.runPasses profile? rs w
  | c, w => [(c, w)]

/-- A pass accepts the issue with an identifier of a repository: it comes to check the issue, its
remedy accepts what its file holds then, and the file holds that to the end of the pass, unless it
is one that the store keeps for the repository or a program that was started has changed it. -/
def Completes (session : Session) (c : Command) (w : World) (q id : String) : Prop :=
  ∃ k s v i remedy file text, session.ChecksAt w c k s v ∧ s.issues[k]? = some i ∧ i.id = id ∧
    snapshotRoute (session.store.routeIn w.here) s.repository =
      snapshotRoute (session.store.routeIn w.here) q ∧
    i.AcceptedAs session.settings.advisories remedy file text v ∧
    (session.store.Spares v.here s.slug (file.routeFrom v.here) →
      ¬World.Meddled (file.routeFrom v.here) v (session.perform c w).2.calls →
        (session.perform c w).2.files.readText (session.perform c w).2.here file = .ok text)

variable {session : Session} {w w' : World} {s t : Snapshot} {k : Nat} {id : String}

/-! ## Single checks -/

/-- An issue that a check shows as complete was complete before, or it is the one that was checked,
and the check has passed. -/
theorem hasComplete_verifyAt {verdict : Verdict}
    (h : session.verifyAt k s w = (.ok (t, verdict), w')) (hcomplete : t.HasComplete id) :
    s.HasComplete id ∨ ∃ s₁ v i, session.advanceUnlessAt k .verifying s w = (.ok s₁, v) ∧
      s₁.issues[k]? = some i ∧ i.id = id ∧
      (i.check session.settings.advisories v).1 = .ok .passed ∧
      session.advance k .complete s₁ v = (.ok t, w') ∧ verdict = .passed := by
  have hW : session.Permits (fun _ => True) (World.progress w) :=
    permitsRepairs_progress.toPermits
  obtain ⟨s₁, v, hmove, h⟩ := run_bind_eq_ok.mp h
  obtain ⟨hfollows, hmoved⟩ := (changedAt_advanceUnlessAt (p := True) hW k .verifying
    fun _ => trivial).run hmove trivial ⟨rfl, rfl, Nat.le_refl _⟩ not_false
  have hnone : s.CompletesNone s₁ := .of_changedAt hmoved fun i j hij => by
    obtain ⟨-, now, rfl⟩ := hij
    simp
  cases hi : s₁.issues[k]? with
  | none =>
    rw [hi] at h
    cases h
    exact .inl (hnone id hcomplete)
  | some i =>
    rw [hi] at h
    obtain ⟨outcome, v', hcheck, h⟩ := run_bind_eq_ok.mp h
    obtain rfl : v' = v := by
      rw [← check_world session.settings.advisories i v, hcheck]
    cases outcome with
    | failed reason =>
      obtain ⟨t', w'', hgive, hend⟩ := run_bind_eq_ok.mp h
      cases hend
      obtain ⟨-, hgiven⟩ := (changedAt_giveUp (p := True) hW k _ _ fun _ => trivial).run hgive
        trivial hfollows not_false
      refine .inl (hnone id (CompletesNone.of_changedAt hgiven (fun i j hij => ?_) id hcomplete))
      obtain ⟨reason, now, rfl⟩ := hij
      simp
    | passed =>
      obtain ⟨t', w'', hadvance, hend⟩ := run_bind_eq_ok.mp h
      cases hend
      obtain ⟨-, hadvanced⟩ := (changedAt_advance (p := True) hW k .complete fun _ => trivial).run
        hadvance trivial hfollows not_false
      obtain ⟨j, hj, hid, hstage⟩ := hcomplete
      obtain ⟨place, hplace⟩ := List.mem_iff_getElem?.mp hj
      by_cases hk : place = k
      · subst hk
        obtain ⟨-, now, rfl⟩ := hadvanced.changed i j hi hplace
        exact .inr ⟨s₁, v', i, hmove, hi, hid, by rw [hcheck], hadvance, rfl⟩
      · rw [hadvanced.others place hk] at hplace
        exact .inl (hnone id ⟨j, List.mem_of_getElem? hplace, hid, hstage⟩)

/-! ## The checks of a run -/

/-- What a run does from a check that passes to the end of its checks. -/
def finishChecks (session : Session) (k : Nat) (after : List Nat) (s : Snapshot) :
    Act (Snapshot × Nat) := do
  let s ← session.advance k .complete s
  let (s, _) ← session.commitAt k s
  countSteps session.verifyStep after s

/-- An issue that checks at some places show as complete was complete before, or it was checked in
its turn, and its check has passed. -/
theorem hasComplete_verifySteps {places : List Nat} {n : Nat}
    (h : countSteps session.verifyStep places s w = (.ok (t, n), w'))
    (hcomplete : t.HasComplete id) :
    s.HasComplete id ∨ ∃ before k after s₃ n₃ w₃ s₄ v i n', places = before ++ k :: after ∧
      countSteps session.verifyStep before s w = (.ok (s₃, n₃), w₃) ∧
      session.advanceUnlessAt k .verifying s₃ w₃ = (.ok s₄, v) ∧ s₄.issues[k]? = some i ∧
      i.id = id ∧ (i.check session.settings.advisories v).1 = .ok .passed ∧
      session.finishChecks k after s₄ v = (.ok (t, n'), w') := by
  induction places generalizing s n w with
  | nil =>
    cases h
    exact .inl hcomplete
  | cons index rest ih =>
    obtain ⟨⟨s', counts⟩, w₁, hstep, hrest⟩ := run_bind_eq_ok.mp h
    obtain ⟨⟨t', n'⟩, w₂, hlater, hend⟩ := run_bind_eq_ok.mp hrest
    cases hend
    rcases ih hlater with hfirst | ⟨before, k, after, s₃, n₃, w₃, s₄, v, i, m, hplaces, hbefore,
      hrest⟩
    · obtain ⟨⟨t₁, verdict⟩, w₄, hverify, hcommit⟩ := run_bind_eq_ok.mp hstep
      cases verdict with
      | failed reason =>
        cases hcommit
        rcases hasComplete_verifyAt hverify hfirst with hs | ⟨_, _, _, -, -, -, -, -, hpassed⟩
        · exact .inl hs
        · cases hpassed
      | passed =>
        obtain ⟨⟨t₂, outcome⟩, w₅, hcommit, hend⟩ := run_bind_eq_ok.mp hcommit
        cases hend
        have hW : session.Permits (fun _ => True) (World.progress w₄) :=
          permitsRepairs_progress.toPermits
        obtain ⟨-, hsame⟩ := (sameIssues_commitAt (p := True) hW index fun _ => trivial).run hcommit
          trivial ⟨rfl, rfl, Nat.le_refl _⟩ not_false
        rcases hasComplete_verifyAt hverify (CompletesNone.of_sameIssues hsame id hfirst) with
          hs | ⟨s₁, v, i, hmove, hi, hid, hcheck, hadvance, -⟩
        · exact .inl hs
        · refine .inr ⟨[], index, rest, s, 0, w, s₁, v, i, n', rfl, rfl, hmove, hi, hid, hcheck, ?_⟩
          exact run_bind_eq_ok.mpr ⟨_, _, hadvance, run_bind_eq_ok.mpr ⟨_, _, hcommit, hlater⟩⟩
    · refine .inr ⟨index :: before, k, after, s₃, if counts then n₃ + 1 else n₃, w₃, s₄, v, i, m,
        by rw [hplaces, List.cons_append], ?_, hrest⟩
      exact run_bind_eq_ok.mpr ⟨_, _, hstep, run_bind_eq_ok.mpr ⟨_, _, hbefore, rfl⟩⟩

/-! ## After a check -/

section Rest

variable {r : Route} {K : FileTree → Prop} {v : World} {slug : String}

/-- What follows a check is permitted in sight of a route at which the store does not write. -/
theorem permits_spared (hspares : session.store.Spares v.here slug r) (hnew : TakesNew r K) :
    session.Permits (fun identity => identity.2 = slug) (World.sight r K v) :=
  permits_sight hnew (.inr fun _ hidentity =>
    isUnguarded_of_ne (hidentity ▸ hspares Store.logName (by decide)))

theorem sees_save_spared {p : Prop} (hspares : session.store.Spares v.here slug r)
    (hnew : TakesNew r K) {t : Snapshot} (ht : p → t.slug = slug) :
    Keeps (World.sight r K v) p (session.store.save t) fun _ => True := by
  refine sees_save hnew.restsOn (sees_makeDirectories hnew.restsOn fun _ => .inl hnew) ?_ ?_ ?_
  · intro hp
    rw [snapshotPath, Path.entry_append rfl rfl, ht hp]
    exact isUnguarded_of_ne (hspares _ (by decide))
  · intro hp
    rw [snapshotPath, Path.entry_append rfl rfl, ht hp]
    exact hspares _ (by decide)
  · intro hp
    rw [ht hp]
    exact hspares _ (by decide)

/-- A file that a step leaves in sight is read after it as it was before. -/
theorem readText_of_keeps {α : Type} {act : Act α} {a : α} {file : Path} {text : String}
    (hread : v.files.readText v.here file = .ok text)
    (hact : ∀ K, TakesNew (file.routeFrom v.here) K →
      Keeps (World.sight (file.routeFrom v.here) K v) True act fun _ => True)
    (hrun : act v = (.ok a, w')) (hclean : ¬World.Meddled (file.routeFrom v.here) v w'.calls) :
    w'.files.readText w'.here file = .ok text := by
  obtain ⟨content, hcontent⟩ := holdsAt_of_readText hread
  obtain ⟨hsees, -⟩ := (hact _ (takesNew_holdsAt v.here file content)).run hrun trivial
    (.refl hcontent) hclean
  rw [hsees.here, hcontent.readText_eq hsees.files]
  exact hread

/-- What follows the check of one issue leaves in sight what lies where the store does not write. -/
theorem sees_afterCheck {s : Snapshot} (hspares : session.store.Spares v.here s.slug r)
    (hnew : TakesNew r K) (k : Nat) (name : String) :
    Keeps (World.sight r K v) True (do
      let t ← session.advance k .complete s
      let (t, _) ← session.commitIssue name t
      session.store.save t) fun _ => True := by
  have hW := permits_spared hspares hnew
  refine (changedAt_advance hW k .complete fun _ => rfl).bind fun t => ?_
  refine (sameIssues_commitIssue hW name fun h => h.2.slug).bind fun r => ?_
  exact sees_save_spared hspares hnew fun h => h.2.slug.trans h.1.2.slug

end Rest

/-! ## Passes -/

/-- Checks keep the identity of a snapshot. -/
theorem keeps_verifySteps {lawful : String × String → Prop} {W : Watch}
    (hW : session.Permits lawful W) (places : List Nat) (s : Snapshot) :
    Keeps W (lawful s.identity) (countSteps session.verifyStep places s)
      fun r => lawful r.1.identity :=
  keeps_countSteps (P := fun _ s => lawful s.identity) (fun index _ _ =>
    (changedAt_verifyStep hW index id).weaken id fun _ hs ht => ht.identity_eq ▸ hs) places s

/-- What follows a check in a run leaves in sight what lies where the store does not write. -/
theorem sees_afterChecks {r : Route} {K : FileTree → Prop} {v : World} {s : Snapshot}
    (hspares : session.store.Spares v.here s.slug r) (hnew : TakesNew r K) (k : Nat)
    (after : List Nat) (line : String) :
    Keeps (World.sight r K v) True (do
      let r ← session.finishChecks k after s
      let t ← session.store.log line r.1
      session.store.save t) fun _ => True := by
  have hW := permits_spared hspares hnew
  have hfinished : Keeps (World.sight r K v) True (session.finishChecks k after s)
      fun r => r.1.slug = s.slug := by
    refine (changedAt_advance hW k .complete fun _ => rfl).bind fun t => ?_
    refine (sameIssues_commitAt hW k fun h => h.2.slug).bind fun r => ?_
    exact (keeps_verifySteps hW after r.1).given fun h => h.2.slug.trans h.1.2.slug
  refine hfinished.bind fun r => (hW.log _ And.right).bind fun t => ?_
  refine sees_save_spared hspares hnew ?_
  rintro ⟨h, log, rfl⟩
  exact h.2

/-- An issue that the check of one issue shows as complete was complete before, or it is that issue,
and its check has passed. -/
theorem hasComplete_verifyIssue {vid : String} {verdict : Verdict}
    (h : session.verifyIssue vid s w = (.ok (t, verdict), w')) (hcomplete : t.HasComplete id) :
    s.HasComplete id ∨ ∃ k s₁ v i, s.indexOf? vid = some k ∧
      session.advanceUnlessAt k .verifying s w = (.ok s₁, v) ∧ s₁.issues[k]? = some i ∧
      i.id = id ∧ (i.check session.settings.advisories v).1 = .ok .passed ∧
      session.advance k .complete s₁ v = (.ok t, w') ∧ verdict = .passed := by
  obtain ⟨k, w₁, hplace, h⟩ := run_bind_eq_ok.mp h
  cases hindex : s.indexOf? vid with
  | none =>
    rw [place, hindex] at hplace
    cases hplace
  | some index =>
    rw [place, hindex] at hplace
    cases hplace
    cases hi : s.issues[k]? with
    | none =>
      rw [hi] at h
      cases h
      exact .inl hcomplete
    | some i =>
      rw [hi] at h
      dsimp only at h
      split at h
      · cases h
      · rcases hasComplete_verifyAt h hcomplete with hs | ⟨s₁, v, i, hrest⟩
        · exact .inl hs
        · exact .inr ⟨k, s₁, v, i, rfl, hrest⟩

/-- An issue that a pass on one issue shows as complete was complete before, or the pass accepts
it. -/
theorem completes_verify {repository vid : String} {s₀ : Snapshot} {verdict : Verdict} {w₁ : World}
    (hload : (session.store.load (session.resolve repository) w).1 = .ok s₀)
    (hstep : session.verifyAndCommit vid s₀ w = (.ok (t, verdict), w₁))
    (hsave : session.store.save t w₁ = (.ok (), (session.perform (.verify repository vid) w).2))
    (hcomplete : t.HasComplete id) :
    s₀.HasComplete id ∨ session.Completes (.verify repository vid) w s₀.repository id := by
  have hprogress : session.Permits (fun _ => True) (World.progress w) :=
    permitsRepairs_progress.toPermits
  have hstart : World.Follows w w := ⟨rfl, rfl, Nat.le_refl _⟩
  obtain ⟨⟨t₁, verdict'⟩, w₂, hverify, hcommit⟩ := run_bind_eq_ok.mp hstep
  cases verdict' with
  | failed reason =>
    cases hcommit
    rcases hasComplete_verifyIssue hverify hcomplete with hs | ⟨_, _, _, _, -, -, -, -, -, -, hpassed⟩
    · exact .inl hs
    · cases hpassed
  | passed =>
    obtain ⟨⟨t₂, outcome⟩, w₃, hcommit, hend⟩ := run_bind_eq_ok.mp hcommit
    cases hend
    have hcommits : session.Permits (fun _ => True) (World.progress w₂) :=
      permitsRepairs_progress.toPermits
    obtain ⟨-, hsame⟩ := (sameIssues_commitIssue (p := True) hcommits vid fun _ => trivial).run
      hcommit trivial ⟨rfl, rfl, Nat.le_refl _⟩ not_false
    rcases hasComplete_verifyIssue hverify (CompletesNone.of_sameIssues hsame id hcomplete) with
      hs | ⟨k, s₁, v, i, hplace, hmove, hi, hid, hcheck, hadvance, -⟩
    · exact .inl hs
    obtain ⟨hv, hmoved⟩ := (changedAt_advanceUnlessAt (p := True) hprogress k .verifying
      fun _ => trivial).run hmove trivial hstart not_false
    obtain ⟨remedy, file, text, haccepted⟩ := Issue.check_eq_passed.mp hcheck
    refine .inr ⟨k, s₁, v, i, remedy, file, text, .verify hload hplace hmove, hi, hid,
      by rw [hmoved.repository], haccepted, fun hspares hclean => ?_⟩
    exact readText_of_keeps haccepted.read (fun K hnew => sees_afterCheck hspares hnew k vid)
      (run_bind_eq_ok.mpr ⟨_, _, hadvance, run_bind_eq_ok.mpr ⟨_, _, hcommit, hsave⟩⟩) hclean

/-- An issue that a pass of a run shows as complete was complete before, or the pass accepts it. -/
theorem completes_run {repository : String} {profile? : Option Profile} {s₀ : Snapshot}
    {w₁ : World} (hload : (session.store.load (session.resolve repository) w).1 = .ok s₀)
    (hstep : session.runStep profile? s₀ w = (.ok (t, ()), w₁))
    (hsave : session.store.save t w₁ = (.ok (), (session.perform (.run [repository] profile?) w).2))
    (hcomplete : t.HasComplete id) :
    s₀.HasComplete id ∨ session.Completes (.run [repository] profile?) w s₀.repository id := by
  have hW : session.PermitsRepairs (· = s₀.identity) (fun _ => True) (World.progress w) :=
    permitsRepairs_progress
  obtain ⟨⟨s₁, report⟩, w₂, hscan, hstep⟩ := run_bind_eq_ok.mp hstep
  obtain ⟨⟨s₂, fixed⟩, w₃, hfix, hstep⟩ := run_bind_eq_ok.mp hstep
  obtain ⟨⟨s₃, verified⟩, w₄, hverify, hstep⟩ := run_bind_eq_ok.mp hstep
  obtain ⟨t', w₅, hlog, hend⟩ := run_bind_eq_ok.mp hstep
  cases hend
  have hsteps := stepsBy_completesNone hW.toPermits
  obtain ⟨hw₂, hown₁, hscanned⟩ := (hsteps.scanSnapshot profile? fun h => h).run hscan
    rfl ⟨rfl, rfl, Nat.le_refl _⟩ not_false
  obtain ⟨hw₃, hsame, hfixed⟩ := (hsteps.fixAll hW fun h => h).run hfix hown₁ hw₂ not_false
  have hown₂ : s₂.identity = s₀.identity := hsame.trans hown₁
  have hlogged : t.issues = s₃.issues := by
    have hlogs : session.Permits (fun _ => True) (World.progress w₄) :=
      permitsRepairs_progress.toPermits
    obtain ⟨-, log, rfl⟩ := (hlogs.log (p := True) _ fun _ => trivial).run hlog trivial
      ⟨rfl, rfl, Nat.le_refl _⟩ not_false
    rfl
  have hcomplete₃ : s₃.HasComplete id := by
    obtain ⟨j, hj, hrest⟩ := hcomplete
    exact ⟨j, hlogged ▸ hj, hrest⟩
  rw [verifyAll_eq] at hverify
  rcases hasComplete_verifySteps hverify hcomplete₃ with hs | ⟨before, k, after, s₄, n₄, w₆, s₅, v,
    i, n₅, hplaces, hbefore, hmove, hi, hid, hcheck, hfinish⟩
  · exact .inl (hscanned id (hfixed id hs))
  obtain ⟨hw₆, hown₄⟩ := (keeps_verifySteps hW.toPermits before s₂).run hbefore hown₂ hw₃ not_false
  obtain ⟨hv, hmoved⟩ := (changedAt_advanceUnlessAt hW.toPermits k .verifying
    fun h => h).run hmove hown₄ hw₆ not_false
  have hown₅ : s₅.identity = s₀.identity := hmoved.identity_eq.trans hown₄
  obtain ⟨remedy, file, text, haccepted⟩ := Issue.check_eq_passed.mp hcheck
  have hscans : session.Scans repository profile? w s₁ w₂ := by
    refine ⟨report, run_bind_eq_ok.mpr ⟨s₀, w, ?_, hscan⟩⟩
    rw [run_eq_of_fst hload, Store.load_world]
  refine .inr ⟨k, s₅, v, i, remedy, file, text, .run hscans hfix hplaces hbefore hmove, hi, hid,
    by rw [show s₅.repository = s₀.repository from congrArg Prod.fst hown₅], haccepted,
    fun hspares hclean => ?_⟩
  exact readText_of_keeps haccepted.read (fun K hnew => sees_afterChecks hspares hnew k after _)
    (run_bind_eq_ok.mpr ⟨_, _, hfinish, run_bind_eq_ok.mpr ⟨_, _, hlog, hsave⟩⟩) hclean

/-! ## What a pass does to the snapshot files -/

/-- Whatever permits the session, a step takes sound snapshots to sound ones. -/
def KeepsSound {α : Type} (session : Session) (step : Snapshot → Act (Snapshot × α)) : Prop :=
  ∀ (lawful : String × String → Prop) (W : Watch), session.PermitsRepairs lawful (fun _ => True) W →
    ∀ s, Keeps W (lawful s.identity ∧ s.Sound) (step s) fun r => lawful r.1.identity ∧ r.1.Sound

/-- Every snapshot file holds a sound snapshot that belongs there. -/
abbrev OwnsAll (session : Session) (w : World) : Prop :=
  ∀ q, HoldsOwn (session.store.routeIn w.here) (fun _ => True)
    (snapshotRoute (session.store.routeIn w.here) q)
    (w.files.fileAt (snapshotRoute (session.store.routeIn w.here) q))

/-- What is loaded belongs to the repository, and it is new or in the snapshot file. -/
theorem load_of_ownsAll (hown : session.OwnsAll w) {q : String} {s₀ : Snapshot}
    (hload : (session.store.load q w).1 = .ok s₀) :
    s₀.Sound ∧ s₀.slug = slugOf s₀.repository ∧
      snapshotRoute (session.store.routeIn w.here) s₀.repository =
        snapshotRoute (session.store.routeIn w.here) q ∧
      ∀ id, s₀.HasComplete id → ShowsComplete (session.store.routeIn w.here) q id w := by
  rcases load_eq_ok hload with ⟨-, rfl⟩ | ⟨content, text, hcontent, htext, hread⟩
  · refine ⟨sound_new q, rfl, rfl, ?_⟩
    rintro id ⟨i, hi, -⟩
    cases hi
  · obtain ⟨t, ht, -, hslug, hplace, hwrite⟩ := hown q content hcontent
    have hsame : s₀.identity = t.identity := by
      rw [hwrite, fromUTF8?_toUTF8] at htext
      rw [← Option.some.inj htext] at hread
      exact identity_of_read?_write hread
    have hrepository : s₀.repository = t.repository := congrArg Prod.fst hsame
    refine ⟨?_, ?_, by rw [hrepository, hplace],
      fun id hs => ⟨content, text, s₀, hcontent, htext, hread, hs⟩⟩
    · rw [hwrite, fromUTF8?_toUTF8] at htext
      rw [← Option.some.inj htext] at hread
      exact ht.of_read? hread
    · rw [hrepository, ← hslug]
      exact congrArg Prod.snd hsame

/-- A pass leaves every snapshot file alone, or it saves what its step has made of the snapshot that
it loaded, and leaves the others alone. -/
theorem passWorld_cases {α : Type} {step : Snapshot → Act (Snapshot × α)} {q : String}
    (hstep : session.KeepsSound step) (hspares : session.settings.SparesSnapshots)
    (hown : session.OwnsAll w)
    (hclean : ¬World.Breached (IsSnapshotRoute (session.store.routeIn w.here)) w
      (session.passWorld q step w).calls) :
    (∀ r, IsSnapshotRoute (session.store.routeIn w.here) r →
      (session.passWorld q step w).files.fileAt r = w.files.fileAt r) ∨
    ∃ s₀ t a w₁, (session.store.load q w).1 = .ok s₀ ∧ step s₀ w = (.ok (t, a), w₁) ∧
      session.store.save t w₁ = (.ok (), session.passWorld q step w) ∧
      (session.passWorld q step w).files.fileAt (snapshotRoute (session.store.routeIn w.here) q) =
        some t.write.toUTF8 ∧
      ∀ r, IsSnapshotRoute (session.store.routeIn w.here) r →
        r ≠ snapshotRoute (session.store.routeIn w.here) q →
          (session.passWorld q step w).files.fileAt r = w.files.fileAt r := by
  have hstart : (session.store.guard (fun r content => content = w.files.fileAt r) w).holds w :=
    .refl fun _ _ => rfl
  have hkeeps : ∀ s₀, (session.store.load q w).1 = .ok s₀ →
      Keeps (session.store.guard (fun r content => content = w.files.fileAt r) w) True (step s₀)
        fun r => r.1.identity = s₀.identity := fun s₀ hload =>
    (hstep (· = s₀.identity) _ (permitsRepairs_guard hspares) s₀).weaken
      (fun _ => ⟨rfl, (load_of_ownsAll hown hload).1⟩) fun _ _ h => h.1
  have hends := session.passWorld_ends q step w
  generalize session.passWorld q step w = w' at hclean hends ⊢
  obtain rfl | ⟨s₀, hload, ⟨e, hrun⟩ | ⟨t, a, w₁, result, hrun, hsave⟩⟩ := hends
  · exact .inl fun _ _ => rfl
  · exact .inl ((hkeeps s₀ hload).kept hrun trivial hstart hclean).good
  · have hsaves : Keeps (session.store.guard (fun _ _ => True) w) True (session.store.save t)
        fun _ => True := keeps_save t fun _ => trivial
    obtain ⟨hguards, hidentity⟩ :=
      (hkeeps s₀ hload).run hrun trivial hstart (hsaves.clean hsave hclean)
    cases result with
    | error e =>
      refine .inl fun r hr => ?_
      rw [← hguards.here] at hr
      exact (fileAt_save_of_error hr hsave).trans (hguards.good r (hguards.here ▸ hr))
    | ok _ =>
      obtain ⟨-, hslug, hroute, -⟩ := load_of_ownsAll hown hload
      have hplace : (session.store.snapshotPath t.slug).routeFrom w.here =
          snapshotRoute (session.store.routeIn w.here) q := by
        have htslug : t.slug = s₀.slug := congrArg Prod.snd hidentity
        rw [htslug, hslug, routeFrom_snapshotPath, hroute]
      obtain ⟨-, hlookup, hothers⟩ := fileAt_of_save hguards hplace hsave hclean
      exact .inr ⟨s₀, t, a, w₁, hload, hrun, hsave, (lookup_file hlookup).2, hothers⟩

theorem Completes.congr {c : Command} {q q' : String} (h : session.Completes c w q id)
    (hroute : snapshotRoute (session.store.routeIn w.here) q =
      snapshotRoute (session.store.routeIn w.here) q') : session.Completes c w q' id := by
  obtain ⟨k, s, v, i, remedy, file, text, hchecks, hi, hid, hplace, hrest⟩ := h
  exact ⟨k, s, v, i, remedy, file, text, hchecks, hi, hid, hplace.trans hroute, hrest⟩

/-- An issue that is read as complete was stored as complete. -/
theorem hasComplete_of_read?_write (hread : Snapshot.read? s.write = some t)
    (hcomplete : t.HasComplete id) : s.HasComplete id := by
  obtain ⟨j, hj, hid, hstage⟩ := hcomplete
  obtain ⟨i, hi, hij⟩ := exists_of_forall₂ (issues_of_read?_write hread) hj
  have heq := Issue.eq_of_ofJson?_toJson hij
  exact ⟨i, hi, by rw [← hid, heq], by rw [← hstage, heq]⟩

/-- What a pass stores as complete was stored as complete before, or the pass accepts it. -/
theorem shows_of_passWorld {α : Type} {step : Snapshot → Act (Snapshot × α)} {c : Command}
    {q₀ q : String} (hstep : session.KeepsSound step) (hspares : session.settings.SparesSnapshots)
    (hown : session.OwnsAll w) (hworld : (session.perform c w).2 = session.passWorld q₀ step w)
    (hclean : ¬World.Breached (IsSnapshotRoute (session.store.routeIn w.here)) w
      (session.perform c w).2.calls)
    (hcompletes : ∀ s₀ t a w₁, (session.store.load q₀ w).1 = .ok s₀ →
      step s₀ w = (.ok (t, a), w₁) → session.store.save t w₁ = (.ok (), (session.perform c w).2) →
        t.HasComplete id → s₀.HasComplete id ∨ session.Completes c w s₀.repository id)
    (hshows : ShowsComplete (session.store.routeIn w.here) q id (session.perform c w).2) :
    ShowsComplete (session.store.routeIn w.here) q id w ∨ session.Completes c w q id := by
  obtain ⟨content, text, t', hfile, htext, hread, hcomplete⟩ := hshows
  have hsame : (session.perform c w).2.files.fileAt
      (snapshotRoute (session.store.routeIn w.here) q) =
        w.files.fileAt (snapshotRoute (session.store.routeIn w.here) q) →
      ShowsComplete (session.store.routeIn w.here) q id w := fun heq =>
    ⟨content, text, t', heq ▸ hfile, htext, hread, hcomplete⟩
  rw [hworld] at hclean hsame hfile hcompletes
  rcases passWorld_cases hstep hspares hown hclean with hkept | ⟨s₀, t, a, w₁, hload, hrun, hsave,
    hsaved, hothers⟩
  · exact .inl (hsame (hkept _ ⟨q, rfl⟩))
  by_cases hroute : snapshotRoute (session.store.routeIn w.here) q =
      snapshotRoute (session.store.routeIn w.here) q₀
  · rw [hroute, hsaved] at hfile
    rw [← Option.some.inj hfile, fromUTF8?_toUTF8] at htext
    rw [← Option.some.inj htext] at hread
    obtain ⟨-, -, hplace, hshown⟩ := load_of_ownsAll hown hload
    rcases hcompletes s₀ t a w₁ hload hrun hsave (hasComplete_of_read?_write hread hcomplete) with
      hs₀ | haccepts
    · have hbefore := hshown id hs₀
      rw [ShowsComplete, ← hroute] at hbefore
      exact .inl hbefore
    · exact .inr (haccepts.congr (hplace.trans hroute.symm))
  · exact .inl (hsame (hothers _ ⟨q, rfl⟩ hroute))

/-! ## The steps of the commands -/

theorem keepsSound_runStep (profile? : Option Profile) :
    session.KeepsSound (session.runStep profile?) := by
  intro lawful W hW s
  refine (keeps_scanSnapshot hW.toPermits profile? s).bind fun r₁ => ?_
  refine ((keeps_fixAll hW r₁.1).given And.right).bind fun r₂ => ?_
  refine ((keeps_verifyAll hW.toPermits r₂.1).given And.right).bind fun r₃ => ?_
  refine (hW.log _ fun h => h.2.1).bind fun t => Keeps.pure ?_
  rintro ⟨⟨-, hlawful, hs⟩, log, rfl⟩
  have hsame : r₃.1.SameIssues { r₃.1 with log := log } := ⟨rfl, rfl, rfl⟩
  exact ⟨hlawful, hsame.sound hs⟩

theorem keepsSound_verifyAndCommit (vid : String) :
    session.KeepsSound (session.verifyAndCommit vid) := by
  intro lawful W hW s
  refine (keeps_verifyIssue hW.toPermits vid s).bind fun r => ?_
  obtain ⟨t, verdict⟩ := r
  dsimp only
  split
  · exact ((keeps_commitIssue hW.toPermits vid t).given And.right).bind fun _ =>
      Keeps.pure And.right
  · exact Keeps.pure And.right

/-- A step that completes no issue adds none to those that are complete. -/
theorem hasComplete_of_keeps {α : Type} {step : Snapshot → Act (Snapshot × α)} {s₀ : Snapshot}
    {a : α} {w₁ : World}
    (hstep : Keeps (World.progress w) True (step s₀) fun r => s₀.CompletesNone r.1)
    (hrun : step s₀ w = (.ok (t, a), w₁)) (hcomplete : t.HasComplete id) : s₀.HasComplete id :=
  (hstep.run hrun trivial ⟨rfl, rfl, Nat.le_refl _⟩ not_false).2 id hcomplete

theorem perform_run_singleton_world (r : String) (profile? : Option Profile) (w : World) :
    (session.perform (.run [r] profile?) w).2 =
      session.passWorld (session.resolve r) (session.runStep profile?) w := by
  rw [perform_run_singleton, ← runOne_world]
  exact answer_world _ (fun _ => ()) w

/-! ## Commands -/

/-- A command leaves every snapshot where it belongs. -/
theorem ownsAll_perform (hspares : session.settings.SparesSnapshots) (hown : session.OwnsAll w)
    (c : Command)
    (hclean : ¬World.Breached (IsSnapshotRoute (session.store.routeIn w.here)) w
      (session.perform c w).2.calls) :
    World.Follows w (session.perform c w).2 ∧ session.OwnsAll (session.perform c w).2 := by
  have hcommands : session.PermitsCommands (IsOwnIdentity fun _ => True) (fun _ => True)
      (fun _ => True) (session.store.guard
        (HoldsOwn (session.store.routeIn w.here) fun _ => True) w) :=
    permitsCommands_own _ _ hspares (fun _ h => h) fun _ _ _ h _ => h
  have hguards := (keeps_perform (p := True) (c := c) hcommands fun _ _ => trivial).kept
    Prod.mk.eta.symm trivial (guard_holds hown) hclean
  refine ⟨⟨hguards.here, hguards.programs, hguards.recorded⟩, fun q => ?_⟩
  rw [hguards.here]
  exact hguards.good _ ⟨q, rfl⟩

/-- What a run over one repository stores as complete was stored as complete before, or its pass
accepts it. -/
theorem shows_of_run_singleton (hspares : session.settings.SparesSnapshots)
    (profile? : Option Profile) (r : String) {q : String} (hown : session.OwnsAll w)
    (hclean : ¬World.Breached (IsSnapshotRoute (session.store.routeIn w.here)) w
      (session.perform (.run [r] profile?) w).2.calls)
    (hshows : ShowsComplete (session.store.routeIn w.here) q id
      (session.perform (.run [r] profile?) w).2) :
    ShowsComplete (session.store.routeIn w.here) q id w ∨
      session.Completes (.run [r] profile?) w q id :=
  shows_of_passWorld (keepsSound_runStep profile?) hspares hown
    (perform_run_singleton_world r profile? w) hclean
    (fun _ _ _ _ hload hrun hsave hcomplete => completes_run hload hrun hsave hcomplete) hshows

/-- What a run stores as complete was stored as complete before, or one of its passes accepts it. -/
theorem shows_of_run (hspares : session.settings.SparesSnapshots) (profile? : Option Profile)
    (rs : List String) {q : String} (hown : session.OwnsAll w)
    (hclean : ¬World.Breached (IsSnapshotRoute (session.store.routeIn w.here)) w
      (session.perform (.run rs profile?) w).2.calls)
    (hshows : ShowsComplete (session.store.routeIn w.here) q id
      (session.perform (.run rs profile?) w).2) :
    ShowsComplete (session.store.routeIn w.here) q id w ∨
      ∃ pass ∈ session.runPasses profile? rs w, session.Completes pass.1 pass.2 q id := by
  induction rs generalizing w with
  | nil => exact .inl hshows
  | cons r rs ih =>
    have hfirst : ¬World.Breached (IsSnapshotRoute (session.store.routeIn w.here)) w
        (session.perform (.run [r] profile?) w).2.calls →
        ShowsComplete (session.store.routeIn w.here) q id
          (session.perform (.run [r] profile?) w).2 →
        ShowsComplete (session.store.routeIn w.here) q id w ∨
          ∃ pass ∈ session.runPasses profile? (r :: rs) w,
            session.Completes pass.1 pass.2 q id := fun hclean hshows =>
      (shows_of_run_singleton hspares profile? r hown hclean hshows).imp_right
        fun h => ⟨_, List.mem_cons_self, h⟩
    cases rs with
    | nil => exact hfirst hclean hshows
    | cons r' rs =>
      rw [perform_run_cons] at hclean hshows
      have hlater : ∀ pass w₁, session.perform (.run [r] profile?) w = (.ok (), w₁) →
          pass ∈ session.runPasses profile? (r' :: rs) w₁ →
            pass ∈ session.runPasses profile? (r :: r' :: rs) w := by
        intro pass w₁ hpass hmem
        rw [runPasses, hpass]
        exact List.mem_cons_of_mem _ hmem
      have hkept := ownsAll_perform hspares hown (.run [r] profile?)
      have hcommands : session.PermitsCommands (fun _ => True) (fun _ => True) (fun _ => True)
          (session.watch w) := permitsCommands_watch hspares
      generalize session.perform (.run [r] profile?) w = first at *
      obtain ⟨result, w₁⟩ := first
      cases result with
      | error e => exact hfirst hclean hshows
      | ok _ =>
        dsimp only at hfirst hclean hshows hkept
        have hclean₁ : ¬World.Breached (IsSnapshotRoute (session.store.routeIn w.here)) w
            w₁.calls :=
          (keeps_perform (p := True) hcommands fun _ _ => trivial).clean Prod.mk.eta.symm hclean
        obtain ⟨hfollows, hown₁⟩ := hkept hclean₁
        have hbase : session.store.routeIn w₁.here = session.store.routeIn w.here :=
          congrArg (routeIn · session.store) hfollows.here
        rw [← hbase] at hshows
        rcases ih hown₁ (fun hbreached => hclean (breached_mono hfollows (hbase ▸ hbreached)))
          hshows with hshown | ⟨pass, hpass, haccepts⟩
        · rw [hbase] at hshown
          exact hfirst hclean₁ hshown
        · exact .inr ⟨pass, hlater pass w₁ rfl hpass, haccepts⟩

/-- What a command stores as complete was stored as complete before, or one of its passes accepts
it. -/
theorem shows_of_perform (hspares : session.settings.SparesSnapshots) (hown : session.OwnsAll w)
    (c : Command) {q : String}
    (hclean : ¬World.Breached (IsSnapshotRoute (session.store.routeIn w.here)) w
      (session.perform c w).2.calls)
    (hshows : ShowsComplete (session.store.routeIn w.here) q id (session.perform c w).2) :
    ShowsComplete (session.store.routeIn w.here) q id w ∨
      ∃ pass ∈ session.passes c w, session.Completes pass.1 pass.2 q id := by
  have hprogress : session.PermitsRepairs (fun _ => True) (fun _ => True) (World.progress w) :=
    permitsRepairs_progress
  have hone : session.passes c w = [(c, w)] → ShowsComplete (session.store.routeIn w.here) q id w ∨
      session.Completes c w q id → ShowsComplete (session.store.routeIn w.here) q id w ∨
        ∃ pass ∈ session.passes c w, session.Completes pass.1 pass.2 q id := by
    intro hpasses h
    rw [hpasses]
    exact h.imp_right fun haccepts => ⟨_, List.mem_singleton_self _, haccepts⟩
  cases c with
  | run rs profile? => exact shows_of_run hspares profile? rs hown hclean hshows
  | scan r profile? =>
    refine hone rfl (shows_of_passWorld (fun _ _ hW => keeps_scanSnapshot hW.toPermits profile?)
      hspares hown ((perform_scan_world r profile? w).trans (onSnapshot_world r _ w)) hclean
      (fun s₀ t a w₁ _ hrun _ hcomplete => .inl (hasComplete_of_keeps ?_ hrun hcomplete)) hshows)
    exact ((stepsBy_completesNone hprogress.toPermits).scanSnapshot profile? fun h => h).weaken
      (fun h => h) fun _ _ h => h.2
  | fix r vid =>
    refine hone rfl (shows_of_passWorld (fun _ _ hW => keeps_fixIssue hW vid) hspares hown
      (perform_fix_world r vid w) hclean
      (fun s₀ t a w₁ _ hrun _ hcomplete => .inl (hasComplete_of_keeps ?_ hrun hcomplete)) hshows)
    exact ((stepsBy_completesNone hprogress.toPermits).fixIssue hprogress vid fun h => h).weaken
      (fun h => h) fun _ _ h => h.2
  | verify r vid =>
    exact hone rfl (shows_of_passWorld (keepsSound_verifyAndCommit vid) hspares hown
      (perform_verify_world r vid w) hclean
      (fun _ _ _ _ hload hrun hsave hcomplete => completes_verify hload hrun hsave hcomplete)
      hshows)
  | commit r vid =>
    refine hone rfl (shows_of_passWorld (fun _ _ hW => keeps_commitIssue hW.toPermits vid) hspares
      hown (perform_commit_world r vid w) hclean
      (fun s₀ t a w₁ _ hrun _ hcomplete => .inl (hasComplete_of_keeps ?_ hrun hcomplete)) hshows)
    exact (sameIssues_commitIssue hprogress.toPermits vid fun _ => trivial).weaken (fun h => h)
      fun _ _ h => .of_sameIssues h
  | status r? =>
    rw [perform_status_world] at hshows
    exact .inl hshows

end Session

namespace Store

open Session

variable {base : Route} {w : World}

/-- The worlds that commands reach are those that commands on any repositories reach. -/
theorem Reachable.usedBy (h : Reachable base w) : UsedBy (fun _ => True) base w := by
  induction h with
  | empty w h => exact .empty w h
  | command _ session c hbase halone ih =>
    exact ih.command session c hbase (fun _ _ => trivial) halone
  | change _ w' hfiles ih => exact ih.change w' hfiles

/-- An issue that a command stores as complete was stored as complete before, or one of the passes
of the command accepts it: when the pass checks the issue, the remedy for its weakness accepts what
its file holds, and the file holds that to the end of the pass, unless it is one that the store
keeps for the repository or a program that was started has changed it. -/
theorem Reachable.completed (h : Reachable base w) {session : Session} {c : Command}
    (hbase : session.store.routeIn w.here = base) (halone : session.LeavesSnapshots c w)
    {q id : String} (hshows : ShowsComplete base q id (session.perform c w).2) :
    ShowsComplete base q id w ∨
      ∃ pass ∈ session.passes c w, session.Completes pass.1 pass.2 q id := by
  subst hbase
  exact shows_of_perform halone.settings h.usedBy.holdsOwn c halone.not_breached hshows

/-- A run over the pinned world stores its issue as complete, which its pass accepts. -/
theorem completed_pinnedWorld :
    ShowsComplete ["s"] "/r" "001"
        (pinnedSession.perform (.run ["r"] (some .dependency)) pinnedWorld).2 ∧
      ∃ pass ∈ pinnedSession.passes (.run ["r"] (some .dependency)) pinnedWorld,
        pinnedSession.Completes pass.1 pass.2 "/r" "001" := by
  have hcheck : comesTo (pinnedSession.run ["r"] (some .dependency)) pinnedWorld
      (fun ts _ => ts.length == 1 && ts.all fun t => decide (t.IsStorable ∧ t.slug = "r" ∧
        ∃ i ∈ t.issues, i.id = "001" ∧ i.stage = .complete)) = true := by
    decide +kernel
  obtain ⟨ts, w', hrun, hcheck⟩ := exists_of_comesTo hcheck
  obtain ⟨hone, hcheck⟩ := Bool.and_eq_true_iff.mp hcheck
  obtain ⟨t, rfl⟩ := List.length_eq_one_iff.mp (beq_iff_eq.mp hone)
  obtain ⟨hstorable, hslug, hcomplete⟩ :=
    of_decide_eq_true (List.all_eq_true.mp hcheck t List.mem_cons_self)
  have hworld : (pinnedSession.perform (.run ["r"] (some .dependency)) pinnedWorld).2 = w' :=
    (answer_world (pinnedSession.run ["r"] (some .dependency)) _ _).trans (congrArg Prod.snd hrun)
  have hhere : w'.here = [] := hworld ▸ (guards_pinnedWorld _).here
  obtain ⟨_, _, _, _, _, _, _, _, _, _, -, -, -, -, hsave⟩ := run_eq_ok hrun
  have hfile := (lookup_file (lookup_save hsave)).2
  have hroute : (pinnedSession.store.snapshotPath t.slug).routeFrom w'.here =
      snapshotRoute ["s"] "/r" := by
    rw [hslug, hhere]
    decide
  rw [hroute] at hfile
  have hshows : ShowsComplete ["s"] "/r" "001"
      (pinnedSession.perform (.run ["r"] (some .dependency)) pinnedWorld).2 := by
    rw [hworld]
    exact ⟨_, t.write, t, hfile, fromUTF8?_toUTF8 _, read?_write_of_isStorable hstorable,
      hcomplete⟩
  refine ⟨hshows, (Reachable.completed (.empty pinnedWorld fileAt_pinnedWorld)
    routeIn_pinnedWorld (leavesSnapshots_pinnedWorld _) hshows).resolve_left ?_⟩
  rintro ⟨content, -, -, hcontent, -⟩
  rw [fileAt_pinnedWorld] at hcontent
  cases hcontent

/-- A session with an advisory on a script. -/
def nestedSession : Session :=
  { pinnedSession with settings := { Settings.default with advisories :=
      [⟨"a.js", "x==1", "e.innerHTML = 'a' + x;", "a"⟩] } }

/-- A world with a repository in another one, whose directory in the store cannot be made. -/
def nestedWorld : World :=
  { pinnedWorld with files :=
      ⟨[(["d"], .directory), (["d", "r"], .directory), (["d", "r", "a.js"], .file "x==1".toUTF8),
        (["s"], .directory), (["s", "d"], .file "".toUTF8)]⟩ }

/-- A session whose store is the root, with an advisory on the lock of a snapshot. -/
def lockedSession : Session :=
  { pinnedSession with
    settings := { Settings.default with advisories :=
      [⟨"issues.json.lock", "a==1", "a==2", "a"⟩] }
    store := ⟨⟨"/"⟩⟩ }

/-- A world in which the lock of a snapshot has a vulnerable pin. -/
def lockedWorld : World :=
  { pinnedWorld with files :=
      ⟨[(["r"], .directory), (["r", "issues.json.lock"], .file "a==1".toUTF8)]⟩ }

/-- The file of an issue that becomes complete may be written again in the same command. A run over
a repository and the one around it rewrites the file in its second pass, and a pass over one
repository writes the files of the store. -/
theorem rewritten_after_passing :
    (∃ t w₁, nestedSession.runOne (some .all) "d/r" nestedWorld = (.ok t, w₁) ∧
      ∃ i : Issue, t.issues[0]? = some i ∧ i.stage = .complete ∧
        i.file = some ⟨"/d/r/a.js"⟩ ∧
        (i.check nestedSession.settings.advisories w₁).1 = .ok .passed ∧
        ∃ w', (nestedSession.perform (.run ["d/r", "d"] (some .all)) nestedWorld).2 = w' ∧
          w'.calls = [] ∧
          w'.files.fileAt ["d", "r", "a.js"] ≠ w₁.files.fileAt ["d", "r", "a.js"]) ∧
    ∃ s₁ w₁ s₂ n w₂ t w', lockedSession.Scans "r" (some .dependency) lockedWorld s₁ w₁ ∧
      lockedSession.fixAll s₁ w₁ = (.ok (s₂, n), w₂) ∧
      lockedSession.run ["r"] (some .dependency) lockedWorld = (.ok [t], w') ∧ w'.calls = [] ∧
      ∃ i j : Issue, s₂.issues[0]? = some i ∧ i.file = some ⟨"/r/issues.json.lock"⟩ ∧
        (i.check lockedSession.settings.advisories w₂).1 = .ok .passed ∧
        t.issues[0]? = some j ∧ j.stage = .complete ∧
        w'.files.fileAt ["r", "issues.json.lock"] ≠
          w₂.files.fileAt ["r", "issues.json.lock"] := by
  constructor
  · have hpasses : comesTo (nestedSession.runOne (some .all) "d/r") nestedWorld (fun t w₁ =>
        t.issues[0]?.any (fun i : Issue => decide (i.stage = .complete ∧
          i.file = some ⟨"/d/r/a.js"⟩ ∧
          (i.check nestedSession.settings.advisories w₁).1 = .ok .passed)) &&
        decide (w₁.files.fileAt ["d", "r", "a.js"] = some "e.innerHTML = 'a' + x;".toUTF8 ∧
          (nestedSession.perform (.run ["d"] (some .all)) w₁).2.calls = [] ∧
          (nestedSession.perform (.run ["d"] (some .all)) w₁).2.files.fileAt ["d", "r", "a.js"] ≠
            some "e.innerHTML = 'a' + x;".toUTF8)) = true := by
      decide +kernel
    obtain ⟨t, w₁, hrun, hcheck⟩ := exists_of_comesTo hpasses
    obtain ⟨hissue, hworld⟩ := Bool.and_eq_true_iff.mp hcheck
    obtain ⟨i, hi, hissue⟩ := (Option.any_eq_true _ _).mp hissue
    obtain ⟨hstage, hfile, hpassed⟩ := of_decide_eq_true hissue
    obtain ⟨hcontent, hcalls, hother⟩ := of_decide_eq_true hworld
    have hfirst : nestedSession.perform (.run ["d/r"] (some .all)) nestedWorld = (.ok (), w₁) := by
      rw [perform_run_singleton]
      exact run_bind_eq_ok.mpr ⟨t, w₁, hrun, rfl⟩
    refine ⟨t, w₁, hrun, i, hi, hstage, hfile, hpassed,
      (nestedSession.perform (.run ["d"] (some .all)) w₁).2, ?_, hcalls, ?_⟩
    · rw [perform_run_cons, hfirst]
    · rw [hcontent]
      exact hother
  · have hfixed : comesTo (do
        let r ← lockedSession.store.load (lockedSession.resolve "r") >>=
          lockedSession.scanSnapshot (some .dependency)
        lockedSession.fixAll r.1) lockedWorld (fun r w₂ =>
        r.1.issues[0]?.any (fun i : Issue => decide (i.file = some ⟨"/r/issues.json.lock"⟩ ∧
          (i.check lockedSession.settings.advisories w₂).1 = .ok .passed)) &&
        decide (w₂.files.fileAt ["r", "issues.json.lock"] = some "a==2".toUTF8)) = true := by
      decide +kernel
    have hended : comesTo (lockedSession.run ["r"] (some .dependency)) lockedWorld (fun ts w' =>
        endsWith 0 (fun j => decide (j.stage = .complete)) ts && decide (w'.calls = [] ∧
          w'.files.fileAt ["r", "issues.json.lock"] = some "".toUTF8)) = true := by
      decide +kernel
    obtain ⟨⟨s₂, n⟩, w₂, hfix, hcheck⟩ := exists_of_comesTo hfixed
    obtain ⟨⟨s₁, report⟩, w₁, hscan, hfix⟩ := run_bind_eq_ok.mp hfix
    obtain ⟨hissue, hcontent⟩ := Bool.and_eq_true_iff.mp hcheck
    obtain ⟨i, hi, hissue⟩ := (Option.any_eq_true _ _).mp hissue
    obtain ⟨hfile, hpassed⟩ := of_decide_eq_true hissue
    obtain ⟨ts, w', hrun, hcheck⟩ := exists_of_comesTo hended
    obtain ⟨hends, hworld⟩ := Bool.and_eq_true_iff.mp hcheck
    obtain ⟨t, j, rfl, hj, hcomplete⟩ := exists_of_endsWith hends
    obtain ⟨hcalls, hother⟩ := of_decide_eq_true hworld
    refine ⟨s₁, w₁, s₂, n, w₂, t, w', ⟨report, hscan⟩, hfix, hrun, hcalls, i, j, hi, hfile,
      hpassed, hj, of_decide_eq_true hcomplete, ?_⟩
    rw [hother, of_decide_eq_true hcontent]
    decide

end Store

end RepoAudit
