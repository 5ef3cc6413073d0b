import RepoAudit.Proofs.Pipeline
import RepoAudit.Proofs.Session.Evolution
import RepoAudit.Proofs.Store.Presence
import RepoAudit.Proofs.World.Course

/-!
# Successive snapshots

A pass loads the snapshot of a repository, takes its steps and saves. Between loading and saving no
snapshot file is written, so what is saved comes from what was in the file. Over a sequence of
commands the snapshots of a repository therefore follow one another, each evolved from the one
before.

## Main definitions

- `Store.Holds` — the store holds a snapshot where a repository has its own
- `Store.FindsAll` — the stored snapshots are found by their paths
- `Session.Takes` — what a step makes of a snapshot
- `Store.Leads` — the worlds that commands lead to

## Main statements

- `Store.Leads.evolves` — the stored snapshots evolve
-/

namespace RepoAudit

open Act Snapshot FileTree

namespace Store

/-- The store at a route holds a snapshot where a repository has its own. -/
structure Holds (base : Route) (q : String) (s : Snapshot) (w : World) : Prop where
  /-- It is sound. -/
  sound : s.Sound
  /-- Its instants are days of the calendar. -/
  dated : s.IsDated
  /-- It belongs there. -/
  route : snapshotRoute base s.repository = snapshotRoute base q
  /-- The file holds its text. -/
  file : w.files.fileAt (snapshotRoute base q) = some s.write.toUTF8

/-- Every snapshot in a store is found by its path. -/
def FindsAll (st : Store) (w : World) : Prop :=
  ∀ q content, w.files.fileAt (snapshotRoute (st.routeIn w.here) q) = some content →
    w.files.isPresent w.here (st.snapshotPath (slugOf q))

/-- Every snapshot file holds a snapshot that belongs there. -/
def HoldsAll (base : Route) (w : World) : Prop :=
  ∀ q content, w.files.fileAt (snapshotRoute base q) = some content → ∃ s, Holds base q s w

/-! ## Loading -/

variable {st : Store} {w w' : World}

/-- What is loaded belongs to the repository, and has the issues of the snapshot that is held. -/
theorem load_of_holdsAll {q : String} {s₀ : Snapshot} (hholds : HoldsAll (st.routeIn w.here) w)
    (hfinds : st.FindsAll w) (hload : (st.load q w).1 = .ok s₀) :
    s₀.Sound ∧ s₀.IsDated ∧
      snapshotRoute (st.routeIn w.here) s₀.repository = snapshotRoute (st.routeIn w.here) q ∧
      ∀ s, Holds (st.routeIn w.here) q s w → s.SameIssues s₀ := by
  rcases load_eq_ok hload with ⟨habsent, rfl⟩ | ⟨content, text, hcontent, htext, hread⟩
  · refine ⟨sound_new q, isDated_new q, rfl, fun s hs => ?_⟩
    exact (habsent (hfinds q _ hs.file)).elim
  · have hsame : ∀ s, Holds (st.routeIn w.here) q s w → s.SameIssues s₀ ∧ s₀.Sound := by
      intro s hs
      rw [Option.some.inj (hcontent.symm.trans hs.file), fromUTF8?_toUTF8] at htext
      rw [← Option.some.inj htext] at hread
      exact ⟨sameIssues_of_read?_write hs.sound.toTracked hs.dated hread, hs.sound.of_read? hread⟩
    obtain ⟨s, hs⟩ := hholds q content hcontent
    obtain ⟨hissues, hsound⟩ := hsame s hs
    refine ⟨hsound, (Evolves.of_sameIssues hissues).dated hs.dated, ?_,
      fun s' hs' => (hsame s' hs').1⟩
    rw [hissues.repository]
    exact hs.route

/-- Where the snapshot files and the directories have stayed, snapshots are held and found. -/
theorem holds_congr {base : Route} {q : String} {s : Snapshot}
    (hfile : w'.files.fileAt (snapshotRoute base q) = w.files.fileAt (snapshotRoute base q))
    (h : Holds base q s w) : Holds base q s w' :=
  ⟨h.sound, h.dated, h.route, hfile.trans h.file⟩

theorem isPresent_of_grows {q : String} {content : ByteArray} (hhere : w'.here = w.here)
    (hgrows : Grows w.files w'.files)
    (hfile' : w'.files.fileAt (snapshotRoute (st.routeIn w.here) q) = some content)
    (hfile : w.files.fileAt (snapshotRoute (st.routeIn w.here) q) = some content)
    (h : w.files.isPresent w.here (st.snapshotPath (slugOf q))) :
    w'.files.isPresent w'.here (st.snapshotPath (slugOf q)) := by
  obtain ⟨found, hfound⟩ := exists_lookup_of_isPresent h
  rw [hhere]
  have hlookup : w'.files.lookup w.here (st.snapshotPath (slugOf q)) = .ok found := by
    refine hgrows.lookup_eq_ok ?_ hfound
    rw [routeFrom_snapshotPath, node?_of_fileAt hfile, node?_of_fileAt hfile']
  exact isPresent_of_lookup hlookup

end Store

/-- A step changes nothing in the world. -/
def Act.Looks {α : Type} (act : Act α) : Prop :=
  ∀ w, (act w).2 = w

namespace Act.Looks

theorem pure {α : Type} (a : α) : Looks (Pure.pure a : Act α) :=
  fun _ => rfl

theorem bind {α β : Type} {act : Act α} {f : α → Act β} (h : act.Looks) (hf : ∀ a, (f a).Looks) :
    (act >>= f).Looks := by
  intro w
  have hw := h w
  rw [run_bind]
  generalize act w = run at hw
  obtain ⟨result, w'⟩ := run
  subst hw
  cases result with
  | error e => rfl
  | ok a => exact hf a _

end Act.Looks

namespace Session

open Store

variable {session : Session} {start w w' : World} {p : Prop}

/-! ## A pass over one repository -/

theorem permitsRepairs_course {lawful : String × String → Prop} :
    session.PermitsRepairs lawful (fun _ => True) (World.course start) where
  numbers := fun _ => trivial
  letsStart := fun _ => course_start
  now := fun _ => course_now.weaken id fun _ _ _ => trivial
  makeDirectory := fun _ _ _ => course_makeDirectories _
  appendLog := fun _ _ _ _ => course_change fun _ _ _ => Grows.of_change
  makeCopies := fun _ _ _ _ => course_makeDirectories _
  writeSource := fun _ _ _ _ _ => course_change fun _ _ _ => Grows.of_change
  writeArtifact := fun _ _ _ _ _ _ => course_change fun _ _ _ => Grows.of_change

theorem course_save (s : Snapshot) :
    Keeps (World.course start) p (session.store.save s) fun _ => True := by
  refine (Keeps.orRefused _ _ (course_makeDirectories _)).bind fun _ => ?_
  refine (Keeps.orRefused _ _ (course_change fun _ _ _ => Grows.of_change)).bind fun _ => ?_
  refine (Keeps.orRefused _ _ (course_change fun _ _ _ => Grows.of_change)).bind fun _ => ?_
  exact Keeps.orRefused _ _ (course_change fun _ _ _ => Grows.of_rename)

/-- The watch over a pass: no snapshot file is touched, and the directories stay. -/
def passWatch (session : Session) (start : World) : Watch :=
  (session.store.guard (fun r content => content = start.files.fileAt r) start).inter
    (World.course start)

theorem holds_passWatch (session : Session) (w : World) : (session.passWatch w).holds w :=
  ⟨.refl fun _ _ => rfl, .refl _, rfl⟩

theorem permitsRepairs_passWatch {lawful : String × String → Prop}
    (hspares : session.settings.SparesSnapshots) :
    session.PermitsRepairs lawful (fun _ => True) (session.passWatch start) :=
  (permitsRepairs_guard hspares).inter permitsRepairs_course

theorem showsDays_passWatch (hdays : start.ShowsDays) : (session.passWatch start).ShowsDays := by
  refine fun p => (keeps_now.inter course_now).weaken id ?_
  rintro _ - ⟨-, n, rfl⟩
  exact hdays n

/-- Whatever permits the session and sees the clock show days of the calendar, a step takes sound
snapshots to sound ones, each evolved from the one before in a certain way. -/
def Takes {α : Type} (session : Session) (step : Snapshot → Act (Snapshot × α))
    (E : Snapshot → Snapshot → Prop) : Prop :=
  ∀ (lawful : String × String → Prop) (W : Watch), session.PermitsRepairs lawful (fun _ => True) W →
    W.ShowsDays → ∀ s, Keeps W (lawful s.identity ∧ s.Sound) (step s)
      fun r => lawful r.1.identity ∧ r.1.Sound ∧ s.Evolves r.1 ∧ E s r.1

/-- The world after a pass: a snapshot is loaded, changed and saved, unless something fails. -/
def passWorld {α : Type} (session : Session) (q : String) (step : Snapshot → Act (Snapshot × α))
    (w : World) : World :=
  match (session.store.load q w).1 with
  | .error _ => w
  | .ok s =>
    match step s w with
    | (.error _, w₁) => w₁
    | (.ok r, w₁) => (session.store.save r.1 w₁).2

/-- A pass ends where it started, where its step failed or where its save came to. -/
theorem passWorld_ends {α : Type} (session : Session) (q : String)
    (step : Snapshot → Act (Snapshot × α)) (w : World) :
    session.passWorld q step w = w ∨
      ∃ s, (session.store.load q w).1 = .ok s ∧
        ((∃ e, step s w = (.error e, session.passWorld q step w)) ∨
          ∃ t a w₁ result, step s w = (.ok (t, a), w₁) ∧
            session.store.save t w₁ = (result, session.passWorld q step w)) := by
  unfold passWorld
  split
  · exact .inl rfl
  · next s hload =>
    refine .inr ⟨s, hload, ?_⟩
    generalize step s w = run
    obtain ⟨⟨⟩ | ⟨t, a⟩, w₁⟩ := run
    · exact .inl ⟨_, rfl⟩
    · exact .inr ⟨t, a, w₁, _, rfl, Prod.mk.eta.symm⟩

/-- The stored snapshots of a world were succeeded by those of another one. -/
structure Succeeds (session : Session) (E : Snapshot → Snapshot → Prop) (w w' : World) : Prop where
  /-- The one world was reached from the other. -/
  follows : World.Follows w w'
  /-- The clock is the same. -/
  clock : w'.clock = w.clock
  /-- Every snapshot belongs where it is. -/
  holdsAll : HoldsAll (session.store.routeIn w.here) w'
  /-- Every snapshot is found. -/
  findsAll : session.store.FindsAll w'
  /-- Every snapshot has evolved. -/
  evolves : ∀ q s, Holds (session.store.routeIn w.here) q s w →
    ∃ t, Holds (session.store.routeIn w.here) q t w' ∧ s.Evolves t ∧ E s t

variable {E : Snapshot → Snapshot → Prop}

/-- Where no snapshot file was touched, nothing has changed. -/
theorem succeeds_of_passWatch (hE : ∀ s, E s s)
    (hholds : HoldsAll (session.store.routeIn w.here) w) (hfinds : session.store.FindsAll w)
    (hw' : (session.passWatch w).holds w') : session.Succeeds E w w' := by
  obtain ⟨hguards, hgrows, hclock⟩ := hw'
  have hfile : ∀ q, w'.files.fileAt (snapshotRoute (session.store.routeIn w.here) q) =
      w.files.fileAt (snapshotRoute (session.store.routeIn w.here) q) :=
    fun q => World.Guards.good hguards _ ⟨q, rfl⟩
  refine ⟨⟨hguards.here, hguards.programs, hguards.recorded⟩, hclock, fun q content hcontent => ?_,
    fun q content hcontent => ?_, fun q s hs => ⟨s, holds_congr (hfile q) hs, .refl s, hE s⟩⟩
  · obtain ⟨s, hs⟩ := hholds q content ((hfile q).symm.trans hcontent)
    exact ⟨s, holds_congr (hfile q) hs⟩
  · rw [hguards.here] at hcontent
    have hbefore := (hfile q).symm.trans hcontent
    exact isPresent_of_grows hguards.here hgrows hcontent hbefore (hfinds q content hbefore)

/-- A save leaves the text of its snapshot where that belongs, and the other snapshots alone. -/
theorem fileAt_of_save {t : Snapshot} {w₁ : World} {r₀ : Route}
    (hw₁ : (session.store.guard (fun r content => content = w.files.fileAt r) w).holds w₁)
    (hplace : (session.store.snapshotPath t.slug).routeFrom w.here = r₀)
    (hsave : session.store.save t w₁ = (.ok (), w'))
    (hclean : ¬World.Breached (IsSnapshotRoute (session.store.routeIn w.here)) w w'.calls) :
    World.Follows w w' ∧
      w'.files.lookup w.here (session.store.snapshotPath t.slug) =
        .ok (r₀, .file t.write.toUTF8) ∧
      ∀ r, IsSnapshotRoute (session.store.routeIn w.here) r → r ≠ r₀ →
        w'.files.fileAt r = w.files.fileAt r := by
  have hguards₁ : (session.store.guard (fun r content => r = r₀ ∨ content = w.files.fileAt r)
      w).holds w₁ :=
    ⟨hw₁.here, hw₁.programs, hw₁.spared, hw₁.recorded, fun r hr => .inr (hw₁.good r hr)⟩
  have hkeeps : Keeps (session.store.guard (fun r content => r = r₀ ∨ content = w.files.fileAt r) w)
      True (session.store.save t) fun _ => True := keeps_save t fun _ => .inl hplace
  obtain ⟨hguards', -⟩ := hkeeps.run hsave trivial hguards₁ hclean
  have hlookup := lookup_save hsave
  rw [hguards'.here, hplace] at hlookup
  exact ⟨⟨hguards'.here, hguards'.programs, hguards'.recorded⟩, hlookup,
    fun r hr hne => (World.Guards.good hguards' r hr).resolve_left hne⟩

/-- A snapshot that is saved takes the place of the one that was loaded. -/
theorem succeeds_of_save {s₀ t : Snapshot} {w₁ : World} {q : String} (hE : ∀ s, E s s)
    (hcongr : ∀ s s' t, s.SameIssues s' → E s' t → E s t)
    (hholds : HoldsAll (session.store.routeIn w.here) w) (hfinds : session.store.FindsAll w)
    (hload : (session.store.load q w).1 = .ok s₀) (hw₁ : (session.passWatch w).holds w₁)
    (ht : t.Sound) (hevolves : s₀.Evolves t) (hstep : E s₀ t)
    (hsave : session.store.save t w₁ = (.ok (), w'))
    (hclean : ¬World.Breached (IsSnapshotRoute (session.store.routeIn w.here)) w w'.calls) :
    session.Succeeds E w w' := by
  obtain ⟨hs₀, hdated, hroute, hloaded⟩ := load_of_holdsAll hholds hfinds hload
  obtain ⟨hguards, hcourse⟩ := hw₁
  have hrepository : t.repository = s₀.repository := congrArg Prod.fst hevolves.identity
  have hplace : (session.store.snapshotPath t.slug).routeFrom w.here =
      snapshotRoute (session.store.routeIn w.here) q := by
    rw [ht.named, routeFrom_snapshotPath, hrepository, hroute]
  obtain ⟨hfollows, hlookup, hothers⟩ := fileAt_of_save hguards hplace hsave hclean
  obtain ⟨⟨hgrows, hclock⟩, -⟩ := (course_save t).run hsave trivial hcourse id
  have hhere : w'.here = w.here := hfollows.here
  have hsaved : Holds (session.store.routeIn w.here) q t w' :=
    ⟨ht, hevolves.dated hdated, by rw [hrepository, hroute], (lookup_file hlookup).2⟩
  have hpresent : w'.files.isPresent w.here (session.store.snapshotPath (slugOf t.repository)) := by
    rw [← ht.named]
    exact isPresent_of_lookup hlookup
  -- Repositories with one place share their snapshot; all other places are as they were.
  have hplaces : ∀ q', (snapshotRoute (session.store.routeIn w.here) q' =
      snapshotRoute (session.store.routeIn w.here) q ∧
        Holds (session.store.routeIn w.here) q' t w') ∨
      w'.files.fileAt (snapshotRoute (session.store.routeIn w.here) q') =
        w.files.fileAt (snapshotRoute (session.store.routeIn w.here) q') := by
    intro q'
    by_cases heq : snapshotRoute (session.store.routeIn w.here) q' =
        snapshotRoute (session.store.routeIn w.here) q
    · refine .inl ⟨heq, hsaved.sound, hsaved.dated, hsaved.route.trans heq.symm, ?_⟩
      rw [heq]
      exact hsaved.file
    · exact .inr (hothers _ ⟨q', rfl⟩ heq)
  refine ⟨hfollows, hclock, fun q' content hcontent => ?_, fun q' content hcontent => ?_,
    fun q' s hs => ?_⟩
  · obtain ⟨-, hheld⟩ | hsame := hplaces q'
    · exact ⟨t, hheld⟩
    · obtain ⟨s, hs⟩ := hholds q' content (hsame.symm.trans hcontent)
      exact ⟨s, holds_congr hsame hs⟩
  · rw [hhere] at hcontent ⊢
    obtain ⟨heq, -⟩ | hsame := hplaces q'
    · exact isPresent_congr (hsaved.route.trans heq.symm) hcontent hpresent
    · have hbefore := hsame.symm.trans hcontent
      have h := isPresent_of_grows hhere hgrows hcontent hbefore (hfinds q' content hbefore)
      rwa [hhere] at h
  · obtain ⟨heq, hheld⟩ | hsame := hplaces q'
    · have hfile := hs.file
      rw [heq] at hfile
      have hissues := hloaded s ⟨hs.sound, hs.dated, hs.route.trans heq, hfile⟩
      exact ⟨t, hheld, (Evolves.of_sameIssues hissues).trans hevolves, hcongr s s₀ t hissues hstep⟩
    · exact ⟨s, holds_congr hsame hs, .refl s, hE s⟩

/-- A save that fails has touched no snapshot. -/
theorem holds_passWatch_of_error {t : Snapshot} {w₁ : World} {e : Failure}
    (hw₁ : (session.passWatch w).holds w₁) (hsave : session.store.save t w₁ = (.error e, w'))
    (hclean : ¬World.Breached (IsSnapshotRoute (session.store.routeIn w.here)) w w'.calls) :
    (session.passWatch w).holds w' := by
  obtain ⟨hguards, hcourse⟩ := hw₁
  have hkeeps : Keeps (session.store.guard (fun _ _ => True) w) True (session.store.save t)
      fun _ => True := keeps_save t fun _ => trivial
  have hguards' := hkeeps.kept hsave trivial
    ⟨hguards.here, hguards.programs, hguards.spared, hguards.recorded, fun _ _ => trivial⟩ hclean
  refine ⟨⟨hguards'.here, hguards'.programs, hguards'.spared, hguards'.recorded, fun r hr => ?_⟩,
    (course_save t).kept (p := True) hsave trivial hcourse id⟩
  have hsame := fileAt_save_of_error (hguards.here ▸ hr) hsave
  exact hsame.trans (hguards.good r hr)

/-- After a pass the stored snapshots have evolved. -/
theorem succeeds_passWorld {α : Type} {step : Snapshot → Act (Snapshot × α)}
    (htakes : session.Takes step E) (hE : ∀ s, E s s)
    (hcongr : ∀ s s' t, s.SameIssues s' → E s' t → E s t)
    (hspares : session.settings.SparesSnapshots) (hdays : w.ShowsDays)
    (hholds : HoldsAll (session.store.routeIn w.here) w) (hfinds : session.store.FindsAll w)
    (q : String)
    (hclean : ¬World.Breached (IsSnapshotRoute (session.store.routeIn w.here)) w
      (session.passWorld q step w).calls) :
    session.Succeeds E w (session.passWorld q step w) := by
  have hstart := session.holds_passWatch w
  have hexcuses : ∀ calls, (session.passWatch w).excuses calls →
      World.Breached (IsSnapshotRoute (session.store.routeIn w.here)) w calls :=
    fun _ h => h.resolve_right id
  have hkeeps : ∀ s₀, (session.store.load q w).1 = .ok s₀ → Keeps (session.passWatch w) True
      (step s₀) fun r => r.1.Sound ∧ s₀.Evolves r.1 ∧ E s₀ r.1 := fun s₀ hload =>
    (htakes (· = s₀.identity) _ (permitsRepairs_passWatch hspares) (showsDays_passWatch hdays)
      s₀).weaken (fun _ => ⟨rfl, (load_of_holdsAll hholds hfinds hload).1⟩) fun _ _ h => h.2
  have hends := session.passWorld_ends q step w
  generalize session.passWorld q step w = w' at hclean hends ⊢
  obtain rfl | ⟨s₀, hload, ⟨e, hrun⟩ | ⟨t, a, w₁, result, hrun, hsave⟩⟩ := hends
  · exact succeeds_of_passWatch hE hholds hfinds hstart
  · exact succeeds_of_passWatch hE hholds hfinds
      ((hkeeps s₀ hload).kept hrun trivial hstart fun h => hclean (hexcuses _ h))
  · have hsaves : Keeps (session.store.guard (fun _ _ => True) w) True (session.store.save t)
        fun _ => True := keeps_save t fun _ => trivial
    have hclean₁ := hsaves.clean hsave hclean
    obtain ⟨hw₁, hsound, hevolves, hstep⟩ :=
      (hkeeps s₀ hload).run hrun trivial hstart fun h => hclean₁ (hexcuses _ h)
    cases result with
    | error e =>
      exact succeeds_of_passWatch hE hholds hfinds (holds_passWatch_of_error hw₁ hsave hclean)
    | ok _ =>
      exact succeeds_of_save hE hcongr hholds hfinds hload hw₁ hsound hevolves hstep hsave hclean

/-! ## The steps of the commands -/

theorem takes_scanSnapshot (profile? : Option Profile) :
    session.Takes (session.scanSnapshot profile?) fun _ _ => True := by
  intro lawful W hW hdays s
  refine ((keeps_scanSnapshot hW.toPermits profile? s).and
    ((stepsBy_evolves hW.toPermits hdays).scanSnapshot profile? And.left)).weaken id ?_
  rintro r - ⟨⟨hlawful, hsound⟩, hevolves⟩
  exact ⟨hlawful, hsound, hevolves, trivial⟩

theorem takes_fixIssue (id : String) : session.Takes (session.fixIssue id) (LeavesOthers id) := by
  intro lawful W hW hdays s
  refine ((keeps_fixIssue hW id s).and (((stepsBy_evolves hW.toPermits hdays).fixIssue hW id
    And.left).and (leavesOthers_fixIssue hW id And.left))).weaken (fun h => h) ?_
  rintro r - ⟨⟨hlawful, hsound⟩, hevolves, hothers⟩
  exact ⟨hlawful, hsound, hevolves, hothers⟩

theorem takes_verifyIssue (id : String) :
    session.Takes (session.verifyIssue id) (LeavesOthers id) := by
  intro lawful W hW hdays s
  refine ((keeps_verifyIssue hW.toPermits id s).and
    (((stepsBy_evolves hW.toPermits hdays).verifyIssue trivial id And.left).and
      (leavesOthers_verifyIssue hW.toPermits id And.left))).weaken (fun h => h) ?_
  rintro r - ⟨⟨hlawful, hsound⟩, hevolves, hothers⟩
  exact ⟨hlawful, hsound, hevolves, hothers⟩

theorem takes_commitIssue (id : String) :
    session.Takes (session.commitIssue id) SameIssues := by
  intro lawful W hW hdays s
  refine ((keeps_commitIssue hW.toPermits id s).and
    (sameIssues_commitIssue hW.toPermits id And.left)).weaken (fun h => h) ?_
  rintro r - ⟨⟨hlawful, hsound⟩, hsame⟩
  exact ⟨hlawful, hsound, .of_sameIssues hsame, hsame⟩

/-- Checking one issue, and committing it if it passes. -/
def verifyAndCommit (session : Session) (id : String) (s : Snapshot) :
    Act (Snapshot × Verdict) := do
  let (s, verdict) ← session.verifyIssue id s
  if verdict.isPassed then pure ((← session.commitIssue id s).1, verdict) else pure (s, verdict)

theorem takes_verifyAndCommit (id : String) :
    session.Takes (session.verifyAndCommit id) (LeavesOthers id) := by
  intro lawful W hW hdays s
  refine (takes_verifyIssue id lawful W hW hdays s).bind fun r => ?_
  obtain ⟨t, verdict⟩ := r
  dsimp only
  split
  · refine ((takes_commitIssue id lawful W hW hdays t).given fun h => ⟨h.2.1, h.2.2.1⟩).bind
      fun r => Keeps.pure ?_
    rintro ⟨⟨-, -, -, hevolves, hothers⟩, hlawful, hsound, hevolves', hsame⟩
    exact ⟨hlawful, hsound, hevolves.trans hevolves', hothers.andSame hsame⟩
  · exact Keeps.pure And.right

/-- What a run does with a snapshot between loading and saving it. -/
def runStep (session : Session) (profile? : Option Profile) (s : Snapshot) :
    Act (Snapshot × Unit) := do
  let (s, report) ← session.scanSnapshot profile? s
  let (s, fixed) ← session.fixAll s
  let (s, verified) ← session.verifyAll s
  let s ← session.store.log (runLine report fixed verified) s
  pure (s, ())

theorem takes_runStep (profile? : Option Profile) :
    session.Takes (session.runStep profile?) fun _ _ => True := by
  intro lawful W hW hdays s
  refine (takes_scanSnapshot profile? lawful W hW hdays s).bind fun r₁ => ?_
  have hsteps := stepsBy_evolves hW.toPermits hdays
  refine (((keeps_fixAll hW r₁.1).and (hsteps.fixAll hW And.left)).given
    fun h => ⟨h.2.1, h.2.2.1⟩).bind fun r₂ => ?_
  refine (((keeps_verifyAll hW.toPermits r₂.1).and (hsteps.verifyAll trivial And.left)).given
    fun h => h.2.1).bind fun r₃ => ?_
  refine (hW.log _ fun h => h.2.1.1).bind fun t => Keeps.pure ?_
  rintro ⟨⟨⟨⟨-, -, -, h₁, -⟩, -, h₂⟩, ⟨hlawful, hsound⟩, h₃⟩, log, rfl⟩
  have hlogged : r₃.1.SameIssues { r₃.1 with log := log } := ⟨rfl, rfl, rfl⟩
  exact ⟨hlawful, hlogged.sound hsound, ((h₁.trans h₂).trans h₃).trans (.of_sameIssues hlogged),
    trivial⟩

/-! ## The worlds after the commands -/

theorem mapFailure_world {α : Type} (f : Failure → Failure) (act : Act α) (w : World) :
    (Act.mapFailure f act w).2 = (act w).2 := by
  rw [Act.mapFailure]
  cases act w with
  | mk result w' => cases result <;> rfl

/-- What loads, takes a step and saves ends in the world after the pass. -/
theorem passWorld_eq {α β : Type} (q : String) (step : Snapshot → Act (Snapshot × α))
    {finish : Snapshot → Act Unit} (hfinish : ∀ t w, (finish t w).2 = (session.store.save t w).2)
    (answer : Snapshot × α → β) (w : World) :
    ((do
      let r ← step (← session.store.load q)
      finish r.1
      pure (answer r) : Act β) w).2 = session.passWorld q step w := by
  have hworld := session.store.load_world q w
  rw [run_bind]
  unfold passWorld
  generalize session.store.load q w = loaded at hworld
  obtain ⟨result, w₁⟩ := loaded
  subst hworld
  cases result with
  | error e => rfl
  | ok s =>
    dsimp only
    rw [run_bind]
    generalize step s _ = stepped
    obtain ⟨result, w₂⟩ := stepped
    cases result with
    | error e => rfl
    | ok r =>
      dsimp only
      rw [run_bind, ← hfinish]
      generalize finish r.1 w₂ = saved
      obtain ⟨result, w₃⟩ := saved
      cases result <;> rfl

theorem runOne_world (profile? : Option Profile) (repository : String) (w : World) :
    (session.runOne profile? repository w).2 =
      session.passWorld (session.resolve repository) (session.runStep profile?) w := by
  have hsave : ∀ t w, (Act.mapFailure (.notSaved (session.resolve repository))
      (session.store.save t) w).2 = (session.store.save t w).2 :=
    fun t w => mapFailure_world _ _ w
  rw [← passWorld_eq _ _ hsave Prod.fst]
  simp only [runOne, runStep, bind_assoc, pure_bind]

theorem onSnapshot_world {α : Type} (repository : String) (step : Snapshot → Act (Snapshot × α))
    (w : World) :
    (session.onSnapshot repository step w).2 =
      session.passWorld (session.resolve repository) step w :=
  passWorld_eq _ step (fun _ _ => rfl) (fun r => r) w

/-- What is answered in the end does not matter to the world. -/
theorem answer_world {α β : Type} (act : Act α) (answer : α → β) (w : World) :
    ((act >>= fun a => pure (answer a) : Act β) w).2 = (act w).2 := by
  rw [run_bind]
  generalize act w = run
  obtain ⟨result, w'⟩ := run
  cases result <;> rfl

theorem looks_loadEach (repositories : List String) : (session.loadEach repositories).Looks := by
  induction repositories with
  | nil => exact .pure _
  | cons r rs ih =>
    exact .bind (session.store.load_world r) fun s => ih.bind fun _ => .pure _

theorem looks_repositories : session.store.repositories.Looks := by
  refine .bind (fun _ => rfl) fun listing => ?_
  split
  · exact .pure _
  · exact fun _ => rfl
  · exact fun _ => rfl

/-- The overview changes nothing. -/
theorem looks_overview (repository? : Option String) : (session.overview repository?).Looks := by
  cases repository? with
  | some r => exact (looks_loadEach _).bind fun _ => .pure _
  | none => exact looks_repositories.bind fun _ => (looks_loadEach _).bind fun _ => .pure _

/-! ## Commands -/

/-- The identifier of the only issue that a command works on. -/
def Command.issue? : Command → Option String
  | .fix _ id => some id
  | .verify _ id => some id
  | .commit _ id => some id
  | _ => none

/-- No issue but the one that a command works on, if it is only one, has changed. -/
def Command.Leaves (c : Command) (s t : Snapshot) : Prop :=
  ∀ id, c.issue? = some id → LeavesOthers id s t

theorem Takes.mono {α : Type} {step : Snapshot → Act (Snapshot × α)}
    {E E' : Snapshot → Snapshot → Prop}
    (h : session.Takes step E) (hE : ∀ s t, E s t → E' s t) : session.Takes step E' :=
  fun lawful W hW hdays s => (h lawful W hW hdays s).weaken (fun h => h)
    fun _ _ ⟨hlawful, hsound, hevolves, hstep⟩ => ⟨hlawful, hsound, hevolves, hE _ _ hstep⟩

theorem Succeeds.mono {E' : Snapshot → Snapshot → Prop} (h : session.Succeeds E w w')
    (hE : ∀ s t, E s t → E' s t) : session.Succeeds E' w w' where
  follows := h.follows
  clock := h.clock
  holdsAll := h.holdsAll
  findsAll := h.findsAll
  evolves := fun q s hs => by
    obtain ⟨t, ht, hst, hstep⟩ := h.evolves q s hs
    exact ⟨t, ht, hst, hE s t hstep⟩

/-- Snapshots are succeeded one after the other. -/
theorem Succeeds.trans {w₁ : World} (h : session.Succeeds (fun _ _ => True) w w₁)
    (h' : session.Succeeds (fun _ _ => True) w₁ w') : session.Succeeds (fun _ _ => True) w w' := by
  obtain ⟨hfollows, hclock, hholds, hfinds, hevolves⟩ := h'
  rw [h.follows.here] at hholds hevolves
  refine ⟨⟨hfollows.here.trans h.follows.here, hfollows.programs.trans h.follows.programs,
    Nat.le_trans h.follows.recorded hfollows.recorded⟩, hclock.trans h.clock, hholds, hfinds,
    fun q s hs => ?_⟩
  obtain ⟨t, ht, hst, -⟩ := h.evolves q s hs
  obtain ⟨u, hu, htu, -⟩ := hevolves q t ht
  exact ⟨u, hu, hst.trans htu, trivial⟩

/-- What spared the snapshots from a world on spared them from any later one on. -/
theorem breached_mono {guarded : Route → Prop} {w₁ : World} {calls : List Call}
    (hfollows : World.Follows w w₁) (h : World.Breached guarded w₁ calls) :
    World.Breached guarded w calls := by
  obtain ⟨c, hc, hspares⟩ := h
  rw [hfollows.programs] at hspares
  exact ⟨c, (List.drop_sublist_drop_left calls hfollows.recorded).subset hc, hspares⟩

theorem succeeds_runEach (hspares : session.settings.SparesSnapshots) (profile? : Option Profile)
    (repositories : List String) (hdays : w.ShowsDays)
    (hholds : HoldsAll (session.store.routeIn w.here) w) (hfinds : session.store.FindsAll w)
    (hclean : ¬World.Breached (IsSnapshotRoute (session.store.routeIn w.here)) w
      (session.runEach profile? repositories w).2.calls) :
    session.Succeeds (fun _ _ => True) w (session.runEach profile? repositories w).2 := by
  induction repositories generalizing w with
  | nil =>
    exact succeeds_of_passWatch (fun _ => trivial) hholds hfinds (session.holds_passWatch w)
  | cons r rs ih =>
    have hpass := session.runOne_world profile? r w
    have hfirst := succeeds_passWorld (takes_runStep profile?) (fun _ => trivial)
      (fun _ _ _ _ _ => trivial) hspares hdays hholds hfinds (session.resolve r)
    rw [runEach, run_bind] at hclean ⊢
    rw [← hpass] at hfirst
    generalize session.runOne profile? r w = run at hfirst hclean ⊢
    obtain ⟨result, w₁⟩ := run
    cases result with
    | error e => exact hfirst hclean
    | ok s =>
      dsimp only at hfirst hclean ⊢
      have hrest := answer_world (session.runEach profile? rs) (fun ss => s :: ss) w₁
      rw [hrest] at hclean ⊢
      have hclean₁ : ¬World.Breached (IsSnapshotRoute (session.store.routeIn w.here)) w w₁.calls :=
        (keeps_runEach (W := session.watch w) (p := True) fun _ _ =>
          (permitsCommands_watch hspares).keepsPasses trivial).clean rfl hclean
      have hsucceeds := hfirst hclean₁
      have hhere := hsucceeds.follows.here
      refine hsucceeds.trans (ih ?_ ?_ hsucceeds.findsAll ?_)
      · intro n
        rw [hsucceeds.clock]
        exact hdays n
      · rw [hhere]
        exact hsucceeds.holdsAll
      · rw [hhere]
        exact fun hbreached => hclean (breached_mono hsucceeds.follows hbreached)

theorem perform_scan_world (repository : String) (profile? : Option Profile) (w : World) :
    (session.perform (.scan repository profile?) w).2 =
      (session.onSnapshot repository (session.scanSnapshot profile?) w).2 :=
  answer_world (session.scan repository profile?) _ w

theorem perform_fix_world (repository id : String) (w : World) :
    (session.perform (.fix repository id) w).2 =
      session.passWorld (session.resolve repository) (session.fixIssue id) w :=
  ((answer_world (session.fix repository id) _ w).trans
    (answer_world (session.onSnapshot repository (session.fixIssue id)) Prod.snd w)).trans
      (onSnapshot_world repository _ w)

theorem perform_verify_world (repository id : String) (w : World) :
    (session.perform (.verify repository id) w).2 =
      session.passWorld (session.resolve repository) (session.verifyAndCommit id) w :=
  ((answer_world (session.verify repository id) _ w).trans
    (answer_world (session.onSnapshot repository (session.verifyAndCommit id)) Prod.snd w)).trans
      (onSnapshot_world repository _ w)

theorem perform_commit_world (repository id : String) (w : World) :
    (session.perform (.commit repository id) w).2 =
      session.passWorld (session.resolve repository) (session.commitIssue id) w :=
  ((answer_world (session.commit repository id) _ w).trans
    (answer_world (session.onSnapshot repository (session.commitIssue id)) Prod.snd w)).trans
      (onSnapshot_world repository _ w)

theorem perform_status_world (repository? : Option String) (w : World) :
    (session.perform (.status repository?) w).2 = w :=
  (answer_world (session.overview repository?) _ w).trans (looks_overview repository? w)

theorem perform_run_singleton (profile? : Option Profile) (r : String) (w : World) :
    session.perform (.run [r] profile?) w =
      (session.runOne profile? r >>= fun _ => (pure () : Act Unit)) w := by
  simp [perform, run, runEach]

/-- A run over several repositories is a run over the first one and, unless that fails, one over the
others. -/
theorem perform_run_cons (profile? : Option Profile) (r r' : String) (rs : List String)
    (w : World) :
    (session.perform (.run (r :: r' :: rs) profile?) w).2 =
      match session.perform (.run [r] profile?) w with
      | (.error _, w₁) => w₁
      | (.ok _, w₁) => (session.perform (.run (r' :: rs) profile?) w₁).2 := by
  have hworld : ∀ (r : String) (rs : List String) (w : World),
      (session.perform (.run (r :: rs) profile?) w).2 = (session.runEach profile? (r :: rs) w).2 :=
    fun r rs w => answer_world (session.runEach profile? (r :: rs)) _ w
  rw [hworld, perform_run_singleton, runEach, run_bind, run_bind]
  generalize session.runOne profile? r w = first
  obtain ⟨result, w₁⟩ := first
  cases result with
  | error e => rfl
  | ok s => exact (answer_world _ (fun ss => s :: ss) w₁).trans (hworld r' rs w₁).symm

/-- After a command the stored snapshots have evolved. -/
theorem succeeds_perform (hdays : w.ShowsDays)
    (hholds : HoldsAll (session.store.routeIn w.here) w) (hfinds : session.store.FindsAll w)
    (c : Command) (halone : session.LeavesSnapshots c w) :
    session.Succeeds c.Leaves w (session.perform c w).2 := by
  have hclean := halone.not_breached
  have hrefl : ∀ s, c.Leaves s s := fun s _ _ => .of_sameIssues (.refl s)
  have hcongr : ∀ s s' t, s.SameIssues s' → c.Leaves s' t → c.Leaves s t :=
    fun s s' t hsame h id hid => (h id hid).congr hsame
  have hpass : ∀ {α : Type} {step : Snapshot → Act (Snapshot × α)} {r : String},
      session.Takes step c.Leaves →
      (session.perform c w).2 = session.passWorld (session.resolve r) step w →
      session.Succeeds c.Leaves w (session.perform c w).2 := by
    intro α step r htakes hworld
    rw [hworld] at hclean ⊢
    exact succeeds_passWorld htakes hrefl hcongr halone.settings hdays hholds hfinds _ hclean
  cases c with
  | scan r profile? =>
    refine hpass (r := r) ((takes_scanSnapshot profile?).mono fun s t _ id hid => by cases hid) ?_
    exact (perform_scan_world r profile? w).trans (onSnapshot_world r _ w)
  | run rs profile? =>
    have hworld : (session.perform (.run rs profile?) w).2 = (session.run rs profile? w).2 :=
      answer_world (session.run rs profile?) _ w
    rw [hworld] at hclean ⊢
    have hsucceeds : session.Succeeds (fun _ _ => True) w (session.run rs profile? w).2 := by
      rw [run] at hclean ⊢
      split
      · exact succeeds_of_passWatch (fun _ => trivial) hholds hfinds (session.holds_passWatch w)
      · next hsome =>
        rw [if_neg hsome] at hclean
        exact succeeds_runEach halone.settings profile? rs hdays hholds hfinds hclean
    exact hsucceeds.mono fun s t _ id hid => by cases hid
  | fix r id =>
    exact hpass ((takes_fixIssue id).mono fun s t h id' hid => Option.some.inj hid ▸ h)
      (perform_fix_world r id w)
  | verify r id =>
    exact hpass ((takes_verifyAndCommit id).mono fun s t h id' hid => Option.some.inj hid ▸ h)
      (perform_verify_world r id w)
  | commit r id =>
    exact hpass ((takes_commitIssue id).mono fun s t h id' hid => .of_sameIssues h)
      (perform_commit_world r id w)
  | status r? =>
    rw [perform_status_world]
    exact succeeds_of_passWatch hrefl hholds hfinds (session.holds_passWatch w)

end Session

namespace Store

open Session

variable {base : Route} {start w w' : World}

/-- The worlds that commands on the store at a route lead to. Everything but the snapshot files may
change between the commands, which find every stored snapshot by its path. A run over several
repositories is a sequence of runs over one of them, as `Session.perform_run_cons` says, so the
worlds between its saves are led to, too. -/
inductive Leads (base : Route) (start : World) : World → Prop
  /-- No command was carried out. -/
  | refl : Leads base start start
  /-- A command was carried out, with a failure or without. -/
  | command {w : World} (h : Leads base start w) (session : Session) (c : Command)
      (hbase : session.store.routeIn w.here = base) (halone : session.LeavesSnapshots c w)
      (hfinds : session.store.FindsAll w) (hdays : w.ShowsDays) :
        Leads base start (session.perform c w).2
  /-- Everything but the snapshot files has changed. -/
  | change {w : World} (h : Leads base start w) (w' : World)
      (hfiles : ∀ q, w'.files.fileAt (snapshotRoute base q) =
        w.files.fileAt (snapshotRoute base q)) : Leads base start w'

theorem Leads.holdsAll (h : Leads base start w) (hstart : HoldsAll base start) :
    HoldsAll base w := by
  induction h with
  | refl => exact hstart
  | @command w _ session c hbase halone hfinds hdays ih =>
    subst hbase
    exact (succeeds_perform hdays ih hfinds c halone).holdsAll
  | @change w _ w' hfiles ih =>
    intro q content hcontent
    obtain ⟨s, hs⟩ := ih q content ((hfiles q).symm.trans hcontent)
    exact ⟨s, holds_congr (hfiles q) hs⟩

/-- Every stored snapshot has evolved in the worlds that commands lead to. -/
theorem Leads.exists_evolves (h : Leads base w w') (hholds : HoldsAll base w) {q : String}
    {s : Snapshot} (hs : Holds base q s w) : ∃ t, Holds base q t w' ∧ s.Evolves t := by
  induction h with
  | refl => exact ⟨s, hs, .refl s⟩
  | @command w₁ h session c hbase halone hfinds hdays ih =>
    obtain ⟨t, ht, hst⟩ := ih
    have hholds₁ := h.holdsAll hholds
    subst hbase
    obtain ⟨u, hu, htu, -⟩ := (succeeds_perform hdays hholds₁ hfinds c halone).evolves q t ht
    exact ⟨u, hu, hst.trans htu⟩
  | @change w₁ _ w₂ hfiles ih =>
    obtain ⟨t, ht, hst⟩ := ih
    exact ⟨t, holds_congr (hfiles q) ht, hst⟩

/-- From an empty store on, every snapshot file holds a sound snapshot, and each snapshot evolves
over all commands that follow. A command that works on one issue leaves all others alone. -/
theorem Leads.evolves
    (hempty : ∀ q, start.files.fileAt (snapshotRoute base q) = none) (h : Leads base start w)
    (q : String) :
    (∀ content, w.files.fileAt (snapshotRoute base q) = some content → ∃ s, Holds base q s w) ∧
      ∀ s, Holds base q s w →
        (∀ w', Leads base w w' → ∃ t, Holds base q t w' ∧ s.Evolves t) ∧
        ∀ (session : Session) (c : Command) (id : String), c.issue? = some id →
          session.store.routeIn w.here = base → session.LeavesSnapshots c w →
          session.store.FindsAll w → w.ShowsDays →
            ∃ t, Holds base q t (session.perform c w).2 ∧ s.Evolves t ∧ s.LeavesOthers id t := by
  have hholds : HoldsAll base w :=
    h.holdsAll fun q content hcontent => by simp [hempty q] at hcontent
  refine ⟨hholds q, fun s hs => ⟨fun w' h' => h'.exists_evolves hholds hs, ?_⟩⟩
  intro session c id hid hbase halone hfinds hdays
  subst hbase
  obtain ⟨t, ht, hst, hothers⟩ := (succeeds_perform hdays hholds hfinds c halone).evolves q s hs
  exact ⟨t, ht, hst, hothers id hid⟩

theorem routeIn_pinnedWorld : pinnedSession.store.routeIn pinnedWorld.here = ["s"] :=
  rfl

theorem findsAll_pinnedWorld : pinnedSession.store.FindsAll pinnedWorld := by
  intro q content hcontent
  rw [routeIn_pinnedWorld, fileAt_pinnedWorld] at hcontent
  cases hcontent

theorem showsDays_pinnedWorld : pinnedWorld.ShowsDays := by
  have hvalid : (Instant.mk 2024 1 1 0 0 0 0).isValid = true := by decide
  exact fun _ => hvalid

theorem succeeds_scannedWorld :
    pinnedSession.Succeeds (Command.scan "r" (some .dependency)).Leaves pinnedWorld
      scannedWorld := by
  have hholds : HoldsAll (pinnedSession.store.routeIn pinnedWorld.here) pinnedWorld := by
    intro q content hcontent
    rw [routeIn_pinnedWorld, fileAt_pinnedWorld] at hcontent
    cases hcontent
  rw [scannedWorld]
  exact succeeds_perform showsDays_pinnedWorld hholds findsAll_pinnedWorld _
    (leavesSnapshots_pinnedWorld _)

/-- The issue that a scan has tracked goes on when it is fixed. -/
theorem evolves_scannedWorld :
    ∃ s, Holds ["s"] "/r" s scannedWorld ∧
      ∃ t, Holds ["s"] "/r" t (pinnedSession.perform (.fix "r" "001") scannedWorld).2 ∧
        s.Evolves t ∧ s.LeavesOthers "001" t := by
  have hleads : Leads ["s"] pinnedWorld scannedWorld := by
    rw [scannedWorld]
    exact .command .refl pinnedSession _ rfl (leavesSnapshots_pinnedWorld _) findsAll_pinnedWorld
      showsDays_pinnedWorld
  have hhere : scannedWorld.here = [] := succeeds_scannedWorld.follows.here
  have hbase : pinnedSession.store.routeIn scannedWorld.here = ["s"] := by
    rw [hhere]
    rfl
  have hdays : scannedWorld.ShowsDays := fun n => by
    rw [succeeds_scannedWorld.clock]
    exact showsDays_pinnedWorld n
  have halone : pinnedSession.LeavesSnapshots (.fix "r" "001") scannedWorld := by
    refine ⟨by decide, fun call _ reply hreply => ?_⟩
    rw [succeeds_scannedWorld.follows.programs] at hreply
    cases hreply
  obtain ⟨content, hcontent⟩ := Option.isSome_iff_exists.mp isSome_scannedWorld
  obtain ⟨hholds, hevolves⟩ := Leads.evolves fileAt_pinnedWorld hleads "/r"
  obtain ⟨s, hs⟩ := hholds content hcontent
  exact ⟨s, hs, (hevolves s hs).2 pinnedSession (.fix "r" "001") "001" rfl hbase halone
    succeeds_scannedWorld.findsAll hdays⟩

end Store

end RepoAudit
