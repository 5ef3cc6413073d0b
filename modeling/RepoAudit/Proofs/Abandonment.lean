import RepoAudit.Proofs.Session.Outside
import RepoAudit.Proofs.Settlement

/-!
# Commands that fail save nothing

A command on one repository saves its snapshot last, so one that fails has not touched any snapshot
file, unless it failed while saving. A save moves the new snapshot over the old one as its last step,
so a save that fails has not touched one either. A run saves after each repository: when it fails,
the repositories before the one that failed have their new snapshots, and the others what they had.
Saving follows the slug of the snapshot, so this needs stored snapshots that carry the slugs of their
own repositories.

## Main definitions

- `Store.Untouched` — the snapshot of a repository is as it was
- `Store.CarriesOwnSlug` — what is stored for a repository carries its slug
- `Session.StoresEach` — snapshots were stored for some repositories, and for no others
- `Session.RepairsOutside` — the files that a command repairs lie outside the store

## Main statements

- `Session.untouched_of_save` — a save that fails leaves every snapshot as it was
- `Session.runEach_of_error` — what a run that fails has stored
- `Session.untouched_of_error` — commands that fail
- `Session.misplaced_strayWorld` — a stored slug that is that of another repository
-/

namespace RepoAudit

open Act Snapshot FileTree Store

/-- The snapshot file of a repository is as it was, and is still read where it was read. -/
structure Store.Untouched (st : Store) (q : String) (w w' : World) : Prop where
  /-- The file has the same bytes, or there is still none. -/
  same : w'.files.fileAt (snapshotRoute (st.routeIn w.here) q) =
    w.files.fileAt (snapshotRoute (st.routeIn w.here) q)
  /-- What could be read by its path can still be read. -/
  readable : ∀ content, w.files.readBytes w.here (st.snapshotPath (slugOf q)) = .ok content →
    w'.files.readBytes w'.here (st.snapshotPath (slugOf q)) = .ok content

/-- What is stored for a repository, if it is a snapshot, carries the slug of that repository. -/
def Store.CarriesOwnSlug (st : Store) (q : String) (w : World) : Prop :=
  ∀ content text s, w.files.fileAt (snapshotRoute (st.routeIn w.here) q) = some content →
    String.fromUTF8? content = some text → Snapshot.read? text = some s → s.slug = slugOf q

theorem Store.CarriesOwnSlug.slug_eq {st : Store} {q : String} {w : World} {s : Snapshot}
    (h : st.CarriesOwnSlug q w) (hload : (st.load q w).1 = .ok s) : s.slug = slugOf q := by
  obtain ⟨-, rfl⟩ | ⟨content, text, hcontent, htext, hread⟩ := load_eq_ok hload
  · rfl
  · exact h content text s hcontent htext hread

namespace Session

variable {session : Session} {w w' : World}

/-- Where the directories and the file of a snapshot have stayed, the snapshot is untouched. -/
theorem untouched_of_grows {q : String} (hhere : w'.here = w.here) (hgrows : Grows w.files w'.files)
    (hfile : w'.files.fileAt (snapshotRoute (session.store.routeIn w.here) q) =
      w.files.fileAt (snapshotRoute (session.store.routeIn w.here) q)) :
    session.store.Untouched q w w' := by
  refine ⟨hfile, fun content hcontent => ?_⟩
  have hlookup := lookup_of_readBytes hcontent
  have hbefore := (lookup_file hlookup).2
  rw [hhere]
  refine readBytes_of_lookup (hgrows.lookup_file_eq_ok hlookup ?_)
  rw [routeFrom_snapshotPath] at hbefore ⊢
  exact node?_of_fileAt (hfile.trans hbefore)

theorem untouched_of_passWatch (h : (session.passWatch w).holds w') (q : String) :
    session.store.Untouched q w w' :=
  untouched_of_grows h.1.here h.2.1 (World.Guards.good h.1 _ ⟨q, rfl⟩)

theorem follows_save (t : Snapshot) {start : World} {p : Prop} :
    Keeps (World.progress start) p (session.store.save t) fun _ => True := by
  refine (Keeps.orRefused _ _ (follows_makeDirectories _)).bind fun _ => ?_
  refine (Keeps.orRefused _ _ (follows_change _)).bind fun _ => ?_
  refine (Keeps.orRefused _ _ (follows_change _)).bind fun _ => ?_
  exact Keeps.orRefused _ _ (follows_change _)

theorem follows_of_save {t : Snapshot} {result : Except Failure Unit}
    (h : session.store.save t w = (result, w')) : World.Follows w w' :=
  (follows_save (p := True) t).kept h trivial ⟨rfl, rfl, Nat.le_refl _⟩ id

/-- A save that fails, at whatever step, leaves every snapshot as it was. -/
theorem untouched_of_save {t : Snapshot} {e : Failure}
    (h : session.store.save t w = (.error e, w')) (q : String) : session.store.Untouched q w w' := by
  have hfollows := follows_of_save h
  have hgrows := ((course_save (p := True) t).kept h trivial ⟨.refl _, rfl⟩ id).1
  exact untouched_of_grows hfollows.here hgrows (fileAt_save_of_error ⟨q, rfl⟩ h)

/-- No program that was started from a world on made a snapshot file. -/
def LeftBy (session : Session) (w w' : World) : Prop :=
  ∀ call ∈ w'.calls.drop w.calls.length,
    call.Spares (IsSnapshotRoute (session.store.routeIn w.here)) w.programs

theorem LeftBy.not_excuses (h : session.LeftBy w w') :
    ¬(session.passWatch w).excuses w'.calls := by
  rintro (⟨call, hcall, hspares⟩ | hfalse)
  · exact hspares (h call hcall)
  · exact hfalse

theorem LeftBy.not_breached (h : session.LeftBy w w') :
    ¬World.Breached (IsSnapshotRoute (session.store.routeIn w.here)) w w'.calls :=
  fun hbreached => h.not_excuses (.inl hbreached)

/-- A pass that loads, takes a step and saves comes to one of four ends. -/
theorem pass_cases {α β : Type} {q : String} {step : Snapshot → Act (Snapshot × α)}
    {finish : Snapshot → Act Unit} {g : Snapshot × α → β} {result : Except Failure β}
    (hfinish : ∀ t w, (finish t w).2 = (session.store.save t w).2 ∧
      ((finish t w).1 = .ok () ↔ (session.store.save t w).1 = .ok ()))
    (h : (do
      let r ← step (← session.store.load q)
      finish r.1
      pure (g r) : Act β) w = (result, w')) :
    ((∃ e, result = .error e) ∧ (w' = w ∨ ∃ s, (session.store.load q w).1 = .ok s ∧
      ((∃ e, step s w = (.error e, w')) ∨
        ∃ r w₁ e, step s w = (.ok r, w₁) ∧ session.store.save r.1 w₁ = (.error e, w')))) ∨
    ∃ s r w₁, (session.store.load q w).1 = .ok s ∧ step s w = (.ok r, w₁) ∧
      session.store.save r.1 w₁ = (.ok (), w') ∧ result = .ok (g r) := by
  -- Loading changes nothing, so the step starts from the world of the pass.
  have hworld := session.store.load_world q w
  rw [run_bind] at h
  generalize session.store.load q w = loaded at hworld h
  obtain ⟨loaded, w₀⟩ := loaded
  subst hworld
  cases loaded with
  | error e =>
    cases h
    exact .inl ⟨⟨e, rfl⟩, .inl rfl⟩
  | ok s =>
    dsimp only at h
    rw [run_bind] at h
    cases hstep : step s w₀ with
    | mk stepped w₁ =>
      rw [hstep] at h
      cases stepped with
      | error e =>
        cases h
        exact .inl ⟨⟨e, rfl⟩, .inr ⟨s, rfl, .inl ⟨e, hstep⟩⟩⟩
      | ok r =>
        dsimp only at h
        rw [run_bind] at h
        obtain ⟨hsame, hok⟩ := hfinish r.1 w₁
        cases hsaved : session.store.save r.1 w₁ with
        | mk saved w₂ =>
          cases hfinished : finish r.1 w₁ with
          | mk finished w₃ =>
            rw [hfinished] at h
            rw [hfinished, hsaved] at hsame hok
            obtain rfl : w₃ = w₂ := hsame
            cases finished with
            | error e =>
              cases h
              cases saved with
              | error e' =>
                exact .inl ⟨⟨e, rfl⟩, .inr ⟨s, rfl, .inr ⟨r, w₁, e', hstep, hsaved⟩⟩⟩
              | ok _ => cases hok.mpr rfl
            | ok _ =>
              cases h
              obtain rfl : saved = .ok () := hok.mp rfl
              exact .inr ⟨s, r, w₁, rfl, hstep, hsaved, rfl⟩

/-- A pass touches no snapshot file before it saves. -/
def Steps {α : Type} (session : Session) (q : String) (step : Snapshot → Act (Snapshot × α))
    (w : World) : Prop :=
  ∀ s, (session.store.load q w).1 = .ok s → ∀ result w₁, step s w = (result, w₁) →
    ¬(session.passWatch w).excuses w₁.calls → (session.passWatch w).holds w₁

theorem steps_of_keeps {α : Type} {q : String} {step : Snapshot → Act (Snapshot × α)}
    (h : ∀ s, (session.store.load q w).1 = .ok s →
      Keeps (session.passWatch w) True (step s) fun _ => True) : session.Steps q step w :=
  fun s hs _ _ hrun hclean => (h s hs).kept hrun trivial (session.holds_passWatch w) hclean

/-- What was spared after a save was spared before it. -/
theorem not_excuses_of_save {t : Snapshot} {w₁ : World} {result : Except Failure Unit}
    (hsave : session.store.save t w₁ = (result, w')) (hleft : session.LeftBy w w') :
    ¬(session.passWatch w).excuses w₁.calls := by
  have hkeeps : Keeps (session.store.guard (fun _ _ => True) w) True (session.store.save t)
      fun _ => True := keeps_save t fun _ => trivial
  have hclean := hkeeps.clean hsave hleft.not_breached
  exact fun h => hclean (h.resolve_right id)

/-- A pass that fails leaves every snapshot file as it was. -/
theorem passWatch_of_error {α β : Type} {q : String} {step : Snapshot → Act (Snapshot × α)}
    {finish : Snapshot → Act Unit} {g : Snapshot × α → β} {e : Failure}
    (hfinish : ∀ t w, (finish t w).2 = (session.store.save t w).2 ∧
      ((finish t w).1 = .ok () ↔ (session.store.save t w).1 = .ok ()))
    (hstep : session.Steps q step w) (hleft : session.LeftBy w w')
    (h : (do
      let r ← step (← session.store.load q)
      finish r.1
      pure (g r) : Act β) w = (.error e, w')) : (session.passWatch w).holds w' := by
  obtain ⟨-, rfl | ⟨s, hload, ⟨e', hrun⟩ | ⟨r, w₁, e', hrun, hsave⟩⟩⟩ | ⟨s, r, w₁, -, -, -, herr⟩ :=
    pass_cases hfinish h
  · exact session.holds_passWatch _
  · exact hstep s hload _ _ hrun hleft.not_excuses
  · have hw₁ := hstep s hload _ _ hrun (not_excuses_of_save hsave hleft)
    exact holds_passWatch_of_error hw₁ hsave hleft.not_breached
  · cases herr

/-! ## Commands on one repository -/

theorem save_same (t : Snapshot) (w : World) :
    (session.store.save t w).2 = (session.store.save t w).2 ∧
      ((session.store.save t w).1 = .ok () ↔ (session.store.save t w).1 = .ok ()) :=
  ⟨rfl, Iff.rfl⟩

theorem mapFailure_same (f : Failure → Failure) (t : Snapshot) (w : World) :
    (Act.mapFailure f (session.store.save t) w).2 = (session.store.save t w).2 ∧
      ((Act.mapFailure f (session.store.save t) w).1 = .ok () ↔
        (session.store.save t w).1 = .ok ()) := by
  refine ⟨mapFailure_world _ _ w, ?_⟩
  rw [Act.mapFailure]
  cases session.store.save t w with
  | mk result w' => cases result <;> simp

theorem onSnapshot_of_error {α : Type} {repository : String}
    {step : Snapshot → Act (Snapshot × α)} {e : Failure}
    (hstep : session.Steps (session.resolve repository) step w) (hleft : session.LeftBy w w')
    (h : session.onSnapshot repository step w = (.error e, w')) : (session.passWatch w).holds w' :=
  passWatch_of_error (g := fun r => r) save_same hstep hleft h

theorem steps_scanSnapshot (q : String) (profile? : Option Profile) :
    session.Steps q (session.scanSnapshot profile?) w :=
  steps_of_keeps fun _ _ =>
    ((stepsBy_identity permits_passWatch).scanSnapshot profile? fun _ => trivial).weaken id
      fun _ _ _ => trivial

theorem steps_commitIssue (q id : String) : session.Steps q (session.commitIssue id) w :=
  steps_of_keeps fun _ _ =>
    (sameIssues_commitIssue permits_passWatch id fun _ => trivial).weaken (fun h => h)
      fun _ _ _ => trivial

theorem steps_verifyAndCommit (q name : String) :
    session.Steps q (session.verifyAndCommit name) w := by
  refine steps_of_keeps fun s _ => ?_
  have hverify : Keeps (session.passWatch w) True (session.verifyIssue name s) fun _ => True := by
    refine (keeps_place name s).bind fun index => ?_
    cases s.issues[index]? with
    | none => exact Keeps.pure fun _ => trivial
    | some i =>
      dsimp only
      split
      · exact Keeps.fail _
      · exact (changedAt_verifyAt permits_passWatch index fun _ => trivial).weaken id
          fun _ _ _ => trivial
  refine hverify.bind fun r => ?_
  obtain ⟨t, verdict⟩ := r
  dsimp only
  split
  · exact (sameIssues_commitIssue permits_passWatch name fun _ => trivial).bind fun _ =>
      Keeps.pure fun _ => trivial
  · exact Keeps.pure fun _ => trivial

theorem steps_fixIssue {q : String} (name : String)
    (houtside : ∀ s, (session.store.load q w).1 = .ok s →
      s.TracksOutside (session.store.routeIn w.here) w.here) :
    session.Steps q (session.fixIssue name) w :=
  steps_of_keeps fun s hs => outside_fixIssue name fun _ => houtside s hs

/-! ## Runs -/

/-- A pass of a run touches no snapshot file before it saves, and keeps the identity of the
snapshot. -/
theorem passWatch_runStep {profile? : Option Profile} {s : Snapshot}
    {result : Except Failure (Snapshot × Unit)}
    (houtside : ∀ r w₁, session.scanSnapshot profile? s w = (.ok r, w₁) →
      r.1.TracksOutside (session.store.routeIn w.here) w.here)
    (h : session.runStep profile? s w = (result, w'))
    (hclean : ¬(session.passWatch w).excuses w'.calls) :
    (session.passWatch w).holds w' ∧ ∀ r, result = .ok r → r.1.identity = s.identity := by
  have hscan : Keeps (session.passWatch w) True (session.scanSnapshot profile? s)
      fun r => r.1.identity = s.identity :=
    (stepsBy_identity permits_passWatch).scanSnapshot profile? fun _ => trivial
  have hrest : ∀ r : Snapshot × ScanReport, Keeps (session.passWatch w)
      (r.1.TracksOutside (session.store.routeIn w.here) w.here)
      (do
        let fixes ← session.fixAll r.1
        let checks ← session.verifyAll fixes.1
        let t ← session.store.log (runLine r.2 fixes.2 checks.2) checks.1
        pure (t, ()) : Act (Snapshot × Unit)) fun r' => r'.1.identity = r.1.identity := by
    intro r
    refine (outside_fixAll id).bind fun r₂ => ?_
    refine ((stepsBy_identity permits_passWatch).verifyAll trivial fun _ => trivial).bind
      fun r₃ => ?_
    refine (permits_passWatch.log _ fun _ => trivial).bind fun t => Keeps.pure ?_
    rintro ⟨⟨⟨-, h₂⟩, h₃⟩, log, rfl⟩
    have h₄ : ({ r₃.1 with log := log } : Snapshot).identity = r₃.1.identity := rfl
    exact h₄.trans (h₃.trans h₂)
  have hstart := session.holds_passWatch w
  rw [runStep, run_bind] at h
  cases hscanned : session.scanSnapshot profile? s w with
  | mk scanned w₁ =>
    rw [hscanned] at h
    cases scanned with
    | error e =>
      cases h
      refine ⟨hscan.kept hscanned trivial hstart hclean, fun r hr => ?_⟩
      cases hr
    | ok r =>
      have hrun := h
      dsimp only at hrun
      have hclean₁ := (hrest r).clean hrun hclean
      obtain ⟨hw₁, hidentity⟩ := hscan.run hscanned trivial hstart hclean₁
      have htracks := houtside r w₁ hscanned
      refine ⟨(hrest r).kept hrun htracks hw₁ hclean, fun r' hr' => ?_⟩
      subst hr'
      exact ((hrest r).run hrun htracks hw₁ hclean).2.trans hidentity

/-- Where a pass of a run on a repository starts to repair, its issues are about files outside the
store. -/
def PassOutside (session : Session) (profile? : Option Profile) (repository : String) (w : World) :
    Prop :=
  ∀ r w₁, (session.loadSnapshot repository >>= session.scanSnapshot profile?) w = (.ok r, w₁) →
    r.1.TracksOutside (session.store.routeIn w.here) w.here

theorem PassOutside.of_load {profile? : Option Profile} {repository : String} {s : Snapshot}
    (h : session.PassOutside profile? repository w)
    (hload : (session.store.load (session.resolve repository) w).1 = .ok s) :
    ∀ r w₁, session.scanSnapshot profile? s w = (.ok r, w₁) →
      r.1.TracksOutside (session.store.routeIn w.here) w.here := by
  intro r w₁ hscan
  refine h r w₁ (run_bind_eq_ok.mpr ⟨s, w, ?_, hscan⟩)
  rw [loadSnapshot, run_eq_of_fst hload, session.store.load_world]

/-- A snapshot was stored for a repository, and the other snapshots are as they were. -/
structure Stores (session : Session) (repository : String) (t : Snapshot) (w w' : World) : Prop where
  /-- The one world was reached from the other. -/
  follows : World.Follows w w'
  /-- The directories have stayed. -/
  grows : Grows w.files w'.files
  /-- The snapshot is found by the path of the repository. -/
  found : w'.files.lookup w.here (session.store.snapshotPath (slugOf (session.resolve repository))) =
    .ok (snapshotRoute (session.store.routeIn w.here) (session.resolve repository),
      .file t.write.toUTF8)
  /-- The others are as they were. -/
  others : ∀ q, snapshotRoute (session.store.routeIn w.here) q ≠
    snapshotRoute (session.store.routeIn w.here) (session.resolve repository) →
      w'.files.fileAt (snapshotRoute (session.store.routeIn w.here) q) =
        w.files.fileAt (snapshotRoute (session.store.routeIn w.here) q)

theorem runOne_eq (profile? : Option Profile) (repository : String) :
    session.runOne profile? repository = (do
      let r ← session.runStep profile? (← session.store.load (session.resolve repository))
      Act.mapFailure (.notSaved (session.resolve repository)) (session.store.save r.1)
      pure r.1) := by
  simp only [runOne, runStep, bind_assoc, pure_bind]

theorem runOne_of_error {profile? : Option Profile} {repository : String} {e : Failure}
    (houtside : session.PassOutside profile? repository w) (hleft : session.LeftBy w w')
    (h : session.runOne profile? repository w = (.error e, w')) :
    (session.passWatch w).holds w' := by
  rw [runOne_eq] at h
  refine passWatch_of_error (g := Prod.fst)
    (mapFailure_same (.notSaved (session.resolve repository))) ?_ hleft h
  exact fun s hs result w₁ hrun hclean =>
    (passWatch_runStep (houtside.of_load hs) hrun hclean).1

/-- A pass of a run that succeeds stores what it answers, where the stored snapshot carried the slug
of its own repository. -/
theorem runOne_of_ok {profile? : Option Profile} {repository : String} {t : Snapshot}
    (hown : session.store.CarriesOwnSlug (session.resolve repository) w)
    (houtside : session.PassOutside profile? repository w) (hleft : session.LeftBy w w')
    (h : session.runOne profile? repository w = (.ok t, w')) :
    session.Stores repository t w w' := by
  rw [runOne_eq] at h
  obtain ⟨⟨e, herr⟩, -⟩ | ⟨s, r, w₁, hload, hrun, hsave, hanswer⟩ :=
    pass_cases (g := Prod.fst) (mapFailure_same (.notSaved (session.resolve repository))) h
  · cases herr
  obtain rfl : t = r.1 := Except.ok.inj hanswer
  obtain ⟨hw₁, hidentity⟩ := passWatch_runStep (houtside.of_load hload) hrun
    (not_excuses_of_save hsave hleft)
  have hslug : r.1.slug = slugOf (session.resolve repository) :=
    (congrArg Prod.snd (hidentity r rfl)).trans (hown.slug_eq hload)
  have hplace : (session.store.snapshotPath r.1.slug).routeFrom w.here =
      snapshotRoute (session.store.routeIn w.here) (session.resolve repository) := by
    rw [hslug, routeFrom_snapshotPath]
  obtain ⟨hfollows, hfound, hothers⟩ := fileAt_of_save hw₁.1 hplace hsave hleft.not_breached
  rw [hslug] at hfound
  exact ⟨hfollows, ((course_save r.1).run hsave trivial hw₁.2 id).1.1, hfound,
    fun q hne => hothers _ ⟨q, rfl⟩ hne⟩

/-- Where the passes of a run start to repair, the issues are about files outside the store. -/
def RunOutside (session : Session) (profile? : Option Profile) (repositories : List String)
    (w : World) : Prop :=
  ∀ done repository later, repositories = done ++ repository :: later → ∀ states w₁,
    session.runEach profile? done w = (.ok states, w₁) →
      session.PassOutside profile? repository w₁

theorem RunOutside.tail {profile? : Option Profile} {r : String} {rs : List String} {t : Snapshot}
    {w₁ : World} (h : session.RunOutside profile? (r :: rs) w)
    (hrun : session.runOne profile? r w = (.ok t, w₁)) : session.RunOutside profile? rs w₁ := by
  intro done repository later hsplit states w₂ hdone
  refine h (r :: done) repository later (by rw [hsplit, List.cons_append]) (t :: states) w₂ ?_
  rw [runEach, run_bind, hrun]
  dsimp only
  rw [run_bind, hdone]
  rfl

theorem LeftBy.tail {w₁ : World} (h : session.LeftBy w w') (hfollows : World.Follows w w₁) :
    session.LeftBy w₁ w' := by
  intro call hcall
  rw [hfollows.here, hfollows.programs]
  exact h call ((List.drop_sublist_drop_left _ hfollows.recorded).subset hcall)

/-- A run only adds to the record of programs. -/
theorem excuses_runEach (start : World) (profile? : Option Profile) (repositories : List String) :
    Keeps (session.passWatch start) False (session.runEach profile? repositories) fun _ => True := by
  induction repositories with
  | nil => exact Keeps.pure False.elim
  | cons r rs ih =>
    rw [runEach, runOne_eq]
    refine Keeps.bind (Q := fun _ => True) ?_ fun s => (ih.given And.left).bind fun ss =>
      Keeps.pure fun _ => trivial
    refine (keeps_look_load _ _).bind fun s => ?_
    refine Keeps.bind (Q := fun _ => True) ?_ fun r => ?_
    · have hpermits : session.Permits (fun _ => True) (session.passWatch start) := permits_passWatch
      have hsteps := stepsBy_identity hpermits
      refine (hsteps.scanSnapshot profile? fun _ => trivial).bind fun r₁ => ?_
      refine (outside_fixAll fun h => h.1.1.elim).bind fun r₂ => ?_
      refine (hsteps.verifyAll trivial fun _ => trivial).bind fun r₃ => ?_
      exact (permits_passWatch.log _ fun _ => trivial).bind fun t => Keeps.pure fun _ => trivial
    · refine Keeps.bind (Q := fun _ => True) (.mapFailure _ ?_) fun _ => Keeps.pure fun _ => trivial
      exact ((keeps_save r.1 fun h => h.1.1.elim).inter (course_save r.1)).weaken id
        fun _ _ _ => trivial

/-- Snapshots were stored for some repositories, and the others are as they were. -/
structure StoresEach (session : Session) (repositories : List String) (states : List Snapshot)
    (w w' : World) : Prop where
  /-- The one world was reached from the other. -/
  follows : World.Follows w w'
  /-- The directories have stayed. -/
  grows : Grows w.files w'.files
  /-- Each snapshot is found by the path of its repository. -/
  found : List.Forall₂ (fun r t => w'.files.lookup w.here
    (session.store.snapshotPath (slugOf (session.resolve r))) =
      .ok (snapshotRoute (session.store.routeIn w.here) (session.resolve r),
        .file t.write.toUTF8)) repositories states
  /-- The others are as they were. -/
  others : ∀ q, (∀ r ∈ repositories, snapshotRoute (session.store.routeIn w.here) q ≠
    snapshotRoute (session.store.routeIn w.here) (session.resolve r)) →
      w'.files.fileAt (snapshotRoute (session.store.routeIn w.here) q) =
        w.files.fileAt (snapshotRoute (session.store.routeIn w.here) q)

/-- A snapshot stays where it was stored while those of repositories elsewhere are stored. -/
theorem Stores.cons {r : String} {rs : List String} {t : Snapshot} {ts : List Snapshot}
    {w₁ : World} (h : session.Stores r t w w₁) (hrest : session.StoresEach rs ts w₁ w')
    (hne : ∀ r' ∈ rs, snapshotRoute (session.store.routeIn w.here) (session.resolve r) ≠
      snapshotRoute (session.store.routeIn w.here) (session.resolve r')) :
    session.StoresEach (r :: rs) (t :: ts) w w' := by
  obtain ⟨hfollows, hgrows, hfound, hothers⟩ := hrest
  rw [h.follows.here] at hfound hothers
  refine ⟨h.follows.trans hfollows, h.grows.trans hgrows, .cons ?_ hfound, fun q hq => ?_⟩
  · have hkept := (hothers (session.resolve r) hne).trans (lookup_file h.found).2
    exact hgrows.lookup_file_eq_ok h.found (node?_of_fileAt hkept)
  · rw [List.forall_mem_cons] at hq
    exact (hothers q hq.2).trans (h.others q hq.1)

theorem runEach_cons_of_ok {profile? : Option Profile} {r : String} {rs : List String}
    {t : Snapshot} {ts : List Snapshot} {w₁ : World}
    (hrun : session.runOne profile? r w = (.ok t, w₁))
    (hrest : (session.runEach profile? rs w₁).1 = .ok ts) :
    (session.runEach profile? (r :: rs) w).1 = .ok (t :: ts) := by
  rw [runEach, run_bind, hrun]
  dsimp only
  rw [run_bind]
  generalize session.runEach profile? rs w₁ = run at hrest ⊢
  obtain ⟨result, w₂⟩ := run
  obtain rfl : result = .ok ts := hrest
  rfl

/-- A run that fails has stored the snapshots of the repositories before the one that failed. -/
theorem runEach_of_error {profile? : Option Profile} {repositories : List String} {e : Failure}
    (hown : ∀ r ∈ repositories, session.store.CarriesOwnSlug (session.resolve r) w)
    (hdistinct : (repositories.map fun r =>
      snapshotRoute (session.store.routeIn w.here) (session.resolve r)).Nodup)
    (houtside : session.RunOutside profile? repositories w) (hleft : session.LeftBy w w')
    (h : session.runEach profile? repositories w = (.error e, w')) :
    ∃ done failed later states, repositories = done ++ failed :: later ∧
      (session.runEach profile? done w).1 = .ok states ∧ session.StoresEach done states w w' := by
  induction repositories generalizing w with
  | nil => cases h
  | cons r rs ih =>
    rw [runEach, run_bind] at h
    cases hrun : session.runOne profile? r w with
    | mk result w₁ =>
      rw [hrun] at h
      have hpass := houtside [] r rs rfl [] w rfl
      cases result with
      | error e' =>
        cases h
        obtain ⟨hguards, hcourse⟩ := runOne_of_error hpass hleft hrun
        exact ⟨[], r, rs, [], rfl, rfl, ⟨hguards.here, hguards.programs, hguards.recorded⟩,
          hcourse.1, .nil, fun q _ => World.Guards.good hguards _ ⟨q, rfl⟩⟩
      | ok t =>
        have hrest := error_of_answer h
        have hleft₁ : session.LeftBy w w₁ := by
          intro call hcall
          by_contra hspares
          have hclean := (excuses_runEach w profile? rs).clean hrest hleft.not_excuses
          exact hclean (.inl ⟨call, hcall, hspares⟩)
        have hstores := runOne_of_ok (hown r List.mem_cons_self) hpass hleft₁ hrun
        have hhere := hstores.follows.here
        obtain ⟨hfirst, hdistinct⟩ := List.nodup_cons.mp hdistinct
        have hne : ∀ r' ∈ rs, snapshotRoute (session.store.routeIn w.here) (session.resolve r) ≠
            snapshotRoute (session.store.routeIn w.here) (session.resolve r') :=
          fun r' hr' heq => hfirst (List.mem_map.mpr ⟨r', hr', heq.symm⟩)
        -- The snapshots of the other repositories were not touched by the first pass, so each
        -- still carries the slug of its own repository.
        have hown₁ : ∀ r' ∈ rs, session.store.CarriesOwnSlug (session.resolve r') w₁ := by
          intro r' hr' content text s hcontent
          rw [hhere, hstores.others _ (hne r' hr').symm] at hcontent
          exact hown r' (List.mem_cons_of_mem r hr') content text s hcontent
        obtain ⟨done, failed, later, states, rfl, hdone, hstored⟩ := ih hown₁
          (by rw [hhere]; exact hdistinct) (houtside.tail hrun) (hleft.tail hstores.follows) hrest
        exact ⟨r :: done, failed, later, t :: states, rfl, runEach_cons_of_ok hrun hdone,
          hstores.cons hstored fun r' hr' => hne r' (List.mem_append_left _ hr')⟩

/-! ## Failed commands -/

/-- The files that a command repairs lie outside the store. -/
def RepairsOutside (session : Session) (w : World) : Command → Prop
  | .fix repository _ => ∀ s, (session.loadSnapshot repository w).1 = .ok s →
      s.TracksOutside (session.store.routeIn w.here) w.here
  | .run repositories profile? => session.RunOutside profile? repositories w
  | _ => True

/-- A command on one repository that fails touches no snapshot file. -/
theorem passWatch_perform_of_error {c : Command} {e : Failure}
    (hsingle : ∀ repositories profile?, c ≠ .run repositories profile?)
    (houtside : session.RepairsOutside w c) (hleft : session.LeftBy w w')
    (h : session.perform c w = (.error e, w')) : (session.passWatch w).holds w' := by
  cases c with
  | scan repository profile? =>
    exact onSnapshot_of_error (steps_scanSnapshot _ profile?) hleft (error_of_answer h)
  | run repositories profile? => exact absurd rfl (hsingle repositories profile?)
  | fix repository name =>
    exact onSnapshot_of_error (steps_fixIssue name houtside) hleft
      (error_of_answer (error_of_answer h))
  | verify repository name =>
    exact onSnapshot_of_error (steps_verifyAndCommit _ name) hleft
      (error_of_answer (g := Prod.snd) (error_of_answer h))
  | commit repository name =>
    exact onSnapshot_of_error (steps_commitIssue _ name) hleft (error_of_answer (error_of_answer h))
  | status repository? =>
    have hworld := session.perform_status_world repository? w
    rw [h] at hworld
    obtain rfl : w' = w := hworld
    exact session.holds_passWatch _

/-- A command that fails leaves the stored snapshots as they were. A run over several repositories
has stored the completed snapshots of those before the one that failed, when the repositories have
snapshots of their own and every stored one carries the slug of its repository. A save that fails
at any step is among the failures. -/
theorem untouched_of_error {c : Command} {e : Failure} (houtside : session.RepairsOutside w c)
    (hleft : session.LeftBy w w') (h : session.perform c w = (.error e, w')) :
    ((∀ repositories profile?, c ≠ .run repositories profile?) →
      ∀ q, session.store.Untouched q w w') ∧
    (∀ repositories profile?, c = .run repositories profile? →
      (∀ r ∈ repositories, session.store.CarriesOwnSlug (session.resolve r) w) →
      (repositories.map fun r =>
        snapshotRoute (session.store.routeIn w.here) (session.resolve r)).Nodup →
      repositories = [] ∧ w' = w ∨ ∃ done failed later states,
        repositories = done ++ failed :: later ∧
        (session.runEach profile? done w).1 = .ok states ∧
        (∀ r ∈ failed :: later, session.store.Untouched (session.resolve r) w w') ∧
        (∀ q, (∀ r ∈ done, snapshotRoute (session.store.routeIn w.here) q ≠
            snapshotRoute (session.store.routeIn w.here) (session.resolve r)) →
          session.store.Untouched q w w') ∧
        List.Forall₂ (fun r t => w'.files.readBytes w'.here
          (session.store.snapshotPath (slugOf (session.resolve r))) = .ok t.write.toUTF8)
          done states) ∧
    ∀ t w₁ e w₂, session.store.save t w₁ = (.error e, w₂) →
      ∀ q, session.store.Untouched q w₁ w₂ := by
  refine ⟨fun hsingle q => untouched_of_passWatch
    (passWatch_perform_of_error hsingle houtside hleft h) q, ?_,
    fun t w₁ e w₂ hsave q => untouched_of_save hsave q⟩
  rintro repositories profile? rfl hown hdistinct
  have hrun := error_of_answer h
  rw [run] at hrun
  split at hrun
  · next hempty =>
    cases hrun
    exact .inl ⟨List.isEmpty_iff.mp hempty, rfl⟩
  · obtain ⟨done, failed, later, states, rfl, hdone, hfollows, hgrows, hfound, hsame⟩ :=
      runEach_of_error hown hdistinct houtside hleft hrun
    have huntouched : ∀ q, (∀ r ∈ done, snapshotRoute (session.store.routeIn w.here) q ≠
        snapshotRoute (session.store.routeIn w.here) (session.resolve r)) →
          session.store.Untouched q w w' :=
      fun q hq => untouched_of_grows hfollows.here hgrows (hsame q hq)
    refine .inr ⟨done, failed, later, states, rfl, hdone, fun r hr => ?_, huntouched, ?_⟩
    · refine huntouched _ fun r' hr' heq => ?_
      rw [List.map_append, List.nodup_append] at hdistinct
      exact hdistinct.2.2 _ (List.mem_map_of_mem hr') _ (List.mem_map_of_mem hr) heq.symm
    · refine hfound.imp fun r t hlookup => ?_
      rw [hfollows.here]
      exact readBytes_of_lookup hlookup

/-! ## Runs on a store with a broken snapshot -/

/-- A world whose store holds a broken snapshot of one repository, and some more entries. -/
def brokenWorld (stored : List (Route × Node)) : World :=
  { pinnedWorld with
    files := ⟨[(["s"], .directory), (["s", "b"], .directory),
      (["s", "b", "issues.json"], .file "\x7b".toUTF8)] ++ stored⟩ }

theorem runOutside_brokenWorld :
    pinnedSession.RunOutside (some .dependency) ["a", "b"] (brokenWorld []) := by
  intro done repository later hsplit states w₁ hdone r w₂ hscan
  obtain _ | ⟨first, _ | ⟨second, done⟩⟩ := done
  · -- The first repository has no issues.
    obtain ⟨rfl, -⟩ := List.cons.inj hsplit
    cases hdone
    have hempty : comesTo (pinnedSession.loadSnapshot "a" >>=
        pinnedSession.scanSnapshot (some .dependency)) (brokenWorld [])
          (fun r _ => r.1.issues.isEmpty) = true := by
      decide +kernel
    obtain ⟨r', w', hrun, hissues⟩ := exists_of_comesTo hempty
    rw [hrun] at hscan
    cases hscan
    intro i hi
    rw [List.isEmpty_iff.mp hissues] at hi
    cases hi
  · -- The snapshot of the second one cannot be read.
    obtain ⟨hfirst, hlater⟩ := List.cons.inj hsplit
    obtain ⟨hsecond, -⟩ := List.cons.inj hlater
    subst hfirst hsecond
    have hbroken : comesTo (pinnedSession.runEach (some .dependency) ["a"]) (brokenWorld [])
        (fun _ w => (pinnedSession.loadSnapshot "b" w).1.toOption.isNone) = true := by
      decide +kernel
    obtain ⟨_, w', hrun, hload⟩ := exists_of_comesTo hbroken
    rw [hdone] at hrun
    cases hrun
    obtain ⟨s, _, hs, -⟩ := run_bind_eq_ok.mp hscan
    rw [hs] at hload
    cases hload
  · simp at hsplit

theorem carriesOwnSlug_brokenWorld : ∀ r ∈ ["a", "b"],
    pinnedSession.store.CarriesOwnSlug (pinnedSession.resolve r) (brokenWorld []) := by
  intro r hr content text s hcontent htext hread
  obtain rfl | rfl := List.mem_pair.mp hr
  · have hnone : ((brokenWorld []).files.fileAt (snapshotRoute (pinnedSession.store.routeIn
        (brokenWorld []).here) (pinnedSession.resolve "a"))).isNone = true := by
      decide
    rw [hcontent] at hnone
    cases hnone
  · have hfile : (brokenWorld []).files.fileAt (snapshotRoute (pinnedSession.store.routeIn
        (brokenWorld []).here) (pinnedSession.resolve "b")) = some "\x7b".toUTF8 := rfl
    have hunread : (Snapshot.read? "\x7b").isNone = true := by decide
    obtain rfl := Option.some.inj (hcontent.symm.trans hfile)
    rw [fromUTF8?_toUTF8] at htext
    obtain rfl := Option.some.inj htext
    rw [hread] at hunread
    cases hunread

/-- A repair of a broken snapshot leaves it, and a run over a repository without a snapshot and the
broken one stores the first and leaves the broken one. -/
theorem untouched_brokenWorld :
    (∃ e w', pinnedSession.perform (.fix "b" "001") (brokenWorld []) = (.error e, w') ∧
      ∀ q, pinnedSession.store.Untouched q (brokenWorld []) w') ∧
    ∃ (e : Failure) (w' : World) (done : List String) (failed : String) (later : List String)
      (states : List Snapshot),
      pinnedSession.perform (.run ["a", "b"] (some .dependency)) (brokenWorld []) = (.error e, w') ∧
      ["a", "b"] = done ++ failed :: later ∧
      (∀ r ∈ failed :: later,
        pinnedSession.store.Untouched (pinnedSession.resolve r) (brokenWorld []) w') ∧
      List.Forall₂ (fun r t => w'.files.readBytes w'.here
        (pinnedSession.store.snapshotPath (slugOf (pinnedSession.resolve r))) =
          .ok t.write.toUTF8) done states := by
  have hleft : ∀ {w' : World}, w'.calls.isEmpty = true →
      pinnedSession.LeftBy (brokenWorld []) w' := by
    intro w' hcalls call hcall
    rw [List.isEmpty_iff.mp hcalls] at hcall
    cases hcall
  constructor
  · have hfails : failsWith (pinnedSession.perform (.fix "b" "001")) (brokenWorld [])
        (fun w' => w'.calls.isEmpty) = true := by
      decide +kernel
    have hbroken : (pinnedSession.loadSnapshot "b" (brokenWorld [])).1.toOption.isNone = true := by
      decide +kernel
    obtain ⟨e, w', h, hcalls⟩ := exists_of_failsWith hfails
    refine ⟨e, w', h, (untouched_of_error (c := .fix "b" "001") ?_ (hleft hcalls) h).1 ?_⟩
    · intro s hs
      rw [hs] at hbroken
      cases hbroken
    · intro repositories profile? hrun
      cases hrun
  · have hfails : failsWith (pinnedSession.perform (.run ["a", "b"] (some .dependency)))
        (brokenWorld []) (fun w' => w'.calls.isEmpty) = true := by
      decide +kernel
    obtain ⟨e, w', h, hcalls⟩ := exists_of_failsWith hfails
    obtain ⟨hnil, -⟩ | ⟨done, failed, later, states, hsplit, -, hrest, -, hstored⟩ :=
      (untouched_of_error (c := .run ["a", "b"] (some .dependency)) runOutside_brokenWorld
        (hleft hcalls) h).2.1 _ _ rfl carriesOwnSlug_brokenWorld (by decide)
    · cases hnil
    · exact ⟨e, w', done, failed, later, states, h, hsplit, hrest, hstored⟩

/-- A world whose store also holds a snapshot of one repository with the slug of another one. -/
def strayWorld : World :=
  brokenWorld
    [(["s", "a"], .directory),
      (["s", "a", "issues.json"],
        .file { Snapshot.new "/a" with slug := slugOf "/c" }.write.toUTF8)]

/-- Saving follows the slug that was stored: the first of three repositories is stored where the last
one has its snapshot, before the second one fails. -/
theorem misplaced_strayWorld :
    (["a", "b", "c"].map fun r => snapshotRoute ["s"] (pinnedSession.resolve r)).Nodup ∧
    ∃ t w₁ e w', pinnedSession.runOne (some .dependency) "a" strayWorld = (.ok t, w₁) ∧
      pinnedSession.runOne (some .dependency) "b" w₁ = (.error e, w') ∧
      pinnedSession.perform (.run ["a", "b", "c"] (some .dependency)) strayWorld = (.error e, w') ∧
      strayWorld.files.fileAt (snapshotRoute ["s"] (pinnedSession.resolve "c")) = none ∧
      w'.files.fileAt (snapshotRoute ["s"] (pinnedSession.resolve "c")) ≠ none := by
  have hchanges : comesTo (pinnedSession.runOne (some .dependency) "a") strayWorld (fun _ w₁ =>
      failsWith (pinnedSession.runOne (some .dependency) "b") w₁ fun w' =>
        (w'.files.fileAt (snapshotRoute ["s"] (pinnedSession.resolve "c"))).isSome) = true := by
    decide +kernel
  have hnone : (strayWorld.files.fileAt
      (snapshotRoute ["s"] (pinnedSession.resolve "c"))).isNone = true := by
    decide +kernel
  obtain ⟨t, w₁, hfirst, hfails⟩ := exists_of_comesTo hchanges
  obtain ⟨e, w', hsecond, hsome⟩ := exists_of_failsWith hfails
  refine ⟨by decide, t, w₁, e, w', hfirst, hsecond, ?_, Option.isNone_iff_eq_none.mp hnone,
    Option.ne_none_iff_isSome.mpr hsome⟩
  have hrun : pinnedSession.run ["a", "b", "c"] (some .dependency) strayWorld = (.error e, w') := by
    rw [run, if_neg (by decide), runEach, run_bind, hfirst]
    dsimp only
    rw [run_bind, runEach, run_bind, hsecond]
  rw [perform, run_bind, hrun]

end Session

end RepoAudit
