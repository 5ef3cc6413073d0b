import RepoAudit.Proofs.Pipeline
import RepoAudit.Proofs.Store.Sight

/-!
# How the issues of a run end

A run tries the remedy of every planned issue and then checks every issue whose remedy was applied.
From the moment a remedy was applied its file is there, and from the first check on nothing writes
to it. So the verdict of the check is the one that the file gets at the end. An issue whose remedy
found nothing to rewrite ends as failed, even if its file is accepted, as when the remedy of another
issue has rewritten the file before.

## Main definitions

- `Store.fileNames` — the names of the files that a store writes on its own
- `Settings.SparesStore` — no advisory concerns a file with one of these names

## Main statements

- `Session.fixAll_settles` — after the repairs
- `Session.verifyAll_settles` — after the checks
- `Session.run_settles` — how every planned issue ends
-/

namespace RepoAudit

open Act Snapshot FileTree

/-- No advisory concerns a file that has the name of one that a store writes on its own. -/
def Settings.SparesStore (settings : Settings) : Prop :=
  ∀ a ∈ settings.advisories, ∀ name ∈ Store.fileNames,
    (Path.mk a.manifest).fileName? ≠ some name.toList

instance : DecidablePred Settings.SparesStore :=
  fun settings => inferInstanceAs (Decidable (∀ a ∈ settings.advisories, _))

/-- No remedy applies to a file that has the name of one that a store writes on its own. -/
theorem Remedy.notMem_fileNames {settings : Settings} (h : settings.SparesStore) {path : Path}
    {r : Remedy} (happlies : r.appliesTo settings.advisories path = true) {name : String}
    (hname : path.fileName? = some name.toList) : name ∉ Store.fileNames := by
  intro hmem
  obtain ⟨name', hname', hsource | ⟨a, ha, hmanifest⟩⟩ := exists_of_appliesTo happlies
  · obtain rfl := Option.some.inj (hname'.symm.trans hname)
    have hnone : ∀ name ∈ Store.fileNames, isSourceName name.toList = false := by decide
    rw [hnone name hmem] at hsource
    cases hsource
  · exact h a ha name hmem (hmanifest.trans (hname'.symm.trans hname))

/-- A file that is found ends its route with its name. -/
theorem FileTree.HoldsAt.exists_name {t : FileTree} {here : Route} {path : Path}
    {content : ByteArray} (h : HoldsAt here path content t) :
    ∃ name : String, (path.routeFrom here).getLast? = some name ∧
      path.fileName? = some name.toList := by
  rw [HoldsAt, lookup] at h
  split at h
  · cases h
  · cases h
  · next parent name slash hplace =>
    obtain ⟨hroute, hname⟩ := place_entry hplace
    exact ⟨name, by rw [hroute, List.getLast?_concat], hname⟩

theorem FileTree.holdsAt_of_readText {t : FileTree} {here : Route} {path : Path} {text : String}
    (h : t.readText here path = .ok text) : FindsFile here path t := by
  rw [readText, readBytes] at h
  cases hlookup : t.lookup here path with
  | error e =>
    rw [hlookup] at h
    cases h
  | ok found =>
    obtain ⟨r, n⟩ := found
    cases n with
    | directory =>
      rw [hlookup] at h
      cases h
    | file content => exact ⟨content, .of_lookup hlookup⟩

theorem FileTree.HoldsAt.readText_eq {t t' : FileTree} {here : Route} {path : Path}
    {content : ByteArray} (h : HoldsAt here path content t) (h' : HoldsAt here path content t') :
    t'.readText here path = t.readText here path := by
  rw [readText, readText, readBytes, readBytes, h, h']

/-! ## Checks -/

namespace Issue

theorem remedyAndFile_congr {i j : Issue} (h : j.core = i.core) :
    j.remedyAndFile = i.remedyAndFile := by
  simp only [core, Core.mk.injEq] at h
  obtain ⟨-, -, hfile, hweakness, -⟩ := h
  rw [remedyAndFile, remedyAndFile, hfile, hweakness]

/-- The verdict on an issue depends on what is read from its file. -/
theorem check_congr {advisories : List Advisory} {i j : Issue} (hcore : j.core = i.core)
    {w w' : World} (h : ∀ remedy file, i.remedyAndFile = .ok (remedy, file) →
      w'.files.readText w'.here file = w.files.readText w.here file) :
    (j.check advisories w').1 = (i.check advisories w).1 := by
  rw [check, check, remedyAndFile_congr hcore]
  cases htarget : i.remedyAndFile with
  | error reason => rfl
  | ok target =>
    obtain ⟨remedy, file⟩ := target
    dsimp only
    rw [run_bind, run_bind, Act.readText, run_look, run_look, h remedy file htarget]
    cases w.files.readText w.here file <;> rfl

theorem exists_check_eq (advisories : List Advisory) (i : Issue) (w : World) :
    ∃ verdict, (i.check advisories w).1 = .ok verdict := by
  rw [check]
  cases i.remedyAndFile with
  | error reason => exact ⟨_, rfl⟩
  | ok target =>
    dsimp only
    rw [run_bind, Act.readText, run_look]
    cases w.files.readText w.here target.2 <;> exact ⟨_, rfl⟩

end Issue

namespace Session

variable {session : Session} {lawful : String × String → Prop} {W : Watch}
  {start w w' : World} {s t : Snapshot} {k n : Nat} {i : Issue}

/-! ## Repairs -/

/-- Writing to a file that was found leaves a file to be found. -/
theorem findsFile_of_write {files files' : FileTree} {here : Route} {file : Path}
    {bytes : ByteArray} (h : FindsFile here file files)
    (hwrite : files.write here file bytes = .ok files') : FindsFile here file files' := by
  obtain ⟨parent, name, hroute, -, heq⟩ := change_eq_ok hwrite
  refine takesFiles_findsFile here file _ _ bytes (.of_change hwrite) ?_ h
  rw [heq, hroute]
  exact node?_set_self _ _ (by simp)

/-- A remedy that was applied has found its file, and the file is still there. -/
theorem findsFile_of_repair {artifact : Path} (hfollows : World.Follows start w)
    (h : i.repair session.store session.settings.advisories s w = (.ok (.applied artifact), w'))
    (hclean : ∀ remedy file, i.remedyAndFile = .ok (remedy, file) →
      ¬World.Meddled (file.routeFrom start.here) start w'.calls) :
    ∃ remedy file, i.remedyAndFile = .ok (remedy, file) ∧
      remedy.appliesTo session.settings.advisories file = true ∧
      World.Sees (FindsFile start.here file) start w' := by
  rcases repair_cases h with ⟨⟨_, hresult⟩ | hresult, -⟩ | ⟨remedy, file, text, changed, files, diff,
    htarget, happlies, htext, -, hwrite, hstored⟩
  · cases hresult
  · cases hresult
  obtain ⟨path, w₁, hstore, hend⟩ := run_bind_eq_ok.mp hstored
  cases hend
  have hfinds := findsFile_of_write (holdsAt_of_readText htext) hwrite
  rw [hfollows.here] at hfinds
  have hW : session.PermitsRepairs (fun _ => True) (fun _ => True)
      (World.sight (file.routeFrom start.here) (FindsFile start.here file) start) :=
    permitsRepairs_sight (takesNew_findsFile _ _) (takesFiles_findsFile _ _)
  have hstores := hW.storeArtifact (p := True) (s := s) i.id diff (fun _ => trivial) fun _ => trivial
  refine ⟨remedy, file, htarget, happlies, (hstores.run hstore trivial ?_ ?_).1⟩
  · exact ⟨⟨hfollows.here, hfollows.programs, hfollows.recorded⟩, hfinds⟩
  · exact hclean remedy file htarget

theorem findsFile_of_fixAt {artifact : Path} (hfollows : World.Follows start w)
    (hi : s.issues[k]? = some i) (h : session.fixAt k s w = (.ok (t, .applied artifact), w'))
    (hclean : ∀ remedy file, i.remedyAndFile = .ok (remedy, file) →
      ¬World.Meddled (file.routeFrom start.here) start w'.calls) :
    ∃ remedy file, i.remedyAndFile = .ok (remedy, file) ∧
      remedy.appliesTo session.settings.advisories file = true ∧
      World.Sees (FindsFile start.here file) start w' := by
  obtain ⟨s₁, w₁, hadvance, h⟩ := run_bind_eq_ok.mp h
  have hprogress : session.PermitsRepairs (fun _ => True) (fun _ => True) (World.progress start) :=
    permitsRepairs_progress
  obtain ⟨hfollows₁, hchanged⟩ := (changedAt_advanceUnlessAt (p := True) hprogress.toPermits k
    .fixing fun _ => trivial).run hadvance trivial hfollows id
  cases hj : s₁.issues[k]? with
  | none =>
    rw [hj] at h
    cases h
  | some j =>
    have hcore : j.core = i.core := by
      obtain ⟨-, now, rfl⟩ := hchanged.changed i j hi hj
      rfl
    rw [hj] at h
    obtain ⟨outcome, w₂, hrepair, h⟩ := run_bind_eq_ok.mp h
    cases outcome with
    | notApplicable reason =>
      obtain ⟨_, _, -, h⟩ := run_bind_eq_ok.mp h
      cases h
    | applied artifact =>
      obtain ⟨logged, w₃, hlog, h⟩ := run_bind_eq_ok.mp h
      obtain ⟨t', w₄, hmove, h⟩ := run_bind_eq_ok.mp h
      cases h
      -- what is done after the repair keeps the file, whichever it is
      have hrest : ∀ remedy file, i.remedyAndFile = .ok (remedy, file) →
          ¬World.Meddled (file.routeFrom start.here) start w₂.calls ∧
            (World.Sees (FindsFile start.here file) start w₂ →
              World.Sees (FindsFile start.here file) start w') := by
        intro remedy file htarget
        have hW : session.Permits (fun _ => True)
            (World.sight (file.routeFrom start.here) (FindsFile start.here file) start) :=
          permits_sight (takesNew_findsFile _ _) (.inl (takesFiles_findsFile _ _))
        have hmoves := changedAt_advance (p := True) hW k .verifying (s := logged) fun _ => trivial
        have hclean₃ := hmoves.clean hmove (hclean remedy file htarget)
        refine ⟨(hW.log (p := True) _ fun _ => trivial).clean hlog hclean₃, fun hsees => ?_⟩
        have hlogged := (hW.log (p := True) _ fun _ => trivial).run hlog trivial hsees hclean₃
        exact (hmoves.run hmove trivial hlogged.1 (hclean remedy file htarget)).1
      rw [← Issue.remedyAndFile_congr hcore] at hclean hrest ⊢
      obtain ⟨remedy, file, htarget, happlies, hsees⟩ := findsFile_of_repair hfollows₁ hrepair
        fun remedy file htarget => (hrest remedy file htarget).1
      exact ⟨remedy, file, htarget, happlies, (hrest remedy file htarget).2 hsees⟩

/-- What the repairs have come to for an issue: it failed, or its remedy was applied and its file is
there. -/
def Tried (session : Session) (start : World) (i j : Issue) (files : FileTree) : Prop :=
  j.core = i.core ∧ (j.stage = .failed ∨ j.stage = .verifying ∧
    ∃ remedy file, i.remedyAndFile = .ok (remedy, file) ∧
      remedy.appliesTo session.settings.advisories file = true ∧
      FindsFile start.here file files)

/-- Repairs at other places leave an issue as it is. -/
theorem keeps_fixSteps_others (hW : session.PermitsRepairs lawful (fun _ => True) W)
    {places : List Nat} (hk : k ∉ places) (s : Snapshot) :
    Keeps W (lawful s.identity) (countSteps session.fixStep places s)
      fun r => r.1.issues[k]? = s.issues[k]? :=
  (keeps_countSteps_others (fun index _ => changedAt_fixStep hW index id fun _ _ _ => trivial)
    hk s).weaken id fun _ _ h => h.2

/-- The repairs try the remedy of every planned issue. -/
theorem tried_fixAll (hfollows : World.Follows start w) (hi : s.issues[k]? = some i)
    (hstage : i.stage = .planning) (h : session.fixAll s w = (.ok (t, n), w'))
    (hclean : ∀ remedy file, i.remedyAndFile = .ok (remedy, file) →
      ¬World.Meddled (file.routeFrom start.here) start w'.calls) :
    World.Follows start w' ∧ ∃ j, t.issues[k]? = some j ∧ session.Tried start i j w'.files := by
  rw [fixAll_eq] at h
  obtain ⟨before, after, s₁, n₁, w₁, s₂, counts, w₂, n₂, hbefore, hafter, hfirst, hstep, hlater⟩ :=
    countSteps_eq_ok h (hstage ▸ mem_placesAt hi) (nodup_placesAt _ _)
  have hW : session.PermitsRepairs (fun _ => True) (fun _ => True) (World.progress start) :=
    permitsRepairs_progress
  obtain ⟨hfollows₁, hissue₁⟩ :=
    (keeps_fixSteps_others hW hbefore s).run hfirst trivial hfollows id
  rw [hi] at hissue₁
  obtain ⟨⟨s₂, outcome⟩, w₂, hfix, hend⟩ := run_bind_eq_ok.mp hstep
  cases hend
  obtain ⟨hfollows₂, hfixed⟩ :=
    (fixedAt_fixAt (p := True) hW k (fun _ => trivial) fun _ _ _ => trivial).run hfix trivial
      hfollows₁ id
  obtain ⟨hfollows', hissue⟩ :=
    (keeps_fixSteps_others hW hafter s₂).run hlater trivial hfollows₂ id
  obtain ⟨j, hissue₂, hchanged⟩ := hfixed.exists_after hissue₁
  refine ⟨hfollows', j, hissue.trans hissue₂, hchanged.fixTried.core_eq, ?_⟩
  cases outcome with
  | notApplicable reason =>
    obtain ⟨-, reason', now, heq⟩ := hchanged
    exact .inl (by rw [heq])
  | applied artifact =>
    obtain ⟨-, artifact', now, heq⟩ := hchanged
    -- the later repairs keep the file, whichever it is
    have hrest : ∀ remedy file, i.remedyAndFile = .ok (remedy, file) →
        ¬World.Meddled (file.routeFrom start.here) start w₂.calls ∧
          (World.Sees (FindsFile start.here file) start w₂ →
            FindsFile start.here file w'.files) := by
      intro remedy file htarget
      have hsight : session.PermitsRepairs (fun _ => True) (fun _ => True)
          (World.sight (file.routeFrom start.here) (FindsFile start.here file) start) :=
        permitsRepairs_sight (takesNew_findsFile _ _) (takesFiles_findsFile _ _)
      have hothers := keeps_fixSteps_others hsight hafter s₂
      exact ⟨hothers.clean hlater (hclean remedy file htarget), fun hsees =>
        (hothers.run hlater trivial hsees (hclean remedy file htarget)).1.files⟩
    obtain ⟨remedy, file, htarget, happlies, hsees⟩ := findsFile_of_fixAt hfollows₁ hissue₁ hfix
      fun remedy file htarget => (hrest remedy file htarget).1
    exact .inr ⟨by rw [heq], remedy, file, htarget, happlies, (hrest remedy file htarget).2 hsees⟩

/-! ## Checks -/

/-- What the checks have come to for an issue: it is complete or failed, as its check tells. -/
def Judged (session : Session) (i j : Issue) (w : World) : Prop :=
  (j.stage = .complete ∨ j.stage = .failed) ∧
    (j.stage = .complete ↔ (i.check session.settings.advisories w).1 = .ok .passed)

/-- Checks at other places leave an issue as it is. -/
theorem keeps_verifySteps_others (hW : session.Permits lawful W) {places : List Nat}
    (hk : k ∉ places) (s : Snapshot) :
    Keeps W (lawful s.identity) (countSteps session.verifyStep places s)
      fun r => r.1.issues[k]? = s.issues[k]? :=
  (keeps_countSteps_others (fun index _ => changedAt_verifyStep hW index id) hk s).weaken id
    fun _ _ h => h.2

/-- A check reads the file of its issue alone, so it gives the same verdict where the file is the
same. -/
theorem check_eq_of_sees {remedy : Remedy} {file : Path} {content : ByteArray}
    {advisories : List Advisory} {verdict : Verdict} {j : Issue} {v : World}
    (hsees : World.Sees (HoldsAt start.here file content) start w)
    (hsees' : World.Sees (HoldsAt start.here file content) start v)
    (htarget : i.remedyAndFile = .ok (remedy, file)) (hcore : j.core = i.core)
    (h : (i.check advisories w).1 = .ok verdict) : (j.check advisories v).1 = .ok verdict := by
  rw [← h]
  refine Issue.check_congr hcore fun remedy' file' htarget' => ?_
  obtain ⟨rfl, rfl⟩ := Prod.mk.inj (Except.ok.inj (htarget.symm.trans htarget'))
  rw [hsees'.here, hsees.here]
  exact hsees.files.readText_eq hsees'.files

/-- The checks judge every issue whose remedy was applied by its file, which they keep. -/
theorem judged_verifyAll {remedy : Remedy} {file : Path} {content : ByteArray}
    (hsees : World.Sees (HoldsAt start.here file content) start w) (hi : s.issues[k]? = some i)
    (hstage : i.stage = .verifying) (htarget : i.remedyAndFile = .ok (remedy, file))
    (hlog : ∀ slug, IsUnguarded (· = file.routeFrom start.here) start.here
      ((session.store.directory slug).entry Store.logName))
    (h : session.verifyAll s w = (.ok (t, n), w'))
    (hclean : ¬World.Meddled (file.routeFrom start.here) start w'.calls) :
    World.Sees (HoldsAt start.here file content) start w' ∧
      ∃ j, t.issues[k]? = some j ∧ j.core = i.core ∧ session.Judged i j w' := by
  have hW : session.Permits (fun _ => True)
      (World.sight (file.routeFrom start.here) (HoldsAt start.here file content) start) :=
    permits_sight (takesNew_holdsAt _ _ _) (.inr fun identity _ => hlog identity.2)
  -- every check of the issue gives one verdict, since they all read the same file
  obtain ⟨verdict, hverdict⟩ := i.exists_check_eq session.settings.advisories w
  have hsame : ∀ j : Issue, j.core = i.core → ∀ v,
      World.Sees (HoldsAt start.here file content) start v →
        (j.check session.settings.advisories v).1 = .ok verdict :=
    fun j hcore v hv => check_eq_of_sees hsees hv htarget hcore hverdict
  rw [verifyAll_eq] at h
  obtain ⟨before, after, s₁, n₁, w₁, s₂, counts, w₂, n₂, hbefore, hafter, hfirst, hstep, hlater⟩ :=
    countSteps_eq_ok h (hstage ▸ mem_placesAt hi) (nodup_placesAt _ _)
  have hlast := keeps_verifySteps_others hW hafter s₂
  have hclean₂ := hlast.clean hlater hclean
  have hclean₁ :=
    (changedAt_verifyStep (p := True) hW k (s := s₁) fun _ => trivial).clean hstep hclean₂
  obtain ⟨hsees₁, hissue₁⟩ :=
    (keeps_verifySteps_others hW hbefore s).run hfirst trivial hsees hclean₁
  rw [hi] at hissue₁
  have hV : ∀ i' j : Issue, s₁.issues[k]? = some i' → j.core = i'.core → ∀ v,
      World.Sees (HoldsAt start.here file content) start v → ∀ verdict',
        (j.check session.settings.advisories v).1 = .ok verdict' → verdict' = verdict := by
    intro i' j hi' hcore v hv verdict' hverdict'
    obtain rfl := Option.some.inj (hissue₁.symm.trans hi')
    exact (Except.ok.inj ((hsame j hcore v hv).symm.trans hverdict')).symm
  obtain ⟨hsees₂, hchecked⟩ := (checkedAt_verifyStep (p := True) hW k (fun _ => trivial) hV).run
    hstep trivial hsees₁ hclean₂
  obtain ⟨hsees', hissue⟩ := hlast.run hlater trivial hsees₂ hclean
  obtain ⟨j, hissue₂, _, hchanged, heq⟩ := hchecked.exists_after hissue₁
  rw [heq] at hchanged
  refine ⟨hsees', j, hissue.trans hissue₂, hchanged.checkTried.core_eq, ?_⟩
  rw [Judged, hsame i rfl w' hsees']
  cases verdict with
  | passed =>
    obtain ⟨-, now, heq⟩ := hchanged
    rw [heq]
    simp
  | failed reason =>
    obtain ⟨-, reason', now, heq⟩ := hchanged
    rw [heq]
    simp

/-! ## Runs -/

/-- The scan at the start of a run over a repository comes to a snapshot and a world. -/
def Scans (session : Session) (repository : String) (profile? : Option Profile) (w : World)
    (s : Snapshot) (w₁ : World) : Prop :=
  ∃ report, (session.store.load (session.resolve repository) >>= session.scanSnapshot profile?) w =
    (.ok (s, report), w₁)

theorem run_singleton (session : Session) (repository : String) (profile? : Option Profile) :
    session.run [repository] profile? = (do
      let s ← session.runOne profile? repository
      pure [s]) := rfl

/-- A run that succeeds goes through its passes, logs and saves. -/
theorem run_eq_ok {repository : String} {profile? : Option Profile}
    (h : session.run [repository] profile? w = (.ok [t], w')) :
    ∃ s₁ w₁ s₂ n₂ w₂ s₃ n₃ w₃ line w₄, session.Scans repository profile? w s₁ w₁ ∧
      session.fixAll s₁ w₁ = (.ok (s₂, n₂), w₂) ∧ session.verifyAll s₂ w₂ = (.ok (s₃, n₃), w₃) ∧
      session.store.log line s₃ w₃ = (.ok t, w₄) ∧ session.store.save t w₄ = (.ok (), w') := by
  rw [run_singleton] at h
  obtain ⟨s₄, w₅, hone, hend⟩ := run_bind_eq_ok.mp h
  cases hend
  obtain ⟨loaded, w₀, hload, hone⟩ := run_bind_eq_ok.mp hone
  obtain ⟨⟨s₁, report⟩, w₁, hscan, hone⟩ := run_bind_eq_ok.mp hone
  obtain ⟨⟨s₂, n₂⟩, w₂, hfix, hone⟩ := run_bind_eq_ok.mp hone
  obtain ⟨⟨s₃, n₃⟩, w₃, hverify, hone⟩ := run_bind_eq_ok.mp hone
  obtain ⟨s₄, w₄, hlog, hone⟩ := run_bind_eq_ok.mp hone
  obtain ⟨_, w₅, hsave, hend⟩ := run_bind_eq_ok.mp hone
  cases hend
  exact ⟨s₁, w₁, s₂, n₂, w₂, s₃, n₃, w₃, _, w₄,
    ⟨report, run_bind_eq_ok.mpr ⟨loaded, w₀, hload, hscan⟩⟩, hfix, hverify, hlog,
    run_mapFailure_eq_ok.mp hsave⟩

/-- The programs that were started after a world leave the files of some issues alone. -/
def LeftAlone (s : Snapshot) (start w : World) : Prop :=
  ∀ i ∈ s.issues, ∀ remedy file, i.remedyAndFile = .ok (remedy, file) →
    ¬World.Meddled (file.routeFrom start.here) start w.calls

/-- Nothing known of the files is needed to tell which programs were started. -/
theorem clean_of_save {r : Route} {result : Except Failure Unit}
    (h : session.store.save s w = (result, w'))
    (hclean : ¬World.Meddled r start w'.calls) : ¬World.Meddled r start w.calls := by
  have hK : RestsOn r fun _ => True := fun _ _ _ _ => trivial
  exact (Store.sees_save (p := False) hK (sees_makeDirectories hK False.elim) False.elim False.elim
    False.elim).clean h hclean

/-- An issue whose remedy was applied is judged by what its file holds at the end. -/
theorem judged_of_verifying {remedy : Remedy} {file : Path} {s₃ : Snapshot} {w₃ w₄ : World}
    {line : String} (hspares : session.settings.SparesStore)
    (hsees : World.Sees (FindsFile start.here file) start w) (hi : s.issues[k]? = some i)
    (hstage : i.stage = .verifying) (htarget : i.remedyAndFile = .ok (remedy, file))
    (happlies : remedy.appliesTo session.settings.advisories file = true)
    (hverify : session.verifyAll s w = (.ok (s₃, n), w₃))
    (hlog : session.store.log line s₃ w₃ = (.ok t, w₄))
    (hsave : session.store.save t w₄ = (.ok (), w'))
    (hclean : ¬World.Meddled (file.routeFrom start.here) start w'.calls) :
    ∃ j, t.issues[k]? = some j ∧ session.Judged i j w' := by
  obtain ⟨content, hcontent⟩ := hsees.files
  obtain ⟨name, hlast, hname⟩ := hcontent.exists_name
  have hother := Remedy.notMem_fileNames hspares happlies hname
  have hlogs : ∀ slug, IsUnguarded (· = file.routeFrom start.here) start.here
      ((session.store.directory slug).entry Store.logName) :=
    fun slug => isUnguarded_of_ne (Store.ne_routeFrom_entry hlast hother (by decide))
  have hnew := takesNew_holdsAt start.here file content
  have hW : session.Permits (fun _ => True)
      (World.sight (file.routeFrom start.here) (HoldsAt start.here file content) start) :=
    permits_sight hnew (.inr fun identity _ => hlogs identity.2)
  have hclean₄ := clean_of_save hsave hclean
  have hclean₃ := (hW.log (p := True) line fun _ => trivial).clean hlog hclean₄
  obtain ⟨hsees₃, j, hj, hcore, hjudged⟩ :=
    judged_verifyAll ⟨hsees.toFollows, hcontent⟩ hi hstage htarget hlogs hverify hclean₃
  obtain ⟨hsees₄, log, hlogged⟩ :=
    (hW.log (p := True) line fun _ => trivial).run hlog trivial hsees₃ hclean₄
  obtain ⟨hsees', -⟩ := (Store.sees_save (p := True) hnew.restsOn
    (sees_makeDirectories hnew.restsOn fun _ => .inl hnew)
    (fun _ => isUnguarded_of_ne (Store.ne_routeFrom_lockPath hlast hother))
    (fun _ => Store.ne_routeFrom_newPath hlast hother)
    fun _ => Store.ne_routeFrom_snapshotPath hlast hother).run hsave trivial hsees₄ hclean
  refine ⟨j, by rw [hlogged, hj], hjudged.1, hjudged.2.trans ?_⟩
  rw [Issue.check_congr (i := i) (j := i) rfl fun remedy' file' htarget' => ?_]
  obtain ⟨rfl, rfl⟩ := Prod.mk.inj (Except.ok.inj (htarget.symm.trans htarget'))
  rw [hsees₃.here, hsees'.here]
  exact (hsees₃.files.readText_eq hsees'.files).symm

/-- An issue that failed before the checks stays as it is. -/
theorem issue_of_failed {s₃ : Snapshot} {w₃ w₄ : World} {line : String}
    (hi : s.issues[k]? = some i) (hstage : i.stage = .failed)
    (hverify : session.verifyAll s w = (.ok (s₃, n), w₃))
    (hlog : session.store.log line s₃ w₃ = (.ok t, w₄)) : t.issues[k]? = some i := by
  have hW : session.Permits (fun _ => True) (World.progress w) :=
    permitsRepairs_progress.toPermits
  have hk : k ∉ placesAt .verifying s := by
    intro hmem
    rw [stage_of_mem_placesAt hmem hi] at hstage
    cases hstage
  rw [verifyAll_eq] at hverify
  obtain ⟨hfollows₃, hissue⟩ :=
    (keeps_verifySteps_others hW hk s).run hverify trivial ⟨rfl, rfl, Nat.le_refl _⟩ id
  obtain ⟨-, log, hlogged⟩ :=
    (hW.log (p := True) line fun _ => trivial).run hlog trivial hfollows₃ id
  rw [hlogged]
  exact hissue.trans hi

/-- The issues that are planned when the repairs of a run start end as complete or failed. Those end
as complete whose own remedy was applied in this run and whose check passes on what their file holds
at the end. -/
theorem run_settles {repository : String} {profile? : Option Profile}
    (hspares : session.settings.SparesStore)
    (hrun : session.run [repository] profile? w = (.ok [t], w')) :
    ∃ s₁ w₁ s₂ n w₂, session.Scans repository profile? w s₁ w₁ ∧
      session.fixAll s₁ w₁ = (.ok (s₂, n), w₂) ∧
        (LeftAlone s₁ w₁ w' → ∀ (k : Nat) (i : Issue), s₁.issues[k]? = some i →
          i.stage = .planning → ∃ i₂ j : Issue, s₂.issues[k]? = some i₂ ∧ t.issues[k]? = some j ∧
            (i₂.stage = .verifying ∨ i₂.stage = .failed) ∧
            (j.stage = .complete ∨ j.stage = .failed) ∧
            (j.stage = .complete ↔ i₂.stage = .verifying ∧
              (i.check session.settings.advisories w').1 = .ok .passed)) := by
  obtain ⟨s₁, w₁, s₂, n₂, w₂, s₃, n₃, w₃, line, w₄, hscan, hfix, hverify, hlog, hsave⟩ :=
    run_eq_ok hrun
  refine ⟨s₁, w₁, s₂, n₂, w₂, hscan, hfix, fun halone k i hi hstage => ?_⟩
  have hclean := halone i (List.mem_of_getElem? hi)
  have hclean₂ : ∀ remedy file, i.remedyAndFile = .ok (remedy, file) →
      ¬World.Meddled (file.routeFrom w₁.here) w₁ w₂.calls := by
    intro remedy file htarget
    have hW : session.Permits (fun _ => True)
        (World.sight (file.routeFrom w₁.here) (fun _ => True) w₁) :=
      permits_sight (fun _ _ _ _ _ => trivial) (.inl fun _ _ _ _ _ _ => trivial)
    have hclean₄ := clean_of_save hsave (hclean remedy file htarget)
    have hclean₃ := (hW.log (p := True) line fun _ => trivial).clean hlog hclean₄
    exact (keeps_verifyAll hW s₂).clean hverify hclean₃
  obtain ⟨hfollows₂, i₂, hi₂, hcore, htried⟩ :=
    tried_fixAll ⟨rfl, rfl, Nat.le_refl _⟩ hi hstage hfix hclean₂
  rcases htried with hfailed | ⟨hverifying, remedy, file, htarget, happlies, hfinds⟩
  · refine ⟨i₂, i₂, hi₂, issue_of_failed hi₂ hfailed hverify hlog, .inr hfailed, .inr hfailed, ?_⟩
    rw [hfailed]
    simp
  · obtain ⟨j, hj, hends, hcomplete⟩ := judged_of_verifying hspares ⟨hfollows₂, hfinds⟩ hi₂
      hverifying ((Issue.remedyAndFile_congr hcore).trans htarget) happlies hverify hlog hsave
      (hclean remedy file htarget)
    refine ⟨i₂, j, hi₂, hj, .inl hverifying, hends, hcomplete.trans ?_⟩
    rw [Issue.check_congr hcore fun _ _ _ => rfl]
    simp [hverifying]

open Store

/-- Whether a step succeeds in a world and comes to what it should. -/
def comesTo {α : Type} (act : Act α) (w : World) (P : α → World → Bool) : Bool :=
  match act w with
  | (.ok a, w') => P a w'
  | (.error _, _) => false

theorem exists_of_comesTo {α : Type} {act : Act α} {w : World} {P : α → World → Bool}
    (h : comesTo act w P = true) : ∃ a w', act w = (.ok a, w') ∧ P a w' = true := by
  unfold comesTo at h
  split at h
  · next a w' hact => exact ⟨a, w', hact, h⟩
  · cases h

/-- Whether a step fails in a world and leaves one as it should be. -/
def failsWith {α : Type} (act : Act α) (w : World) (P : World → Bool) : Bool :=
  match act w with
  | (.ok _, _) => false
  | (.error _, w') => P w'

theorem exists_of_failsWith {α : Type} {act : Act α} {w : World} {P : World → Bool}
    (h : failsWith act w P = true) : ∃ e w', act w = (.error e, w') ∧ P w' = true := by
  unfold failsWith at h
  split at h
  · cases h
  · next e w' hact => exact ⟨e, w', hact, h⟩

/-- Whether the issue at a place of the only snapshot of a run is as it should be. -/
def endsWith (k : Nat) (P : Issue → Bool) : List Snapshot → Bool
  | [t] => t.issues[k]?.any P
  | _ => false

theorem exists_of_endsWith {P : Issue → Bool} {ts : List Snapshot} (h : endsWith k P ts = true) :
    ∃ t j, ts = [t] ∧ t.issues[k]? = some j ∧ P j = true := by
  unfold endsWith at h
  split at h
  · next t =>
    obtain ⟨j, hj, hP⟩ := (Option.any_eq_true _ _).mp h
    exact ⟨t, j, rfl, hj, hP⟩
  · cases h

theorem planned_pinnedWorld {s₁ : Snapshot} {w₁ : World}
    (h : pinnedSession.Scans "r" (some .dependency) pinnedWorld s₁ w₁) :
    ∃ i : Issue, s₁.issues[0]? = some i ∧ i.stage = .planning := by
  obtain ⟨report, hscan⟩ := h
  have hcheck : comesTo (pinnedSession.store.load (pinnedSession.resolve "r") >>=
      pinnedSession.scanSnapshot (some .dependency)) pinnedWorld
      (fun r _ => r.1.issues[0]?.any fun i : Issue => decide (i.stage = .planning)) = true := by
    decide +kernel
  obtain ⟨⟨s, _⟩, w₁', hscan', hplanned⟩ := exists_of_comesTo hcheck
  rw [hscan] at hscan'
  cases hscan'
  obtain ⟨i, hi, hplanning⟩ := (Option.any_eq_true _ _).mp hplanned
  exact ⟨i, hi, of_decide_eq_true hplanning⟩

/-- A run over the pinned world applies the remedy of its issue and completes it. -/
theorem run_settles_pinnedWorld :
    ∃ t w', pinnedSession.run ["r"] (some .dependency) pinnedWorld = (.ok [t], w') ∧
      ∃ s₁ w₁ s₂ n w₂, pinnedSession.Scans "r" (some .dependency) pinnedWorld s₁ w₁ ∧
        pinnedSession.fixAll s₁ w₁ = (.ok (s₂, n), w₂) ∧
        ∃ i i₂ j : Issue, s₁.issues[0]? = some i ∧ i.stage = .planning ∧
          s₂.issues[0]? = some i₂ ∧ i₂.stage = .verifying ∧ t.issues[0]? = some j ∧
          j.stage = .complete ∧
          (i.check pinnedSession.settings.advisories w').1 = .ok .passed := by
  have hcheck : comesTo (pinnedSession.run ["r"] (some .dependency)) pinnedWorld
      (fun ts w' => w'.calls.isEmpty &&
        endsWith 0 (fun j => decide (j.stage = .complete)) ts) = true := by
    decide +kernel
  obtain ⟨ts, w', hrun, hcheck⟩ := exists_of_comesTo hcheck
  rw [Bool.and_eq_true, List.isEmpty_iff] at hcheck
  obtain ⟨hcalls, hends⟩ := hcheck
  obtain ⟨t, j, rfl, hj, hcomplete⟩ := exists_of_endsWith hends
  obtain ⟨s₁, w₁, s₂, n, w₂, hscan, hfix, hsettles⟩ := run_settles (by decide) hrun
  obtain ⟨i, hi, hplanning⟩ := planned_pinnedWorld hscan
  have halone : LeftAlone s₁ w₁ w' := by
    rintro i' - remedy file - ⟨c, hc, -⟩
    rw [hcalls, List.drop_nil] at hc
    cases hc
  obtain ⟨i₂, j', hi₂, hj', -, -, hiff⟩ := hsettles halone 0 i hi hplanning
  obtain rfl := Option.some.inj (hj.symm.trans hj')
  obtain ⟨hverifying, hpassed⟩ := hiff.mp (of_decide_eq_true hcomplete)
  exact ⟨t, w', hrun, s₁, w₁, s₂, n, w₂, hscan, hfix, i, i₂, j, hi, hplanning, hi₂, hverifying, hj,
    of_decide_eq_true hcomplete, hpassed⟩

/-- A session with two advisories on one manifest. -/
def twiceSession : Session :=
  { pinnedSession with settings := { Settings.default with advisories :=
      [⟨Advisory.defaultManifest, "a==1", "a==2", "a"⟩,
        ⟨Advisory.defaultManifest, "b==1", "b==2", "b"⟩] } }

/-- A world in which a manifest has both pins. -/
def twiceWorld : World :=
  { pinnedWorld with files :=
      ⟨[(["r"], .directory), (["r", "requirements.txt"], .file "a==1\nb==1\n".toUTF8)]⟩ }

/-- The remedy of the first of two issues on one manifest replaces both pins. So the second issue,
which was planned, ends as failed, although its check passes at the end. -/
theorem failed_while_passing :
    ∃ s₁ w₁ t w', twiceSession.Scans "r" (some .dependency) twiceWorld s₁ w₁ ∧
      twiceSession.run ["r"] (some .dependency) twiceWorld = (.ok [t], w') ∧ w'.calls = [] ∧
      ∃ i j : Issue, s₁.issues[1]? = some i ∧ i.id = "002" ∧ i.stage = .planning ∧
        t.issues[1]? = some j ∧ j.id = "002" ∧ j.stage = .failed ∧
        (j.check twiceSession.settings.advisories w').1 = .ok .passed := by
  -- the sort is not open to the kernel, so insertion stands in for it
  have hplanned : comesTo (twiceSession.store.load (twiceSession.resolve "r") >>=
      twiceSession.scanSnapshot (some .dependency)) twiceWorld
      (fun r _ => r.1.issues[1]?.any fun i : Issue =>
        decide (i.id = "002" ∧ i.stage = .planning)) = true := by
    unfold scanSnapshot trackFindings prioritize
    simp only [Issue.mergeSort_precedes]
    decide +kernel
  have hfailed : comesTo (twiceSession.run ["r"] (some .dependency)) twiceWorld
      (fun ts w' => w'.calls.isEmpty && endsWith 1 (fun j => decide (j.id = "002" ∧
        j.stage = .failed ∧
        (j.check twiceSession.settings.advisories w').1 = .ok .passed)) ts) = true := by
    rw [run_singleton]
    unfold runOne scanSnapshot trackFindings prioritize
    simp only [Issue.mergeSort_precedes]
    decide +kernel
  obtain ⟨⟨s₁, report⟩, w₁, hscan, hplanned⟩ := exists_of_comesTo hplanned
  obtain ⟨i, hi, hplanning⟩ := (Option.any_eq_true _ _).mp hplanned
  obtain ⟨ts, w', hrun, hcheck⟩ := exists_of_comesTo hfailed
  rw [Bool.and_eq_true, List.isEmpty_iff] at hcheck
  obtain ⟨hcalls, hends⟩ := hcheck
  obtain ⟨t, j, rfl, hj, hfailed⟩ := exists_of_endsWith hends
  obtain ⟨hid, hplanning⟩ := of_decide_eq_true hplanning
  exact ⟨s₁, w₁, t, w', ⟨report, hscan⟩, hrun, hcalls, i, j, hi, hid, hplanning, hj,
    of_decide_eq_true hfailed⟩

end Session

end RepoAudit
