import RepoAudit.Audit
import RepoAudit.Proofs.Lifecycle
import RepoAudit.Proofs.Scan.Findings

/-!
# The commands under a watch

Every command loads snapshots, takes its steps and saves. Under a watch that permits all of this,
what was seen is kept, and a snapshot that was loaded sound is saved sound.

## Main definitions

- `Session.PermitsCommands` — what the commands are made of is permitted
- `Session.Command`, `Session.perform` — the commands
- `Session.namedBy` — the repositories that a command works on
- `Session.KeepsPasses` — the passes over one repository keep what is watched

## Main statements

- `Session.keeps_scanSnapshot` — a scan keeps a snapshot sound
- `Session.keeps_perform` — a command keeps what is watched
-/

namespace RepoAudit

open Act Snapshot

namespace Session

variable {session : Session} {lawful : String × String → Prop} {fit named : String → Prop}
  {W : Watch} {p : Prop}

/-! ## Scanning -/

/-- Bringing the files of a repository up to date keeps its issues. -/
theorem sameIssues_refreshFiles (hW : session.Permits lawful W) (s : Snapshot) :
    Keeps W p (session.refreshFiles s) fun r => s.SameIssues r.1 := by
  rw [refreshFiles]
  split
  · refine (keeps_refreshRemote hW.letsStart _ _ fun p => hW.makeCopies p _).bind fun outcome =>
      (Keeps.look_any _).bind fun present => ?_
    split
    · exact Keeps.pure fun _ => ⟨rfl, rfl, rfl⟩
    · exact Keeps.pure fun _ => .refl s
  · exact (keeps_refreshLocal hW.letsStart _).bind fun outcome => Keeps.pure fun _ => .refl s

/-- So does refreshing it. -/
theorem sameIssues_refresh (hW : session.Permits lawful W) {s : Snapshot}
    (hs : p → lawful s.identity) :
    Keeps W p (session.refresh s) fun r => s.SameIssues r.1 := by
  refine (hW.log _ hs).bind fun s₁ => (sameIssues_refreshFiles hW s₁).bind fun r => ?_
  obtain ⟨s₂, outcome⟩ := r
  refine (hW.log _ ?_).bind fun s₃ => (hW.now _).bind fun now => Keeps.pure ?_
  · rintro ⟨⟨hp, log, rfl⟩, h⟩
    exact h.identity_eq ▸ hs hp
  · rintro ⟨⟨⟨⟨-, log, rfl⟩, h⟩, log', rfl⟩, -⟩
    exact ⟨h.repository, h.slug, h.issues⟩

/-- Recording the context of a repository keeps its issues. -/
theorem sameIssues_recordContext (hW : session.Permits lawful W) {s : Snapshot}
    (hs : p → lawful s.identity) :
    Keeps W p (session.recordContext s) s.SameIssues := by
  refine (Keeps.look_any _).bind fun domain => (Keeps.look_any _).bind fun ecosystems => ?_
  refine (hW.log _ fun h => hs h.1.1).bind fun t => Keeps.pure ?_
  rintro ⟨-, log, rfl⟩
  exact ⟨rfl, rfl, rfl⟩

theorem keeps_toolRun (hW : W.LetsStart) (root : Path) (t : Tool) :
    Keeps W p (t.run root) fun outcome => ∀ f ∈ outcome.findings, f.IsNormal := by
  refine (hW _ _ _ _).bind fun result => ?_
  split
  · exact Keeps.pure fun _ f hf => Tool.isNormal_of_mem_outcomeOf hf
  · exact Keeps.pure fun _ f hf => by cases hf
  · exact Keeps.pure fun _ f hf => by cases hf

theorem sameIssues_askTools (hW : session.Permits lawful W) (tools : List Tool) {s : Snapshot}
    (hs : p → lawful s.identity) :
    Keeps W p (session.askTools tools s)
      fun r => s.SameIssues r.1 ∧ ∀ f ∈ r.2, f.IsNormal := by
  induction tools generalizing s p with
  | nil => exact Keeps.pure fun _ => ⟨.refl s, by simp⟩
  | cons t ts ih =>
    refine (keeps_toolRun hW.letsStart _ t).bind fun outcome =>
      (hW.log _ fun h => hs h.1).bind fun s₁ => ?_
    refine (ih ?_).bind fun r => ?_
    · rintro ⟨⟨hp, -⟩, log, rfl⟩
      exact hs hp
    · obtain ⟨s₂, findings⟩ := r
      refine Keeps.pure ?_
      rintro ⟨⟨⟨-, houtcome⟩, log, rfl⟩, h, hfindings⟩
      refine ⟨⟨h.repository, h.slug, h.issues⟩, fun f hf => ?_⟩
      rcases List.mem_append.mp hf with hf | hf
      · exact houtcome f hf
      · exact hfindings f hf

/-- An analysis keeps the issues, and its findings have weaknesses that their tags are read as. -/
theorem sameIssues_analyze (hW : session.Permits lawful W) (profile : Profile) {s : Snapshot}
    (hs : p → lawful s.identity) :
    Keeps W p (session.analyze profile s)
      fun r => s.SameIssues r.1 ∧ ∀ f ∈ r.2, f.IsNormal := by
  refine (Keeps.look (Q := fun built => ∀ f ∈ built, f.IsNormal) _
    fun _ w _ f hf => Scan.isNormal_of_mem_findings hf).bind fun built => ?_
  refine (Keeps.look_any _).bind fun tools =>
    (sameIssues_askTools hW tools fun h => hs h.1.1).bind fun r => ?_
  obtain ⟨s₂, asked⟩ := r
  refine (hW.log _ ?_).bind fun s₃ => Keeps.pure ?_
  · rintro ⟨⟨⟨hp, -⟩, -⟩, h, -⟩
    exact h.identity_eq ▸ hs hp
  · rintro ⟨⟨⟨⟨-, hbuilt⟩, -⟩, h, hasked⟩, log, rfl⟩
    refine ⟨⟨h.repository, h.slug, h.issues⟩, fun f hf => ?_⟩
    rcases List.mem_append.mp hf with hf | hf
    · exact hbuilt f hf
    · exact hasked f hf

theorem keeps_stamp (hW : session.Permits lawful W) (findings : List Finding) :
    Keeps W p (stamp findings) fun stamped => ∀ f ∈ stamped, f.2 ∈ findings := by
  induction findings generalizing p with
  | nil => exact Keeps.pure fun _ => by simp
  | cons f fs ih =>
    refine (hW.now p).bind fun now => ih.bind fun stamped => Keeps.pure ?_
    rintro ⟨-, hstamped⟩ g hg
    rcases List.mem_cons.mp hg with rfl | hg
    · exact List.mem_cons_self
    · exact List.mem_cons_of_mem _ (hstamped g hg)

/-- Tracking findings in a sound snapshot leaves it in order, with its new issues submitted. -/
theorem keeps_trackFindings (hW : session.Permits lawful W) (findings : List Finding)
    (s : Snapshot) :
    Keeps W ((lawful s.identity ∧ s.Sound) ∧ ∀ f ∈ findings, f.IsNormal)
      (trackFindings findings s)
      fun r => lawful r.1.identity ∧ r.1.Ordered ∧ r.1.SettledOr (Issue.Untouched .submitted) := by
  refine (keeps_stamp hW findings).bind fun stamped => ?_
  cases hingest : s.ingest stamped with
  | error f => exact Keeps.fail _
  | ok r =>
    obtain ⟨t, tally⟩ := r
    refine Keeps.pure ?_
    rintro ⟨⟨⟨hlawful, hs⟩, hnormal⟩, hstamped⟩
    obtain ⟨htracked, hsettled⟩ := hs.toTracked.ingest
      (fun f hf => hnormal f.2 (hstamped f hf)) (fun i hi => .inl (hs.settled i hi)) hingest
    refine ⟨?_, htracked.ordered_prioritize, hsettled.prioritize⟩
    rw [identity_prioritize, identity_ingest hingest]
    exact hlawful

/-- A scan keeps a snapshot sound. -/
theorem keeps_scanSnapshot (hW : session.Permits lawful W) (profile? : Option Profile)
    (s : Snapshot) :
    Keeps W (lawful s.identity ∧ s.Sound) (session.scanSnapshot profile? s)
      fun r => lawful r.1.identity ∧ r.1.Sound := by
  refine (sameIssues_refresh hW And.left).bind fun r => ?_
  obtain ⟨s₁, refresh⟩ := r
  refine (sameIssues_recordContext hW fun h => h.2.identity_eq ▸ h.1.1).bind fun s₂ => ?_
  have hs₂ : ∀ profile : Profile,
      (((lawful s.identity ∧ s.Sound) ∧ s.SameIssues s₁) ∧ s₁.SameIssues s₂) →
        s.SameIssues { s₂ with lastProfile := some profile } := by
    rintro profile ⟨⟨-, h₁⟩, h₂⟩
    have h := h₁.trans h₂
    exact ⟨h.repository, h.slug, h.issues⟩
  refine (sameIssues_analyze hW _ fun h => (hs₂ _ h).identity_eq ▸ h.1.1.1).bind fun r => ?_
  obtain ⟨s₃, findings⟩ := r
  refine ((keeps_trackFindings hW findings s₃).given ?_).bind fun r => ?_
  · rintro ⟨h, h₃, hnormal⟩
    have hsame := (hs₂ _ h).trans h₃
    exact ⟨⟨hsame.identity_eq ▸ h.1.1.1, hsame.sound h.1.1.2⟩, hnormal⟩
  · obtain ⟨s₄, tally⟩ := r
    refine (hW.log _ fun h => h.2.1).bind fun s₅ => ?_
    refine ((keeps_triageAll hW s₅).given ?_).bind fun r => ?_
    · rintro ⟨⟨-, hlawful, hordered, hsubmitted⟩, log, rfl⟩
      have h₄ : s₄.SameIssues { s₄ with log := log } := ⟨rfl, rfl, rfl⟩
      exact ⟨hlawful, h₄.sameCores.ordered hordered, hsubmitted⟩
    · obtain ⟨s₆, triaged⟩ := r
      refine ((keeps_planAll hW s₆).given And.right).bind fun r => Keeps.pure And.right

/-! ## Commands -/

/-- What the commands of a session are made of keeps what is watched. A snapshot that is loaded for
a named repository is sound and has a lawful identity, and only such snapshots are saved. -/
structure PermitsCommands (session : Session) (lawful : String × String → Prop)
    (fit named : String → Prop) (W : Watch) : Prop extends
    session.PermitsRepairs lawful fit W where
  /-- The snapshot of a named repository may be loaded. -/
  load : ∀ (p : Prop) (repository : String), named repository →
    Keeps W p (session.store.load repository) fun s => lawful s.identity ∧ s.Sound
  /-- A sound snapshot with a lawful identity may be saved. -/
  save : ∀ (p : Prop) (s : Snapshot), (p → lawful s.identity ∧ s.Sound) →
    Keeps W p (session.store.save s) fun _ => True

/-- A step that keeps snapshots sound is permitted as a command on a named repository. -/
theorem keeps_onSnapshot (hW : session.PermitsCommands lawful fit named W) {α : Type}
    {step : Snapshot → Act (Snapshot × α)}
    (hstep : ∀ s, Keeps W (lawful s.identity ∧ s.Sound) (step s)
      fun r => lawful r.1.identity ∧ r.1.Sound)
    {repository : String} (hnamed : named (session.resolve repository)) :
    Keeps W p (session.onSnapshot repository step) fun _ => True := by
  refine (hW.load p _ hnamed).bind fun s => ((hstep s).given And.right).bind fun r => ?_
  obtain ⟨t, result⟩ := r
  exact (hW.save _ t And.right).bind fun _ => Keeps.pure fun _ => trivial

theorem keeps_runOne (hW : session.PermitsCommands lawful fit named W) (profile? : Option Profile)
    {repository : String} (hnamed : named (session.resolve repository)) :
    Keeps W p (session.runOne profile? repository) fun _ => True := by
  refine (hW.load p _ hnamed).bind fun s => ?_
  refine ((keeps_scanSnapshot hW.toPermits profile? s).given And.right).bind fun r => ?_
  obtain ⟨s₁, report⟩ := r
  refine ((keeps_fixAll hW.toPermitsRepairs s₁).given And.right).bind fun r => ?_
  obtain ⟨s₂, fixed⟩ := r
  refine ((keeps_verifyAll hW.toPermits s₂).given And.right).bind fun r => ?_
  obtain ⟨s₃, verified⟩ := r
  refine (hW.log _ fun h => h.2.1).bind fun s₄ => ?_
  refine ((hW.save _ s₄ ?_).mapFailure _).bind fun _ => Keeps.pure fun _ => trivial
  rintro ⟨⟨-, hlawful, hs⟩, log, rfl⟩
  have h₃ : s₃.SameIssues { s₃ with log := log } := ⟨rfl, rfl, rfl⟩
  exact ⟨hlawful, h₃.sound hs⟩

/-- Loading only looks at the files. -/
theorem keeps_look_load (st : Store) (repository : String) :
    Keeps W p (st.load repository) fun _ => True := by
  intro w
  rw [Store.load_world]
  exact ⟨id, fun _ hw => .inr ⟨hw, fun _ _ => trivial⟩⟩

theorem keeps_loadEach (repositories : List String) :
    Keeps W p (session.loadEach repositories) fun _ => True := by
  induction repositories generalizing p with
  | nil => exact Keeps.pure fun _ => trivial
  | cons r rs ih =>
    exact (keeps_look_load _ _).bind fun s => ih.bind fun _ => Keeps.pure fun _ => trivial

theorem keeps_repositories : Keeps W p session.store.repositories fun _ => True := by
  refine (Keeps.look_any _).bind fun listing => ?_
  split
  · exact Keeps.pure fun _ => trivial
  · exact Keeps.fail _
  · exact Keeps.look_any _

/-- Commands with repairs of fewer issues are permitted as well. -/
theorem PermitsCommands.restrict
    (hW : session.PermitsCommands lawful (fun _ => True) named W)
    (hnumbers : ∀ n, fit (Issue.idOf n)) : session.PermitsCommands lawful fit named W where
  toPermitsRepairs := hW.toPermitsRepairs.restrict hnumbers
  load := hW.load
  save := hW.save

/-- A second watch needs to permit saving alone, since loading only looks at the files. -/
theorem PermitsCommands.inter {W' : Watch} (hW : session.PermitsCommands lawful fit named W)
    (hW' : session.PermitsRepairs lawful fit W')
    (hsave : ∀ (p : Prop) (s : Snapshot), (p → lawful s.identity ∧ s.Sound) →
      Keeps W' p (session.store.save s) fun _ => True) :
    session.PermitsCommands lawful fit named (W.inter W') where
  toPermitsRepairs := hW.toPermitsRepairs.inter hW'
  load := fun p repository h =>
    ((hW.load p repository h).inter (keeps_look_load _ _)).weaken id fun _ _ h => h.1
  save := fun p s h => ((hW.save p s h).inter (hsave p s h)).weaken id fun _ _ _ => trivial

/-- What can be asked of the pipeline. -/
inductive Command where
  /-- To scan a repository. -/
  | scan (repository : String) (profile? : Option Profile)
  /-- To run over some repositories. -/
  | run (repositories : List String) (profile? : Option Profile)
  /-- To repair an issue of a repository. -/
  | fix (repository id : String)
  /-- To check an issue of a repository. -/
  | verify (repository id : String)
  /-- To commit an issue of a repository. -/
  | commit (repository id : String)
  /-- To list the issues of one repository, or of all. -/
  | status (repository? : Option String)

/-- Carries out a command, whatever it answers. -/
def perform (session : Session) : Command → Act Unit
  | .scan repository profile? => do
    let _ ← session.scan repository profile?
  | .run repositories profile? => do
    let _ ← session.run repositories profile?
  | .fix repository id => do
    let _ ← session.fix repository id
  | .verify repository id => do
    let _ ← session.verify repository id
  | .commit repository id => do
    let _ ← session.commit repository id
  | .status repository? => do
    let _ ← session.overview repository?

/-- The repositories whose snapshots a command changes. -/
def namedBy (session : Session) : Command → List String
  | .scan repository _ => [session.resolve repository]
  | .run repositories _ => repositories.map session.resolve
  | .fix repository _ => [session.resolve repository]
  | .verify repository _ => [session.resolve repository]
  | .commit repository _ => [session.resolve repository]
  | .status _ => []

/-- The passes over one repository keep what is watched. -/
structure KeepsPasses (session : Session) (W : Watch) (repository : String) : Prop where
  /-- A scan keeps it. -/
  scan : ∀ (p : Prop) (profile? : Option Profile),
    Keeps W p (session.scan repository profile?) fun _ => True
  /-- A run over the repository keeps it. -/
  run : ∀ (p : Prop) (profile? : Option Profile),
    Keeps W p (session.runOne profile? repository) fun _ => True
  /-- The repair of an issue keeps it. -/
  fix : ∀ (p : Prop) (id : String), Keeps W p (session.fix repository id) fun _ => True
  /-- The check of an issue keeps it. -/
  verify : ∀ (p : Prop) (id : String), Keeps W p (session.verify repository id) fun _ => True
  /-- The commit of an issue keeps it. -/
  commit : ∀ (p : Prop) (id : String), Keeps W p (session.commit repository id) fun _ => True

theorem keeps_runEach {profile? : Option Profile} {repositories : List String}
    (h : ∀ r ∈ repositories, session.KeepsPasses W r) :
    Keeps W p (session.runEach profile? repositories) fun _ => True := by
  induction repositories generalizing p with
  | nil => exact Keeps.pure fun _ => trivial
  | cons r rs ih =>
    obtain ⟨hfirst, hrest⟩ := List.forall_mem_cons.mp h
    exact (hfirst.run p profile?).bind fun s => (ih hrest).bind fun _ =>
      Keeps.pure fun _ => trivial

/-- A command keeps what the passes over its repositories keep. -/
theorem keeps_perform_of {c : Command}
    (h : ∀ r, session.resolve r ∈ session.namedBy c → session.KeepsPasses W r) :
    Keeps W p (session.perform c) fun _ => True := by
  cases c with
  | scan repository profile? =>
    exact ((h _ List.mem_cons_self).scan p profile?).bind fun _ => Keeps.pure fun _ => trivial
  | run repositories profile? =>
    refine Keeps.bind (Q := fun _ => True) ?_ fun _ => Keeps.pure fun _ => trivial
    rw [run]
    split
    · exact Keeps.fail _
    · exact keeps_runEach fun r hr => h r (List.mem_map_of_mem hr)
  | fix repository id =>
    exact ((h _ List.mem_cons_self).fix p id).bind fun _ => Keeps.pure fun _ => trivial
  | verify repository id =>
    exact ((h _ List.mem_cons_self).verify p id).bind fun _ => Keeps.pure fun _ => trivial
  | commit repository id =>
    exact ((h _ List.mem_cons_self).commit p id).bind fun _ => Keeps.pure fun _ => trivial
  | status repository? =>
    refine Keeps.bind (Q := fun _ => True) ?_ fun _ => Keeps.pure fun _ => trivial
    cases repository? with
    | none =>
      exact keeps_repositories.bind fun _ => (keeps_loadEach _).bind fun _ =>
        Keeps.pure fun _ => trivial
    | some r => exact (keeps_loadEach _).bind fun _ => Keeps.pure fun _ => trivial

/-- The passes over a named repository are permitted. -/
theorem PermitsCommands.keepsPasses (hW : session.PermitsCommands lawful fit named W)
    {repository : String} (hnamed : named (session.resolve repository)) :
    session.KeepsPasses W repository where
  scan := fun _ profile? => keeps_onSnapshot hW (keeps_scanSnapshot hW.toPermits profile?) hnamed
  run := fun _ profile? => keeps_runOne hW profile? hnamed
  fix := fun _ id => (keeps_onSnapshot hW (keeps_fixIssue hW.toPermitsRepairs id) hnamed).bind
    fun _ => Keeps.pure fun _ => trivial
  verify := fun _ id => by
    refine (keeps_onSnapshot hW (fun s => ?_) hnamed).bind fun _ => Keeps.pure fun _ => trivial
    refine (keeps_verifyIssue hW.toPermits id s).bind fun r => ?_
    obtain ⟨t, verdict⟩ := r
    dsimp only
    split
    · exact ((keeps_commitIssue hW.toPermits id t).given And.right).bind fun _ =>
        Keeps.pure And.right
    · exact Keeps.pure And.right
  commit := fun _ id => (keeps_onSnapshot hW (keeps_commitIssue hW.toPermits id) hnamed).bind
    fun _ => Keeps.pure fun _ => trivial

/-- A command that works on named repositories keeps what is watched. -/
theorem keeps_perform (hW : session.PermitsCommands lawful fit named W) {c : Command}
    (hnamed : ∀ r ∈ session.namedBy c, named r) :
    Keeps W p (session.perform c) fun _ => True :=
  keeps_perform_of fun _ hr => hW.keepsPasses (hnamed _ hr)

end Session

end RepoAudit
