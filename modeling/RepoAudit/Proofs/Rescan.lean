import Mathlib
import RepoAudit.Proofs.Analysis
import RepoAudit.Proofs.Rejection
import RepoAudit.Proofs.Session.Completion
import RepoAudit.Proofs.Session.Upkeep
import RepoAudit.Proofs.Snapshot.Legible
import RepoAudit.Proofs.Snapshot.Retracking

/-!
# Scanning again

A scan leaves a snapshot that is current: an issue stands for each finding, the issues are in order
of priority, and none waits for triage or for a plan. A scan of a current snapshot with the same
findings has nothing to do but to set instants. So when a scan succeeds and the repository is then
scanned again as it is, the second scan succeeds too, makes no issue, and leaves every issue where
and as it was. It loads what the first one saved, which it finds because the slug of the snapshot is
that of the repository.

## Main definitions

- `Snapshot.IsCurrent` — a scan with some findings has nothing to do
- `Session.viewed` — a repository as the analysis of a scan sees it
- `Session.foundBy` — what a scan of a repository finds
- `Session.FindsSame` — two worlds show a scan the same repository

## Main statements

- `Session.isCurrent_of_settle` — what a scan leaves is current
- `Session.settle_of_isCurrent` — what a scan does with what is current
- `Session.rescan_creates_nothing` — scanning a repository twice
- `Session.rescan_misfiledWorld` — a stored slug that is that of another repository
-/

namespace RepoAudit

open Act Snapshot FileTree Store

namespace Snapshot

variable {s t : Snapshot}

/-- A scan with some findings has nothing to do. -/
structure IsCurrent (findings : List Finding) (s : Snapshot) : Prop where
  /-- An issue stands for every finding. -/
  covers : ∀ f ∈ findings, s.Covers f
  /-- The issues are in order of priority. -/
  ordered : s.issues.Pairwise fun i j => i.precedes j = true
  /-- No issue waits for triage or for a plan. -/
  planned : ∀ i ∈ s.issues, i.stage ≠ .submitted ∧ i.stage ≠ .triaging

theorem IsCurrent.congr {findings : List Finding} (h : s.IsCurrent findings)
    (hissues : t.issues = s.issues) : t.IsCurrent findings := by
  refine ⟨fun f hf => ?_, ?_, ?_⟩
  · rw [Covers, hissues]
    exact h.covers f hf
  · rw [hissues]
    exact h.ordered
  · rw [hissues]
    exact h.planned

end Snapshot

namespace Session

variable {session : Session} {profile : Profile} {s t : Snapshot} {findings : List Finding}
  {tally : Tally} {w w' : World} {kind : Failure → Prop} {lawful : String × String → Prop}
  {W : Watch} {p : Prop}

/-! ## The parts of a scan -/

/-- What a scan does before its analysis. -/
def gather (session : Session) (s : Snapshot) : Act (Snapshot × RefreshOutcome) := do
  let (s, refresh) ← session.refresh s
  pure (← session.recordContext s, refresh)

/-- What a scan does with its findings. -/
def settle (session : Session) (profile : Profile) (findings : List Finding) (s : Snapshot) :
    Act (Snapshot × Tally) := do
  let (s, tally) ← trackFindings findings s
  let s ← session.store.log (scanLine profile tally) s
  let (s, _) ← session.triageAll s
  let (s, _) ← session.planAll s
  pure (s, tally)

theorem scanSnapshot_eq_ok {report : ScanReport} :
    session.scanSnapshot (some profile) s w = (.ok (t, report), w') ↔
      ∃ s₁ refresh w₁ s₂ findings w₂ tally, session.gather s w = (.ok (s₁, refresh), w₁) ∧
        session.analyze profile { s₁ with lastProfile := some profile } w₁ =
          (.ok (s₂, findings), w₂) ∧
        session.settle profile findings s₂ w₂ = (.ok (t, tally), w') ∧
        report = ⟨profile, refresh, tally⟩ := by
  constructor
  · intro h
    obtain ⟨⟨s₁, refresh⟩, w₁, hrefresh, h⟩ := run_bind_eq_ok.mp h
    obtain ⟨s₂, w₂, hcontext, h⟩ := run_bind_eq_ok.mp h
    obtain ⟨⟨s₃, findings⟩, w₃, hanalyze, h⟩ := run_bind_eq_ok.mp h
    obtain ⟨⟨s₄, tally⟩, w₄, htrack, h⟩ := run_bind_eq_ok.mp h
    obtain ⟨s₅, w₅, hlog, h⟩ := run_bind_eq_ok.mp h
    obtain ⟨⟨s₆, n⟩, w₆, htriage, h⟩ := run_bind_eq_ok.mp h
    obtain ⟨⟨s₇, m⟩, w₇, hplan, h⟩ := run_bind_eq_ok.mp h
    cases h
    refine ⟨s₂, refresh, w₂, s₃, findings, w₃, tally, ?_, hanalyze, ?_, rfl⟩
    · exact run_bind_eq_ok.mpr ⟨_, _, hrefresh, run_bind_eq_ok.mpr ⟨_, _, hcontext, rfl⟩⟩
    · refine run_bind_eq_ok.mpr ⟨_, _, htrack, run_bind_eq_ok.mpr ⟨_, _, hlog, ?_⟩⟩
      exact run_bind_eq_ok.mpr ⟨_, _, htriage, run_bind_eq_ok.mpr ⟨_, _, hplan, rfl⟩⟩
  · rintro ⟨s₂, refresh, w₂, s₃, findings, w₃, tally, hgather, hanalyze, hsettle, rfl⟩
    obtain ⟨⟨s₁, refresh⟩, w₁, hrefresh, h⟩ := run_bind_eq_ok.mp hgather
    obtain ⟨s₂, w₂, hcontext, h⟩ := run_bind_eq_ok.mp h
    cases h
    obtain ⟨⟨s₄, tally⟩, w₄, htrack, h⟩ := run_bind_eq_ok.mp hsettle
    obtain ⟨s₅, w₅, hlog, h⟩ := run_bind_eq_ok.mp h
    obtain ⟨⟨s₆, n⟩, w₆, htriage, h⟩ := run_bind_eq_ok.mp h
    obtain ⟨⟨s₇, m⟩, w₇, hplan, h⟩ := run_bind_eq_ok.mp h
    cases h
    refine run_bind_eq_ok.mpr ⟨_, _, hrefresh, run_bind_eq_ok.mpr ⟨_, _, hcontext, ?_⟩⟩
    refine run_bind_eq_ok.mpr ⟨_, _, hanalyze, run_bind_eq_ok.mpr ⟨_, _, htrack, ?_⟩⟩
    refine run_bind_eq_ok.mpr ⟨_, _, hlog, run_bind_eq_ok.mpr ⟨_, _, htriage, ?_⟩⟩
    exact run_bind_eq_ok.mpr ⟨_, _, hplan, rfl⟩

/-! ## What stays of a snapshot -/

theorem sameSetting_log {message : String} (h : session.store.log message s w = (.ok t, w')) :
    s.SameSetting t := by
  obtain ⟨log, rfl⟩ :=
    value_of_progress (permitsRepairs_any.toPermits.log message fun _ => trivial) h
  exact .withLog s log

theorem sameSetting_askTools {tools : List Tool} {found : List Finding}
    (h : session.askTools tools s w = (.ok (t, found), w')) : s.SameSetting t := by
  induction tools generalizing s w found with
  | nil =>
    cases h
    exact .refl _
  | cons tool tools ih =>
    obtain ⟨outcome, w₁, -, h⟩ := run_bind_eq_ok.mp h
    obtain ⟨s₁, w₂, hlog, h⟩ := run_bind_eq_ok.mp h
    obtain ⟨⟨s₂, rest⟩, w₃, hrest, h⟩ := run_bind_eq_ok.mp h
    cases h
    exact (sameSetting_log hlog).trans (ih hrest)

theorem sameSetting_analyze (h : session.analyze profile s w = (.ok (t, findings), w')) :
    s.SameSetting t := by
  obtain ⟨built, w₁, -, h⟩ := run_bind_eq_ok.mp h
  obtain ⟨tools, w₂, -, h⟩ := run_bind_eq_ok.mp h
  obtain ⟨⟨s₁, asked⟩, w₃, hasked, h⟩ := run_bind_eq_ok.mp h
  obtain ⟨s₂, w₄, hlog, h⟩ := run_bind_eq_ok.mp h
  cases h
  exact (sameSetting_askTools hasked).trans (sameSetting_log hlog)

theorem sameSetting_advance {index : Nat} {next : Stage}
    (h : session.advance index next s w = (.ok t, w')) : s.SameSetting t := by
  rw [advance] at h
  cases hi : s.issues[index]? with
  | none =>
    rw [hi] at h
    cases h
    exact .refl _
  | some i =>
    rw [hi] at h
    dsimp only at h
    by_cases hmove : i.stage.canMoveTo next = true
    · rw [if_pos hmove] at h
      obtain ⟨now, w₁, -, h⟩ := run_bind_eq_ok.mp h
      exact SameSetting.trans ⟨_, s.log, rfl⟩ (sameSetting_log h)
    · rw [if_neg hmove] at h
      cases h

theorem sameSetting_countSteps {step : Nat → Snapshot → Act (Snapshot × Bool)}
    (hstep : ∀ {index s r w w'}, step index s w = (.ok r, w') → s.SameSetting r.1)
    {places : List Nat} {n : Nat} (h : countSteps step places s w = (.ok (t, n), w')) :
    s.SameSetting t := by
  induction places generalizing s w n with
  | nil =>
    cases h
    exact .refl _
  | cons index rest ih =>
    obtain ⟨⟨s₁, counts⟩, w₁, hfirst, h⟩ := run_bind_eq_ok.mp h
    obtain ⟨⟨s₂, m⟩, w₂, hrest, h⟩ := run_bind_eq_ok.mp h
    cases h
    exact (hstep hfirst).trans (ih hrest)

theorem sameSetting_triageAll {n : Nat} (h : session.triageAll s w = (.ok (t, n), w')) :
    s.SameSetting t := by
  refine sameSetting_countSteps (fun hrun => ?_) h
  obtain ⟨s₁, w₁, hmove, hend⟩ := run_bind_eq_ok.mp hrun
  cases hend
  exact sameSetting_advance hmove

theorem sameSetting_planAll {n : Nat} (h : session.planAll s w = (.ok (t, n), w')) :
    s.SameSetting t := by
  refine sameSetting_countSteps (fun hrun => ?_) h
  obtain ⟨s₁, w₁, hmove, hend⟩ := run_bind_eq_ok.mp hrun
  cases hend
  exact SameSetting.trans ⟨_, _, rfl⟩ (sameSetting_advance hmove)

theorem sameIssues_gather (hW : session.Permits lawful W) (hs : p → lawful s.identity) :
    Keeps W p (session.gather s) fun r => s.SameIssues r.1 := by
  refine (sameIssues_refresh hW hs).bind fun r => ?_
  refine (sameIssues_recordContext hW fun h => h.2.identity_eq ▸ hs h.1).bind fun s₂ => ?_
  exact Keeps.pure fun h => h.1.2.trans h.2

/-- The instant of the last refresh is one that the clock showed. -/
theorem isValid_of_gather {refresh : RefreshOutcome} (hdays : w.ShowsDays)
    (h : session.gather s w = (.ok (t, refresh), w')) : ∀ i, t.lastRunAt = some i → i.isValid := by
  have hW : session.Permits (fun _ => True) (World.course w) := permitsRepairs_course.toPermits
  have hrefresh : Keeps (World.course w) True (session.refresh s)
      fun r => ∀ i, r.1.lastRunAt = some i → i.isValid := by
    refine (hW.log _ fun _ => trivial).bind fun s₁ => ?_
    refine (sameIssues_refreshFiles hW s₁).bind fun r => ?_
    refine (hW.log _ fun _ => trivial).bind fun s₃ => course_now.bind fun now => Keeps.pure ?_
    rintro ⟨-, n, rfl⟩ i hi
    cases hi
    exact hdays n
  obtain ⟨⟨s₁, _⟩, w₁, hrun, h⟩ := run_bind_eq_ok.mp h
  obtain ⟨s₂, w₂, hcontext, h⟩ := run_bind_eq_ok.mp h
  cases h
  obtain ⟨domain, w₃, -, hcontext⟩ := run_bind_eq_ok.mp hcontext
  obtain ⟨ecosystems, w₄, -, hcontext⟩ := run_bind_eq_ok.mp hcontext
  obtain ⟨s₃, w₅, hlog, hcontext⟩ := run_bind_eq_ok.mp hcontext
  cases hcontext
  have hkept := (sameSetting_log hlog).lastRunAt_eq
  intro i hi
  exact (hrefresh.run hrun trivial ⟨.refl _, rfl⟩ not_false).2 i (hkept ▸ hi)

/-- A root in which an ecosystem was detected is a directory. -/
theorem passes_of_gather {refresh : RefreshOutcome}
    (h : session.gather s w = (.ok (t, refresh), w')) :
    ∀ e ∈ t.ecosystems.getD [], w'.files.Passes w'.here t.root := by
  obtain ⟨⟨s₁, _⟩, w₁, -, h⟩ := run_bind_eq_ok.mp h
  obtain ⟨s₂, w₂, hcontext, h⟩ := run_bind_eq_ok.mp h
  cases h
  obtain ⟨domain, w₃, hdomain, hrest⟩ := run_bind_eq_ok.mp hcontext
  obtain ⟨ecosystems, w₄, hecosystems, hrest'⟩ := run_bind_eq_ok.mp hrest
  obtain ⟨s₃, w₅, hlog, hend⟩ := run_bind_eq_ok.mp hrest'
  rw [run_look] at hdomain hecosystems
  obtain ⟨-, rfl⟩ := Prod.mk.inj hdomain
  obtain ⟨hfound, rfl⟩ := Prod.mk.inj hecosystems
  obtain rfl := Except.ok.inj hfound
  obtain ⟨hahead, log, rfl⟩ := session.ahead_of_keeps (fun W hW => hW.log _ fun _ => trivial) hlog
  cases hend
  exact fun e he => hahead.passes (Ecosystem.passes_of_mem_detect he)

/-! ## Steps that never fail -/

theorem failsOnly_ofAct (success : RefreshOutcome) (act : Act Unit) :
    (RefreshOutcome.ofAct success act).FailsOnly kind := by
  rw [RefreshOutcome.ofAct]
  refine (FailsOnly.outcome act).bind fun result _ _ _ => ?_
  cases result with
  | ok _ => exact .pure _
  | error f => exact .pure _

theorem failsOnly_refreshFiles (s : Snapshot) : (session.refreshFiles s).FailsOnly kind := by
  have hremote : ∀ address target, (refreshRemote address target).FailsOnly kind := by
    intro address target
    have hthere : (Checkout.isAt target).FailsOnly kind :=
      FailsOnly.look fun files here => files.isPresent here (Checkout.mark target)
    refine hthere.bind fun there _ _ _ => ?_
    cases there <;> exact failsOnly_ofAct _ _
  have hlocal : ∀ path, (refreshLocal path).FailsOnly kind := by
    intro path
    rw [refreshLocal]
    refine (failsOnly_root? path).bind fun root _ _ _ => ?_
    cases root with
    | none => exact .pure _
    | some root => exact failsOnly_ofAct _ _
  rw [refreshFiles]
  split
  · have hpresent : (Act.isPresent (copyPath session.store.copies s.repository)).FailsOnly kind :=
      FailsOnly.look _
    refine (hremote _ _).bind fun outcome _ _ _ => hpresent.bind fun present _ _ _ => ?_
    cases present <;> exact .pure _
  · exact (hlocal _).bind fun outcome _ _ _ => .pure _

theorem failsOnly_gather (s : Snapshot) : (session.gather s).FailsOnly kind := by
  refine FailsOnly.bind ?_ fun r _ _ _ => FailsOnly.bind ?_ fun _ _ _ _ => .pure _
  · refine (failsOnly_log _ s).bind fun s₁ _ _ _ => ?_
    refine (failsOnly_refreshFiles s₁).bind fun r _ _ _ => ?_
    exact (failsOnly_log _ _).bind fun s₃ _ _ _ => FailsOnly.now.bind fun _ _ _ _ => .pure _
  · refine (FailsOnly.look _).bind fun domain _ _ _ => (FailsOnly.look _).bind fun _ _ _ _ => ?_
    exact (failsOnly_log _ _).bind fun _ _ _ _ => .pure _

theorem failsOnly_askTools (tools : List Tool) (s : Snapshot) :
    (session.askTools tools s).FailsOnly kind := by
  induction tools generalizing s with
  | nil => exact .pure _
  | cons tool tools ih =>
    refine FailsOnly.bind ?_ fun outcome _ _ _ => (failsOnly_log _ _).bind fun s₁ _ _ _ => ?_
    · refine (FailsOnly.start _ _ _).bind fun result _ _ _ => ?_
      split <;> exact .pure _
    · exact (ih s₁).bind fun _ _ _ _ => .pure _

theorem failsOnly_analyze (profile : Profile) (s : Snapshot) :
    (session.analyze profile s).FailsOnly kind := by
  refine (FailsOnly.look _).bind fun built _ _ _ => (FailsOnly.look _).bind fun tools _ _ _ => ?_
  refine (failsOnly_askTools _ _).bind fun r _ _ _ => ?_
  exact (failsOnly_log _ _).bind fun _ _ _ _ => .pure _

theorem failsOnly_stamp (findings : List Finding) : (stamp findings).FailsOnly kind := by
  induction findings with
  | nil => exact .pure _
  | cons f rest ih => exact FailsOnly.now.bind fun _ _ _ _ => ih.bind fun _ _ _ _ => .pure _

/-- A step that never fails has a value. -/
theorem exists_run {α : Type} (act : Act α) (h : act.FailsOnly fun _ => False) (w : World) :
    ∃ a w', act w = (.ok a, w') := by
  obtain ⟨a, ha⟩ := h.exists_ok w
  exact ⟨a, (act w).2, Prod.ext ha rfl⟩

/-! ## Findings and issues -/

theorem map_snd_stamp {stamped : List (Instant × Finding)}
    (h : stamp findings w = (.ok stamped, w')) : stamped.map Prod.snd = findings := by
  induction findings generalizing w stamped with
  | nil =>
    cases h
    rfl
  | cons f rest ih =>
    obtain ⟨now, w₁, -, h⟩ := run_bind_eq_ok.mp h
    obtain ⟨stamped', w₂, hrest, h⟩ := run_bind_eq_ok.mp h
    cases h
    rw [List.map_cons, ih hrest]

/-- A pass whose steps give what is wanted of an issue gives it to all issues that did not have it
already. -/
theorem keeps_places {step : Nat → Snapshot → Act (Snapshot × Bool)} {R : Issue → Issue → Prop}
    {P : String × String → Prop} {Q : Issue → Prop}
    (hstep : ∀ index s, Keeps W (P s.identity) (step index s)
      fun r => s.ChangedAt index R r.1)
    (hcore : ∀ i j, R i j → j.core = i.core) (hR : ∀ i j, R i j → Q j) (places : List Nat)
    (s : Snapshot) :
    Keeps W (P s.identity ∧ ∀ (k : Nat) (i : Issue), s.issues[k]? = some i → k ∉ places → Q i)
      (countSteps step places s) fun r => SameCores s r.1 ∧ ∀ i ∈ r.1.issues, Q i := by
  -- The invariant of the pass: an issue that has not what is wanted is at a place still to come.
  let awaits (places : List Nat) (t : Snapshot) : Prop :=
    P t.identity ∧ SameCores s t ∧
      ∀ (k : Nat) (i : Issue), t.issues[k]? = some i → k ∉ places → Q i
  refine (keeps_countSteps (P := awaits) (fun index rest t => ?_) places s).weaken
    (fun h => ⟨h.1, .refl s, h.2⟩) ?_
  · refine ((hstep index t).given And.left).weaken id ?_
    rintro r ⟨hlawful, hcores, hwait⟩ hr
    refine ⟨hr.identity_eq ▸ hlawful, hcores.trans (hr.sameCores hcore), fun k j hj => ?_⟩
    -- The place of the step is done, and at every other one nothing has changed.
    refine hr.forall_getElem? (P := fun k i => k ∉ index :: rest → Q i)
      (Q := fun k i => k ∉ rest → Q i) hwait (fun i j _ hij _ => hR i j hij) ?_ hj
    exact fun k i hk hi hrest => hi (by simp [hk, hrest])
  · rintro r - ⟨-, hcores, hall⟩
    refine ⟨hcores, fun i hi => ?_⟩
    obtain ⟨k, hk⟩ := List.mem_iff_getElem?.mp hi
    exact hall k i hk List.not_mem_nil

theorem placesAt_eq_nil {stage : Stage} (h : ∀ i ∈ s.issues, i.stage ≠ stage) :
    placesAt stage s = [] := by
  refine List.eq_nil_iff_forall_not_mem.mpr fun k hk => ?_
  have hlt : k < s.issues.length := List.mem_range.mp (List.mem_of_mem_filter hk)
  have hi := List.getElem?_eq_getElem hlt
  exact h _ (List.getElem_mem hlt) (stage_of_mem_placesAt hk hi)

/-- Triage and planning leave no issue that waits for them. -/
theorem planned_of_passes {u : Snapshot} {n m : Nat} {w₁ : World}
    (htriage : session.triageAll s w = (.ok (t, n), w₁))
    (hplan : session.planAll t w₁ = (.ok (u, m), w')) :
    SameCores s u ∧ ∀ i ∈ u.issues, i.stage ≠ .submitted ∧ i.stage ≠ .triaging := by
  have htriaged : Keeps (World.progress w) True (session.triageAll s)
      fun r => SameCores s r.1 ∧ ∀ i ∈ r.1.issues, i.stage ≠ .submitted := by
    refine (keeps_places (P := fun _ => True) (R := Issue.MovedTo .triaging) (fun index _ =>
      (changedAt_advance permitsRepairs_any.toPermits index .triaging id).bind
        fun _ => Keeps.pure And.right) (fun _ _ => Issue.MovedTo.core_eq)
      (fun _ _ hij => by rw [hij.stage_eq]; decide) _ s).given fun _ => ⟨trivial, ?_⟩
    intro k i hi hk hstage
    exact hk (hstage ▸ mem_placesAt hi)
  obtain ⟨hcores, hsubmitted⟩ := value_of_progress htriaged htriage
  have hplanned : Keeps (World.progress w₁) True (session.planAll t)
      fun r => SameCores t r.1 ∧ ∀ i ∈ r.1.issues, i.stage ≠ .submitted ∧ i.stage ≠ .triaging := by
    refine (keeps_places (P := fun _ => True) (R := Issue.Planned) (fun index _ =>
      (changedAt_planAt permitsRepairs_any.toPermits index id).bind
        fun _ => Keeps.pure And.right) (fun _ _ => Issue.Planned.core_eq)
      (fun _ _ hij => by rw [hij.stage_eq]; decide) _ t).given fun _ => ⟨trivial, ?_⟩
    refine fun k i hi hk => ⟨hsubmitted i (List.mem_of_getElem? hi), fun hstage => ?_⟩
    exact hk (hstage ▸ mem_placesAt hi)
  obtain ⟨hcores', hall⟩ := value_of_progress hplanned hplan
  exact ⟨hcores.trans hcores', hall⟩

/-- What a scan does with its findings, step by step. -/
theorem exists_of_settle (h : session.settle profile findings s w = (.ok (t, tally), w')) :
    ∃ stamped s₁, stamped.map Prod.snd = findings ∧ s.ingest stamped = .ok (s₁, tally) ∧
      SameCores s₁.prioritize t ∧ (∀ i ∈ t.issues, i.stage ≠ .submitted ∧ i.stage ≠ .triaging) ∧
      s.SameSetting t := by
  obtain ⟨⟨s₂, _⟩, w₁, htrack, h⟩ := run_bind_eq_ok.mp h
  obtain ⟨s₃, w₂, hlog, h⟩ := run_bind_eq_ok.mp h
  obtain ⟨⟨s₄, n⟩, w₃, htriage, h⟩ := run_bind_eq_ok.mp h
  obtain ⟨⟨s₅, m⟩, w₄, hplan, h⟩ := run_bind_eq_ok.mp h
  cases h
  obtain ⟨stamped, w₀, hstamp, htrack⟩ := run_bind_eq_ok.mp htrack
  cases hingest : s.ingest stamped with
  | error e =>
    rw [hingest] at htrack
    cases htrack
  | ok r =>
    obtain ⟨s₁, tally⟩ := r
    rw [hingest] at htrack
    cases htrack
    obtain ⟨hcores, hplanned⟩ := planned_of_passes htriage hplan
    obtain ⟨log, rfl⟩ :=
      value_of_progress (permitsRepairs_any.toPermits.log _ fun _ => trivial) hlog
    have hlogged : SameCores s₁.prioritize { s₁.prioritize with log := log } := ⟨rfl, rfl, rfl⟩
    refine ⟨stamped, s₁, map_snd_stamp hstamp, hingest, hlogged.trans hcores, hplanned, ?_⟩
    have hordered : s.SameSetting { s₁.prioritize with log := log } :=
      (SameSetting.of_ingest hingest).trans ⟨_, log, rfl⟩
    exact (hordered.trans (sameSetting_triageAll htriage)).trans (sameSetting_planAll hplan)

/-- What a scan leaves is current. -/
theorem isCurrent_of_settle (h : session.settle profile findings s w = (.ok (t, tally), w')) :
    t.IsCurrent findings := by
  obtain ⟨stamped, s₁, rfl, hingest, hcores, hplanned, -⟩ := exists_of_settle h
  refine ⟨fun f hf => ?_, pairwise_of_sameCores hcores (pairwise_prioritize s₁), hplanned⟩
  obtain ⟨stampedFinding, hmem, rfl⟩ := List.mem_map.mp hf
  refine (covers_ingest hingest _ hmem).of_cores fun i hi => ?_
  have hcore : i.core ∈ t.issues.map Issue.core := by
    rw [hcores.cores]
    exact List.mem_map_of_mem ((Tracked.prioritize_perm s₁).mem_iff.mpr hi)
  exact List.mem_map.mp hcore

/-- A scan has nothing to do with what is current but to set instants. -/
theorem settle_of_isCurrent (session : Session) (profile : Profile) (h : s.IsCurrent findings)
    (w : World) :
    ∃ t w', session.settle profile findings s w = (.ok (t, ⟨0, findings.length⟩), w') ∧
      List.Forall₂ Issue.Touched s.issues t.issues := by
  obtain ⟨stamped, w₁, hstamp⟩ := exists_run (stamp findings) (failsOnly_stamp findings) w
  have hmap := map_snd_stamp hstamp
  have hcovers : ∀ f ∈ stamped, s.Covers f.2 := fun f hf =>
    h.covers f.2 (hmap ▸ List.mem_map_of_mem hf)
  obtain ⟨issues, hingest, htouched⟩ := ingest_of_covers hcovers
  have hlength : stamped.length = findings.length := by rw [← hmap, List.length_map]
  have hcores : SameCores s { s with issues := issues } :=
    ⟨rfl, rfl, map_eq_of_forall₂ htouched fun _ _ _ hij => hij.core_eq⟩
  have hordered := prioritize_eq_self (pairwise_of_sameCores hcores h.ordered)
  have htrack : trackFindings findings s w =
      (.ok ({ s with issues := issues }, ⟨0, findings.length⟩), w₁) := by
    rw [trackFindings, run_bind, hstamp]
    dsimp only
    rw [hingest]
    dsimp only
    rw [hordered, hlength]
    rfl
  obtain ⟨s₂, w₂, hlog⟩ := exists_run (session.store.log (scanLine profile ⟨0, findings.length⟩)
    { s with issues := issues }) (failsOnly_log _ _) w₁
  obtain ⟨log, rfl⟩ :=
    value_of_progress (permitsRepairs_any.toPermits.log _ fun _ => trivial) hlog
  -- No issue waits for triage or for a plan, so both passes are over nothing.
  have hplanned : ∀ i ∈ issues, i.stage ≠ .submitted ∧ i.stage ≠ .triaging := by
    intro j hj
    obtain ⟨i, hi, hij⟩ := exists_of_forall₂ htouched hj
    rw [hij.stage_eq]
    exact h.planned i hi
  refine ⟨{ s with issues := issues, log := log }, w₂, ?_, htouched⟩
  rw [settle, run_bind, htrack]
  dsimp only
  rw [run_bind, hlog]
  dsimp only
  rw [triageAll, placesAt_eq_nil fun i hi => (hplanned i hi).1]
  show (session.planAll { s with issues := issues, log := log } >>= _) w₂ = _
  rw [planAll, placesAt_eq_nil fun i hi => (hplanned i hi).2]
  rfl

/-! ## Storing what a scan leaves -/

/-- A scan keeps the slug. -/
theorem slug_of_scanSnapshot {profile? : Option Profile} {report : ScanReport}
    (h : session.scanSnapshot profile? s w = (.ok (t, report), w')) : t.slug = s.slug := by
  have hpermits : session.Permits (fun _ => True) (World.progress w) :=
    permitsRepairs_progress.toPermits
  have hidentity := value_of_progress ((stepsBy_identity hpermits).scanSnapshot profile? id) h
  exact (Prod.mk.inj hidentity).2

/-- What a scan leaves can be stored in full if its lines are counters, and its slug is the one that
was loaded. -/
theorem isStorable_of_scanSnapshot {repository : String} {s₀ : Snapshot} {report : ScanReport}
    (hload : (session.store.load repository w).1 = .ok s₀) (hdays : w.ShowsDays)
    (hscan : session.scanSnapshot (some profile) s₀ w = (.ok (s, report), w'))
    (hlines : ∀ i ∈ s.issues, ∀ n, i.line = some n → n ≤ Text.maxCounter) : s.IsStorable := by
  have hloaded := isStorable_of_load hload
  have hevolves : s₀.Evolves s := by
    have hpermits : session.Permits (fun _ => True) (World.course w) :=
      permitsRepairs_course.toPermits
    have hshows : (World.course w).ShowsDays := fun _ => course_now.weaken id fun _ _ hnow => by
      obtain ⟨n, rfl⟩ := hnow
      exact hdays n
    exact (((stepsBy_evolves hpermits hshows).scanSnapshot (p := True) (some profile)
      fun _ => trivial).run hscan trivial ⟨.refl _, rfl⟩ not_false).2
  have hdated := hevolves.dated fun i hi =>
    ⟨(hloaded.issues i hi).createdAt, (hloaded.issues i hi).updatedAt⟩
  obtain ⟨s₁, refresh, w₁, s₂, findings, w₂, tally, hgather, hanalyze, hsettle, -⟩ :=
    scanSnapshot_eq_ok.mp hscan
  have hissues := value_of_progress
    (sameIssues_gather permitsRepairs_any.toPermits fun _ => trivial) hgather
  obtain ⟨hissues', hnormal⟩ := value_of_progress
    (sameIssues_analyze permitsRepairs_any.toPermits profile fun _ => trivial) hanalyze
  obtain ⟨stamped, s₃, hmap, hingest, hcores, -, hsetting⟩ := exists_of_settle hsettle
  -- The weaknesses of the issues that were loaded and those of the findings are read from tags.
  have hweaknesses : ∀ i ∈ s₃.issues, ∀ weakness,
      i.weakness = some weakness → weakness.IsNormal := by
    refine forall_mem_ingest (hissues'.forall_mem (hissues.forall_mem fun i hi weakness =>
      (hloaded.issues i hi).isNormal)) (fun _ _ h => h) (fun f hf _ _ => ?_) hingest
    exact hnormal f.2 (hmap ▸ List.mem_map_of_mem hf)
  refine ⟨fun i hi => ⟨fun weakness hweakness => ?_, hlines i hi, (hdated i hi).createdAt,
    (hdated i hi).updatedAt⟩, fun i hi => ?_⟩
  · have hcore : i.core ∈ s₃.prioritize.issues.map Issue.core :=
      hcores.cores ▸ List.mem_map_of_mem hi
    obtain ⟨j, hj, hij⟩ := List.mem_map.mp hcore
    refine ⟨weakness.tag, hweaknesses j ((Tracked.prioritize_perm s₃).mem_iff.mp hj) weakness ?_⟩
    rw [← hweakness]
    exact congrArg Issue.Core.weakness hij
  · have hlast : s.lastRunAt = s₁.lastRunAt :=
      hsetting.lastRunAt_eq.trans (sameSetting_analyze hanalyze).lastRunAt_eq
    exact isValid_of_gather hdays hgather i (hlast ▸ hi)

/-! ## Two scans -/

/-- A repository as the analysis of a scan sees it. -/
def viewed (session : Session) (repository : String) : Act Snapshot := do
  pure (← session.gather (← session.loadSnapshot repository)).1

/-- What a scan of a repository finds. -/
def foundBy (session : Session) (repository : String) (profile : Profile) :
    Act (List Finding) := do
  let s ← session.viewed repository
  pure (← session.analyze profile { s with lastProfile := some profile }).2

/-- Two worlds show a scan the same repository. -/
def FindsSame (session : Session) (repository : String) (w w' : World) : Prop :=
  ∀ s v s' v', session.viewed repository w = (.ok s, v) →
    session.viewed repository w' = (.ok s', v') → session.SameRepository s s' v v'

/-- The programs that a scan starts put nothing where the repository is saved. -/
def SparesSaved (session : Session) (repository : String) (profile? : Option Profile) (w : World) :
    Prop :=
  ∀ name ∈ savedNames, ¬World.Meddled
    (((session.store.directory (slugOf (session.resolve repository))).entry name).routeFrom w.here)
    w (session.scan repository profile? w).2.calls

variable {repository : String} {report : ScanReport}

theorem scan_eq_ok :
    session.scan repository (some profile) w = (.ok (s, report), w') ↔
      ∃ s₀ w₁, (session.store.load (session.resolve repository) w).1 = .ok s₀ ∧
        session.scanSnapshot (some profile) s₀ w = (.ok (s, report), w₁) ∧
        session.store.save s w₁ = (.ok (), w') := by
  constructor
  · intro h
    obtain ⟨s₀, w₀, hload, h⟩ := run_bind_eq_ok.mp h
    obtain ⟨⟨s₁, report₁⟩, w₁, hscan, h⟩ := run_bind_eq_ok.mp h
    obtain ⟨_, w₂, hsave, h⟩ := run_bind_eq_ok.mp h
    cases h
    obtain rfl : w₀ = w := by
      rw [← load_world session.store (session.resolve repository) w]
      exact (congrArg Prod.snd hload).symm
    exact ⟨s₀, w₁, congrArg Prod.fst hload, hscan, hsave⟩
  · rintro ⟨s₀, w₁, hload, hscan, hsave⟩
    refine run_bind_eq_ok.mpr ⟨s₀, w, Prod.ext hload (load_world _ _ _), ?_⟩
    exact run_bind_eq_ok.mpr ⟨_, _, hscan, run_bind_eq_ok.mpr ⟨_, _, hsave, rfl⟩⟩

/-- A scan ends in the world of its save. -/
theorem scan_world {s₀ : Snapshot} {w₁ : World}
    (hload : (session.store.load (session.resolve repository) w).1 = .ok s₀)
    (hscan : session.scanSnapshot (some profile) s₀ w = (.ok (s, report), w₁)) :
    (session.scan repository (some profile) w).2 = (session.store.save s w₁).2 := by
  refine (onSnapshot_world repository _ w).trans ?_
  unfold passWorld
  simp only [hload, hscan]

/-- The working directory and the programs stay as they are over a scan. -/
theorem follows_scan (h : session.scan repository (some profile) w = (.ok (s, report), w')) :
    World.Follows w w' := by
  obtain ⟨s₀, w₁, -, hscan, hsave⟩ := scan_eq_ok.mp h
  have hahead := (session.ahead_of_keeps (fun W hW =>
    (stepsBy_identity hW).scanSnapshot (some profile) fun _ => trivial) hscan).1
  exact hahead.toFollows.trans (follows_of_save hsave)

/-- A repository that was loaded and gathered is viewed so. -/
theorem viewed_eq_ok {s₀ s₁ : Snapshot} {refresh : RefreshOutcome} {w₁ : World}
    (hload : (session.store.load (session.resolve repository) w).1 = .ok s₀)
    (hgather : session.gather s₀ w = (.ok (s₁, refresh), w₁)) :
    session.viewed repository w = (.ok s₁, w₁) :=
  run_bind_eq_ok.mpr ⟨s₀, w, Prod.ext hload (load_world _ _ _),
    run_bind_eq_ok.mpr ⟨_, _, hgather, rfl⟩⟩

/-- A scan stores what it leaves, and with the slug of the repository it is loaded again. -/
theorem load_of_scan (hscan : session.scan repository (some profile) w = (.ok (s, report), w'))
    (hown : session.store.CarriesOwnSlug (session.resolve repository) w) (hdays : w.ShowsDays)
    (hlines : ∀ i ∈ s.issues, ∀ n, i.line = some n → n ≤ Text.maxCounter) :
    s.slug = slugOf (session.resolve repository) ∧
      session.store.load (session.resolve repository) w' = (.ok s, w') := by
  obtain ⟨s₀, v, hload, hsnapshot, hsave⟩ := scan_eq_ok.mp hscan
  have hslug := (slug_of_scanSnapshot hsnapshot).trans (hown.slug_eq hload)
  exact ⟨hslug, load_save (isStorable_of_scanSnapshot hload hdays hsnapshot hlines) hslug hsave⟩

/-- What a scan finds is what the analysis of the viewed repository finds. -/
theorem foundBy_eq_ok {a b : Snapshot} {findings : List Finding} {u v : World}
    (hviewed : session.viewed repository w = (.ok a, u))
    (hanalyze : session.analyze profile { a with lastProfile := some profile } u =
      (.ok (b, findings), v)) :
    (session.foundBy repository profile w).1 = .ok findings := by
  rw [foundBy, run_bind, hviewed]
  dsimp only
  rw [run_bind, hanalyze]
  rfl

/-- Two analyses find the same if the repository looks the same to both. -/
theorem findings_of_sameRepository {s₁ a a' b b' : Snapshot} {refresh refresh' : RefreshOutcome}
    {findings findings' : List Finding} {u u' v v' w₁ : World}
    (hgather : session.gather s w = (.ok (a, refresh), u))
    (hgather' : session.gather s₁ w₁ = (.ok (a', refresh'), u'))
    (hfollows : World.Follows w w₁) (hsame : session.SameRepository a a' u u')
    (hanalyze : session.analyze profile { a with lastProfile := some profile } u =
      (.ok (b, findings), v))
    (hanalyze' : session.analyze profile { a' with lastProfile := some profile } u' =
      (.ok (b', findings'), v')) : findings' = findings := by
  have hu := (session.ahead_of_keeps (fun W hW => sameIssues_gather hW fun _ => trivial) hgather).1
  have hu' :=
    (session.ahead_of_keeps (fun W hW => sameIssues_gather hW fun _ => trivial) hgather').1
  have hroot := passes_of_gather hgather
  have hroot' := passes_of_gather hgather'
  have hfirst : findings = session.findingsIn profile { a with lastProfile := some profile } u :=
    findings_of_analyze hroot hanalyze
  have hsecond :
      findings' = session.findingsIn profile { a' with lastProfile := some profile } u' :=
    findings_of_analyze hroot' hanalyze'
  rw [hfirst, hsecond]
  refine findingsIn_congr ⟨hsame.root, hsame.ecosystems, hsame.files⟩ ?_ ?_
  · rw [hu'.here, hfollows.here, hu.here]
  · rw [hu'.programs, hfollows.programs, hu.programs]

/-- A scan after one that was saved can be saved too if no program has put anything there. -/
theorem canSave_of_scanSnapshot {s₁ s₂ : Snapshot} {report₁ : ScanReport} {v₁ w₁ v : World}
    (hsave : session.store.save s₁ v₁ = (.ok (), w₁))
    (hslug : s₁.slug = slugOf (session.resolve repository))
    (hload : (session.store.load (session.resolve repository) w₁).1 = .ok s₁)
    (hscan : session.scanSnapshot (some profile) s₁ w₁ = (.ok (s₂, report₁), v))
    (hspares : session.SparesSaved repository (some profile) w₁) :
    session.store.CanSave s₂.slug v.here v.files := by
  have hfirst := CanSave.of_save hsave
  rw [hslug] at hfirst
  rw [slug_of_scanSnapshot hscan, hslug]
  refine hfirst.of_keeps (notMem_slugOf _) (fun W hW =>
    (stepsBy_identity hW).scanSnapshot (some profile) fun _ => hslug) hscan fun name hname => ?_
  have hclean := hspares name hname
  rw [scan_world hload hscan] at hclean
  exact clean_of_save Prod.mk.eta.symm hclean

/-- A second scan of a repository that has stayed the same makes no issue and leaves every issue as
the first one left it, but for the instants. -/
theorem rescan_creates_nothing {w₁ : World}
    (hscan : session.scan repository (some profile) w = (.ok (s, report), w₁))
    (hown : session.store.CarriesOwnSlug (session.resolve repository) w) (hdays : w.ShowsDays)
    (hlines : ∀ i ∈ s.issues, ∀ n, i.line = some n → n ≤ Text.maxCounter)
    (hsame : session.FindsSame repository w w₁)
    (hspares : session.SparesSaved repository (some profile) w₁) :
    ∃ (findings : List Finding) (s' : Snapshot) (report' : ScanReport) (w₂ : World),
      (session.foundBy repository profile w).1 = .ok findings ∧
      (session.foundBy repository profile w₁).1 = .ok findings ∧
      session.scan repository (some profile) w₁ = (.ok (s', report'), w₂) ∧
      report'.tally = ⟨0, findings.length⟩ ∧
      List.Forall₂ (fun i j => ∃ now, j = i.touch now) s.issues s'.issues := by
  -- The first scan saves a current snapshot, which is loaded back.
  obtain ⟨hslug, hreload⟩ := load_of_scan hscan hown hdays hlines
  have hreload₁ : (session.store.load (session.resolve repository) w₁).1 = .ok s :=
    congrArg Prod.fst hreload
  obtain ⟨s₀, v, hload, hsnapshot, hsave⟩ := scan_eq_ok.mp hscan
  obtain ⟨a, refresh, u, b, findings, v₁, tally, hgather, hanalyze, hsettle, -⟩ :=
    scanSnapshot_eq_ok.mp hsnapshot
  have hcurrent := isCurrent_of_settle hsettle
  -- The second scan gathers and analyzes the same repository, so it has the same findings.
  obtain ⟨⟨a', refresh'⟩, u', hgather'⟩ := exists_run (session.gather s) (failsOnly_gather s) w₁
  obtain ⟨⟨b', findings'⟩, v₁', hanalyze'⟩ := exists_run
    (session.analyze profile { a' with lastProfile := some profile }) (failsOnly_analyze _ _) u'
  have hviewed := viewed_eq_ok hload hgather
  have hviewed' := viewed_eq_ok hreload₁ hgather'
  obtain rfl : findings' = findings := findings_of_sameRepository hgather hgather'
    (follows_scan hscan) (hsame a u a' u' hviewed hviewed') hanalyze hanalyze'
  -- It finds the issues as the first one left them, so they are current.
  have hissues : b'.issues = s.issues := by
    have hgathered := value_of_progress
      (sameIssues_gather permitsRepairs_any.toPermits fun _ => trivial) hgather'
    have hanalyzed := value_of_progress
      (sameIssues_analyze permitsRepairs_any.toPermits profile fun _ => trivial) hanalyze'
    exact hanalyzed.1.issues.trans hgathered.issues
  obtain ⟨s', v', hsettle', htouched⟩ := session.settle_of_isCurrent profile
    (hcurrent.congr hissues) v₁'
  rw [hissues] at htouched
  have hsnapshot' : session.scanSnapshot (some profile) s w₁ =
      (.ok (s', ⟨profile, refresh', ⟨0, findings'.length⟩⟩), v') :=
    scanSnapshot_eq_ok.mpr ⟨a', refresh', u', b', findings', v₁', _, hgather', hanalyze', hsettle',
      rfl⟩
  -- It saves where the first one did, and nothing has come to stand there.
  obtain ⟨w₂, hsave'⟩ :=
    (canSave_of_scanSnapshot hsave hslug hreload₁ hsnapshot' hspares).exists_save
  exact ⟨findings', s', _, w₂, foundBy_eq_ok hviewed hanalyze, foundBy_eq_ok hviewed' hanalyze',
    scan_eq_ok.mpr ⟨s, v', hreload₁, hsnapshot', hsave'⟩, rfl, htouched⟩

theorem findsSame_of_comesTo {s₁ : Snapshot}
    (hload : (session.store.load (session.resolve repository) w).1 = .ok s)
    (hload' : (session.store.load (session.resolve repository) w').1 = .ok s₁)
    (h : comesTo (session.gather s) w (fun r v => comesTo (session.gather s₁) w' fun r' v' =>
      decide (session.SameRepository r.1 r'.1 v v')) = true) :
    session.FindsSame repository w w' := by
  intro t v t' v' hview hview'
  obtain ⟨⟨_, _⟩, _, hgather, h⟩ := exists_of_comesTo h
  obtain ⟨⟨_, _⟩, _, hgather', h⟩ := exists_of_comesTo h
  cases hview.symm.trans (viewed_eq_ok hload hgather)
  cases hview'.symm.trans (viewed_eq_ok hload' hgather')
  exact of_decide_eq_true h

theorem sparesSaved_of_isIdle {profile? : Option Profile} (h : w.IsIdle) :
    session.SparesSaved repository profile? w :=
  fun _ _ ⟨call, _, hcall⟩ => hcall (h.leavesAlone _ call)

theorem load_new_pinnedWorld :
    (pinnedSession.store.load (pinnedSession.resolve "r") pinnedWorld).1 =
      .ok (Snapshot.new "/r") := by
  have habsent : ¬pinnedWorld.files.isPresent pinnedWorld.here
      (pinnedSession.store.snapshotPath (slugOf "/r")) := by
    decide
  show (pinnedSession.store.load "/r" pinnedWorld).1 = _
  rw [run_load, if_neg habsent]

/-! The runs on fixed worlds are evaluated in parts. Reading a snapshot back from its bytes is left
to `load_of_scan` and `load_of_readBytes`, since evaluating it takes long. -/

theorem runs_pinnedWorld : comesTo (pinnedSession.scan "r" (some .dependency)) pinnedWorld
    (fun r w₁ => decide (r.2.tally = ⟨1, 0⟩) &&
      (r.1.issues.all (fun i => i.line.all (· ≤ Text.maxCounter)) &&
      comesTo (pinnedSession.gather (.new "/r")) pinnedWorld (fun a v =>
        comesTo (pinnedSession.gather r.1) w₁ fun a' v' =>
          decide (pinnedSession.SameRepository a.1 a'.1 v v')))) = true := by
  decide +kernel

/-- A repository with a vulnerable pin that is scanned twice. -/
theorem rescan_pinnedWorld :
    ∃ (findings : List Finding) (s s' : Snapshot) (report report' : ScanReport) (w₁ w₂ : World),
      pinnedSession.scan "r" (some .dependency) pinnedWorld = (.ok (s, report), w₁) ∧
      report.tally = ⟨1, 0⟩ ∧
      (pinnedSession.foundBy "r" .dependency w₁).1 = .ok findings ∧
      pinnedSession.scan "r" (some .dependency) w₁ = (.ok (s', report'), w₂) ∧
      report'.tally = ⟨0, findings.length⟩ ∧
      List.Forall₂ (fun i j => ∃ now, j = i.touch now) s.issues s'.issues := by
  obtain ⟨⟨s, report⟩, w₁, hscan, hruns⟩ := exists_of_comesTo runs_pinnedWorld
  obtain ⟨htally, hruns⟩ := Bool.and_eq_true_iff.mp hruns
  obtain ⟨hall, hsame⟩ := Bool.and_eq_true_iff.mp hruns
  have hlines : ∀ i ∈ s.issues, ∀ n, i.line = some n → n ≤ Text.maxCounter := by
    intro i hi n hn
    have hline := List.all_eq_true.mp hall i hi
    rw [hn] at hline
    exact of_decide_eq_true hline
  have hown : pinnedSession.store.CarriesOwnSlug (pinnedSession.resolve "r") pinnedWorld := by
    intro content text t hcontent
    rw [routeIn_pinnedWorld, fileAt_pinnedWorld] at hcontent
    cases hcontent
  obtain ⟨-, hload⟩ := load_of_scan hscan hown showsDays_pinnedWorld hlines
  have hload₁ := congrArg Prod.fst hload
  obtain ⟨findings, s', report', w₂, -, hfound, hscan', htally', htouched⟩ :=
    rescan_creates_nothing hscan hown showsDays_pinnedWorld hlines
      (findsSame_of_comesTo load_new_pinnedWorld hload₁ hsame)
      (sparesSaved_of_isIdle ((follows_scan hscan).isIdle isIdle_pinnedWorld))
  exact ⟨findings, s, s', report, report', w₁, w₂, hscan, of_decide_eq_true htally, hfound, hscan',
    htally', htouched⟩

/-- A snapshot of the pinned repository with the slug of another one. -/
def misfiledSnapshot : Snapshot := { Snapshot.new "/r" with slug := slugOf "/c" }

/-- The pinned world with that snapshot in its store. -/
def misfiledWorld : World :=
  { pinnedWorld with
    files := ⟨pinnedWorld.files.entries ++ [(["s"], .directory), (["s", "r"], .directory),
      (["s", "r", "issues.json"], .file misfiledSnapshot.write.toUTF8)]⟩ }

theorem load_misfiledWorld : pinnedSession.store.load (pinnedSession.resolve "r") misfiledWorld =
    (.ok misfiledSnapshot, misfiledWorld) :=
  load_of_lookup (r := ["s", "r", "issues.json"]) (by decide) rfl

theorem runs_misfiledWorld : comesTo (pinnedSession.scanSnapshot (some .dependency)
    misfiledSnapshot) misfiledWorld (fun r v => comesTo (pinnedSession.store.save r.1) v fun _ w₁ =>
      decide ((w₁.files.readBytes w₁.here
        (pinnedSession.store.snapshotPath (slugOf "/r"))).toOption =
          some misfiledSnapshot.write.toUTF8) &&
      (comesTo (pinnedSession.gather misfiledSnapshot) misfiledWorld (fun a v =>
        comesTo (pinnedSession.gather misfiledSnapshot) w₁ fun a' v' =>
          decide (pinnedSession.SameRepository a.1 a'.1 v v')) &&
      comesTo (pinnedSession.scanSnapshot (some .dependency) misfiledSnapshot) w₁ fun r' v' =>
        decide (r'.2.tally = ⟨1, 0⟩) &&
          comesTo (pinnedSession.store.save r'.1) v' fun _ w₂ => w₂.calls.isEmpty)) = true := by
  decide +kernel

/-- Saving follows the slug that was stored, and loading does not: a second scan loads what the
first one loaded, and makes its issue again. -/
theorem rescan_misfiledWorld :
    ∃ (s s' : Snapshot) (report report' : ScanReport) (w₁ w₂ : World),
      pinnedSession.scan "r" (some .dependency) misfiledWorld = (.ok (s, report), w₁) ∧
      pinnedSession.FindsSame "r" misfiledWorld w₁ ∧
      pinnedSession.scan "r" (some .dependency) w₁ = (.ok (s', report'), w₂) ∧
      w₂.calls = [] ∧ report'.tally = ⟨1, 0⟩ := by
  obtain ⟨⟨s, report⟩, v, hsnapshot, hruns⟩ := exists_of_comesTo runs_misfiledWorld
  obtain ⟨_, w₁, hsave, hruns⟩ := exists_of_comesTo hruns
  obtain ⟨hstored, hruns⟩ := Bool.and_eq_true_iff.mp hruns
  obtain ⟨hsame, hagain⟩ := Bool.and_eq_true_iff.mp hruns
  have hload := congrArg Prod.fst load_misfiledWorld
  have hload₁ : (pinnedSession.store.load (pinnedSession.resolve "r") w₁).1 =
      .ok misfiledSnapshot :=
    congrArg Prod.fst (load_of_readBytes (by decide) (of_decide_eq_true hstored))
  obtain ⟨⟨s', report'⟩, v', hsnapshot', hagain⟩ := exists_of_comesTo hagain
  obtain ⟨htally, hend⟩ := Bool.and_eq_true_iff.mp hagain
  obtain ⟨_, w₂, hsave', hcalls⟩ := exists_of_comesTo hend
  exact ⟨s, s', report, report', w₁, w₂, scan_eq_ok.mpr ⟨_, v, hload, hsnapshot, hsave⟩,
    findsSame_of_comesTo hload hload₁ hsame,
    scan_eq_ok.mpr ⟨_, v', hload₁, hsnapshot', hsave'⟩, List.isEmpty_iff.mp hcalls,
    of_decide_eq_true htally⟩

end Session

end RepoAudit
