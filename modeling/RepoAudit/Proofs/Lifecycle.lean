import RepoAudit.Lifecycle
import RepoAudit.Proofs.Session.Permits

/-!
# Steps and passes of the lifecycle

Each step on an issue is told by what it does to that issue. A pass takes a step at each of some
places, so what a step keeps of the issues that have passed and of those that still wait is kept by
the pass. All this holds under every watch that permits the session.

## Main definitions

- `Issue.MovedTo`, `Issue.FixTried`, `Issue.CheckTried` — what the steps do to an issue

## Main statements

- `Session.changedAt_fixAt`, `Session.changedAt_verifyAt` — the steps on one issue
- `Session.keeps_countSteps` — a pass over some places
- `Session.keeps_triageAll`, `Session.keeps_planAll`, `Session.keeps_fixAll`,
  `Session.keeps_verifyAll` — the passes of the commands
-/

namespace RepoAudit

namespace Issue

/-- An issue is at a stage or can move there. -/
def CanBeAt (stage : Stage) (i : Issue) : Prop :=
  i.stage = stage ∨ i.stage.canMoveTo stage = true

/-- An issue was moved to a stage. -/
def MovedTo (next : Stage) (i j : Issue) : Prop :=
  i.stage.canMoveTo next = true ∧ ∃ now, j = { i with stage := next, updatedAt := now }

/-- An issue was planned. -/
def Planned (i j : Issue) : Prop :=
  i.stage.canMoveTo .planning = true ∧ ∃ now, j =
    { i with plan := some (Remedy.planFor i.weakness), stage := .planning, updatedAt := now }

/-- An issue ended as failed, with a reason. -/
def GivenUp (i j : Issue) : Prop :=
  ∃ reason now, j = { i with stage := .failed, notes := some reason, updatedAt := now }

/-- A remedy was applied to an issue and its diff stored. -/
def Repaired (i j : Issue) : Prop :=
  ∃ artifact now, j =
    { i with stage := .verifying, artifact := some artifact, notes := none, updatedAt := now }

/-- What trying a remedy with some outcome does to an issue. -/
def Fixed : FixOutcome → Issue → Issue → Prop
  | .applied _, i, j => i.CanBeAt .fixing ∧ i.Repaired j
  | .notApplicable _, i, j => i.CanBeAt .fixing ∧ i.GivenUp j

/-- A remedy was tried on an issue: it was applied, or the issue failed. -/
def FixTried (i j : Issue) : Prop :=
  i.CanBeAt .fixing ∧ (i.Repaired j ∨ i.GivenUp j)

/-- What a check with some verdict does to an issue. -/
def Checked : Verdict → Issue → Issue → Prop
  | .passed, i, j => i.CanBeAt .verifying ∧ ∃ now, j = { i with stage := .complete, updatedAt := now }
  | .failed _, i, j => i.CanBeAt .verifying ∧ i.GivenUp j

/-- An issue was checked: it is complete, or it failed. -/
def CheckTried (i j : Issue) : Prop :=
  i.CanBeAt .verifying ∧
    ((∃ now, j = { i with stage := .complete, updatedAt := now }) ∨ i.GivenUp j)

theorem Fixed.fixTried {outcome : FixOutcome} {i j : Issue} (h : Fixed outcome i j) :
    i.FixTried j := by
  cases outcome with
  | applied artifact => exact ⟨h.1, .inl h.2⟩
  | notApplicable reason => exact ⟨h.1, .inr h.2⟩

theorem Checked.checkTried {verdict : Verdict} {i j : Issue} (h : Checked verdict i j) :
    i.CheckTried j := by
  cases verdict with
  | passed => exact ⟨h.1, .inl h.2⟩
  | failed reason => exact ⟨h.1, .inr h.2⟩

/-- A step on an issue keeps its core. -/
theorem MovedTo.core_eq {next : Stage} {i j : Issue} (h : i.MovedTo next j) : j.core = i.core := by
  obtain ⟨-, now, rfl⟩ := h
  rfl

theorem Planned.core_eq {i j : Issue} (h : i.Planned j) : j.core = i.core := by
  obtain ⟨-, now, rfl⟩ := h
  rfl

theorem FixTried.core_eq {i j : Issue} (h : i.FixTried j) : j.core = i.core := by
  obtain ⟨-, ⟨artifact, now, rfl⟩ | ⟨reason, now, rfl⟩⟩ := h <;> rfl

theorem CheckTried.core_eq {i j : Issue} (h : i.CheckTried j) : j.core = i.core := by
  obtain ⟨-, ⟨now, rfl⟩ | ⟨reason, now, rfl⟩⟩ := h <;> rfl

theorem rank_lt_of_canMoveTo {current next : Stage} (h : current.canMoveTo next = true) :
    current.rank < next.rank := by
  rw [Stage.canMoveTo, Bool.and_eq_true, decide_eq_true_eq] at h
  exact h.2

/-- A settled issue does not move to a stage before its planning. -/
theorem Settled.not_canMoveTo {i : Issue} (h : i.Settled) {next : Stage}
    (hnext : next.rank ≤ Stage.planning.rank) : i.stage.canMoveTo next = false := by
  rw [Bool.eq_false_iff]
  intro hmove
  have hrank := rank_lt_of_canMoveTo hmove
  have hplanning := h.planning_le_rank
  omega

theorem settled_of_planned {i j : Issue} (hi : i.Settled ∨ i.Untouched .triaging)
    (h : i.Planned j) : j.Settled := by
  obtain ⟨hmove, now, rfl⟩ := h
  rcases hi with hi | hi
  · rw [hi.not_canMoveTo (Nat.le_refl _)] at hmove
    cases hmove
  · exact ⟨.inl rfl, rfl, by simp [hi.notes], fun _ => hi.artifact, by simp⟩

theorem Settled.givenUp {i j : Issue} (hi : i.Settled) (h : i.GivenUp j) : j.Settled := by
  obtain ⟨reason, now, rfl⟩ := h
  exact ⟨.inr (.inr (.inr rfl)), hi.plan, by simp, by simp, by simp⟩

/-- Trying a remedy leaves a settled issue settled. -/
theorem Settled.fixTried {i j : Issue} (hi : i.Settled) (h : i.FixTried j) : j.Settled := by
  obtain ⟨-, ⟨artifact, now, rfl⟩ | hgiven⟩ := h
  · exact ⟨.inr (.inl rfl), hi.plan, by simp, by simp, by simp⟩
  · exact hi.givenUp hgiven

/-- Checking leaves a settled issue settled. -/
theorem Settled.checkTried {i j : Issue} (hi : i.Settled) (h : i.CheckTried j) : j.Settled := by
  obtain ⟨hstage, ⟨now, rfl⟩ | hgiven⟩ := h
  · have hfailed : i.stage ≠ .failed := by
      rintro heq
      rcases hstage with hstage | hstage
      · rw [heq] at hstage
        cases hstage
      · rw [heq] at hstage
        cases hstage
    have hnotes : i.notes.isSome = false := by
      rw [Bool.eq_false_iff]
      exact fun hsome => hfailed (hi.notes.mp hsome)
    exact ⟨.inr (.inr (.inl rfl)), hi.plan, by simp [hnotes], by simp, by simp⟩
  · exact hi.givenUp hgiven

/-- A remedy works on the file of its issue. -/
theorem file_eq_of_remedyAndFile {i : Issue} {remedy : Remedy} {file : Path}
    (h : i.remedyAndFile = .ok (remedy, file)) : i.file = some file := by
  rw [remedyAndFile] at h
  split at h
  · cases h
  · split at h
    · cases h
    · split at h
      · cases h
      · next hfile =>
        cases h
        exact hfile

end Issue

namespace Session

open Act Snapshot

variable {session : Session} {lawful : String × String → Prop} {fit : String → Prop} {W : Watch}
  {p : Prop}

/-- The watch over the snapshot files of a session's store. -/
abbrev watch (session : Session) (start : World) : Watch :=
  session.store.watch start

/-! ## Single steps -/

theorem changedAt_advance (hW : session.Permits lawful W) (index : Nat) (next : Stage)
    {s : Snapshot} (hs : p → lawful s.identity) :
    Keeps W p (session.advance index next s) (s.ChangedAt index (Issue.MovedTo next)) := by
  rw [advance]
  cases hi : s.issues[index]? with
  | none => exact Keeps.pure fun _ => .refl s fun i hi' => by simp [hi] at hi'
  | some i =>
    dsimp only
    split
    · next hmove =>
      refine (hW.now p).bind fun now => ?_
      refine (hW.log _ fun h => ?_).weaken id ?_
      · rw [identity_modifyIssue]
        exact hs h.1
      rintro _ - ⟨log, rfl⟩
      refine .modifyIssue s _ log fun i' hi' => ?_
      obtain rfl := Option.some.inj (hi.symm.trans hi')
      exact ⟨hmove, now, rfl⟩
    · exact Keeps.fail _

theorem changedAt_planAt (hW : session.Permits lawful W) (index : Nat) {s : Snapshot}
    (hs : p → lawful s.identity) :
    Keeps W p (session.planAt index s) (s.ChangedAt index Issue.Planned) := by
  have hplan : s.ChangedAt index
      (fun i j => j = { i with plan := some (Remedy.planFor i.weakness) })
      (s.modifyIssue index fun i => { i with plan := some (Remedy.planFor i.weakness) }) :=
    .modifyIssue s _ s.log fun i _ => rfl
  refine (changedAt_advance hW _ _ fun h => ?_).weaken id fun t _ ht => ?_
  · rw [hplan.identity_eq]
    exact hs h
  · refine (hplan.trans ht).mono ?_
    rintro i _ ⟨_, rfl, hmove, now, rfl⟩
    exact ⟨hmove, now, rfl⟩

/-- Ending an issue as failed. -/
theorem changedAt_giveUp (hW : session.Permits lawful W) (index : Nat) (line reason : String)
    {s : Snapshot} (hs : p → lawful s.identity) :
    Keeps W p (session.giveUp index line reason s) (s.ChangedAt index Issue.GivenUp) := by
  have hnotes : ∀ log, s.ChangedAt index (fun i j => j = { i with notes := some reason })
      { s.modifyIssue index fun i => { i with notes := some reason } with log := log } :=
    fun log => .modifyIssue s _ log fun i _ => rfl
  refine (hW.log _ fun h => ?_).bind fun logged => ?_
  · rw [identity_modifyIssue]
    exact hs h
  refine (changedAt_advance hW _ _ ?_).weaken id ?_
  · rintro ⟨hp, log, rfl⟩
    rw [identity_withLog, identity_modifyIssue]
    exact hs hp
  · rintro t ⟨-, log, rfl⟩ ht
    refine ((hnotes log).trans ht).mono ?_
    rintro i _ ⟨_, rfl, -, now, rfl⟩
    exact ⟨reason, now, rfl⟩

theorem changedAt_advanceUnlessAt (hW : session.Permits lawful W) (index : Nat) (next : Stage)
    {s : Snapshot} (hs : p → lawful s.identity) :
    Keeps W p (session.advanceUnlessAt index next s)
      (s.ChangedAt index fun i j =>
        i.CanBeAt next ∧ ∃ now, j = { i with stage := next, updatedAt := now }) := by
  rw [advanceUnlessAt]
  cases hi : s.issues[index]? with
  | none => exact Keeps.pure fun _ => .refl s fun i hi' => by simp [hi] at hi'
  | some i =>
    dsimp only
    split
    · next hstage =>
      refine Keeps.pure fun _ => .refl s fun i' hi' => ?_
      obtain rfl := Option.some.inj (hi.symm.trans hi')
      exact ⟨.inl hstage, i.updatedAt, by rw [← hstage]⟩
    · refine (changedAt_advance hW _ _ hs).weaken id fun t _ ht => ht.mono ?_
      rintro i' j ⟨hmove, now, rfl⟩
      exact ⟨.inr hmove, now, rfl⟩

/-- A repair keeps what is kept by writing the file of its issue and by storing its diff. -/
theorem keeps_repair_of {st : Store} {advisories : List Advisory} {i : Issue} {s : Snapshot}
    (hwrite : ∀ remedy file text, i.remedyAndFile = .ok (remedy, file) →
      remedy.appliesTo advisories file = true → Keeps W p (Act.writeText file text) fun _ => True)
    (hstore : ∀ diff, Keeps W p (st.writeArtifact s.slug i.id diff) fun _ => True) :
    Keeps W p (i.repair st advisories s) fun _ => True := by
  rw [Issue.repair]
  split
  · exact Keeps.pure fun _ => trivial
  · next remedy file htarget =>
    split
    · exact Keeps.pure fun _ => trivial
    · next happlies =>
      refine (Keeps.look_any _).bind fun result => ?_
      cases result with
      | error cause => exact Keeps.pure fun _ => trivial
      | ok text =>
        dsimp only
        split
        · exact Keeps.fail _
        · exact Keeps.pure fun _ => trivial
        · refine ((hwrite remedy file _ htarget (by simpa using happlies)).given And.left).bind
            fun written => ?_
          cases written with
          | error cause => exact Keeps.pure fun _ => trivial
          | ok _ =>
            exact ((hstore _).given fun h => h.1.1).bind fun _ => Keeps.pure fun _ => trivial

/-- Applying a remedy is permitted. -/
theorem keeps_repair (hW : session.PermitsRepairs lawful fit W) {i : Issue} {s : Snapshot}
    (hs : p → lawful s.identity) (hi : p → fit i.id) :
    Keeps W p (i.repair session.store session.settings.advisories s) fun _ => True :=
  keeps_repair_of (fun remedy file text _ happlies => hW.writeSource p remedy file text happlies)
    fun diff => hW.storeArtifact i.id diff hs hi

/-- What a repair comes to: nothing was done, or the file of the issue was written with what its
remedy made of it, and storing the diff is all that is left. -/
theorem repair_cases {st : Store} {advisories : List Advisory} {i : Issue} {s : Snapshot}
    {w w' : World} {result : Except Failure FixOutcome}
    (h : i.repair st advisories s w = (result, w')) :
    (((∃ reason, result = .ok (.notApplicable reason)) ∨ result = .error .misplacedCut) ∧ w' = w) ∨
      ∃ remedy file text changed files diff, i.remedyAndFile = .ok (remedy, file) ∧
        remedy.appliesTo advisories file = true ∧ w.files.readText w.here file = .ok text ∧
        remedy.transform advisories file text.toList = .ok (some changed) ∧
        w.files.write w.here file (String.ofList changed).toUTF8 = .ok files ∧
        (st.writeArtifact s.slug i.id diff >>= fun artifact => pure (FixOutcome.applied artifact))
          { w with files := files } = (result, w') := by
  rw [Issue.repair] at h
  cases htarget : i.remedyAndFile with
  | error reason =>
    rw [htarget] at h
    cases h
    exact .inl ⟨.inl ⟨_, rfl⟩, rfl⟩
  | ok target =>
    obtain ⟨remedy, file⟩ := target
    rw [htarget] at h
    dsimp only at h
    split at h
    · cases h
      exact .inl ⟨.inl ⟨_, rfl⟩, rfl⟩
    next happlies =>
    rw [run_bind, Act.readText, run_look] at h
    dsimp only at h
    cases htext : w.files.readText w.here file with
    | error cause =>
      rw [htext] at h
      cases h
      exact .inl ⟨.inl ⟨_, rfl⟩, rfl⟩
    | ok text =>
      rw [htext] at h
      dsimp only at h
      cases htransform : remedy.transform advisories file text.toList with
      | error cut =>
        rw [htransform] at h
        cases h
        exact .inl ⟨.inr rfl, rfl⟩
      | ok changed? =>
        rw [htransform] at h
        cases changed? with
        | none =>
          cases h
          exact .inl ⟨.inl ⟨_, rfl⟩, rfl⟩
        | some changed =>
          dsimp only at h
          rw [run_bind, Act.writeText, run_change] at h
          cases hwrite : w.files.write w.here file (String.ofList changed).toUTF8 with
          | error cause =>
            rw [hwrite] at h
            cases h
            exact .inl ⟨.inl ⟨_, rfl⟩, rfl⟩
          | ok files =>
            -- From here on the file is rewritten, whatever becomes of the diff.
            rw [hwrite] at h
            exact .inr ⟨remedy, file, text, changed, files, _, rfl, by simpa using happlies, htext,
              htransform, hwrite, h⟩

/-- A check looks at one file and changes nothing. -/
theorem check_world (advisories : List Advisory) (i : Issue) (w : World) :
    (i.check advisories w).2 = w := by
  rw [Issue.check]
  cases i.remedyAndFile with
  | error reason => rfl
  | ok target =>
    dsimp only
    rw [run_bind, Act.readText, run_look]
    cases w.files.readText w.here target.2 <;> rfl

/-- A check keeps everything, and its verdict is the one in any world that is seen. -/
theorem keeps_check (advisories : List Advisory) (i : Issue) {V : Verdict → Prop}
    (hV : p → ∀ w, W.holds w → ∀ verdict, (i.check advisories w).1 = .ok verdict → V verdict) :
    Keeps W p (i.check advisories) V := by
  intro w
  rw [check_world]
  exact ⟨id, fun hp hw => .inr ⟨hw, hV hp w hw⟩⟩

/-- Trying a remedy on the issue at a place, when repairing every issue with its core is permitted. -/
theorem fixedAt_fixAt_of (hW : session.Permits lawful W) (index : Nat) {s : Snapshot}
    (hs : p → lawful s.identity)
    (hrepair : ∀ (t : Snapshot) (j : Issue), Keeps W
      (p ∧ t.identity = s.identity ∧ ∃ i, s.issues[index]? = some i ∧ j.core = i.core)
      (j.repair session.store session.settings.advisories t) fun _ => True) :
    Keeps W p (session.fixAt index s) fun r => s.ChangedAt index (Issue.Fixed r.2) r.1 := by
  refine (changedAt_advanceUnlessAt hW index .fixing hs).bind fun s₁ => ?_
  cases hi : s₁.issues[index]? with
  | none => exact Keeps.pure fun h => h.2.of_eq_none hi
  | some i =>
    refine ((hrepair s₁ i).given ?_).bind fun outcome => ?_
    · rintro ⟨hp, h₁⟩
      refine ⟨hp, h₁.identity_eq, ?_⟩
      obtain ⟨i₀, hi₀, -, now, rfl⟩ := h₁.exists_before hi
      exact ⟨i₀, hi₀, rfl⟩
    cases outcome with
    | applied artifact =>
      have hrepair : ∀ log, s₁.ChangedAt index
          (fun i j => j = { i with artifact := some artifact, notes := none })
          { s₁.modifyIssue index fun i => { i with artifact := some artifact, notes := none } with
            log := log } :=
        fun log => .modifyIssue s₁ _ log fun i _ => rfl
      refine (hW.log _ ?_).bind fun logged => (changedAt_advance hW _ _ ?_).bind
        fun t => Keeps.pure ?_
      · rintro ⟨⟨hp, h₁⟩, -⟩
        rw [identity_modifyIssue, h₁.identity_eq]
        exact hs hp
      · rintro ⟨⟨⟨hp, h₁⟩, -⟩, log, rfl⟩
        rw [identity_withLog, identity_modifyIssue, h₁.identity_eq]
        exact hs hp
      · rintro ⟨⟨⟨⟨-, h₁⟩, -⟩, log, rfl⟩, ht⟩
        refine ((h₁.trans (hrepair log)).trans ht).mono ?_
        rintro i _ ⟨_, ⟨_, ⟨hstage, now, rfl⟩, rfl⟩, -, now', rfl⟩
        exact ⟨hstage, artifact, now', rfl⟩
    | notApplicable reason =>
      refine (changedAt_giveUp hW _ _ _ ?_).bind fun t => Keeps.pure ?_
      · rintro ⟨⟨hp, h₁⟩, -⟩
        exact h₁.identity_eq ▸ hs hp
      · rintro ⟨⟨⟨-, h₁⟩, -⟩, ht⟩
        refine (h₁.trans ht).mono ?_
        rintro i _ ⟨_, ⟨hstage, now, rfl⟩, reason', now', rfl⟩
        exact ⟨hstage, reason', now', rfl⟩

/-- Trying a remedy on the issue at a place. -/
theorem fixedAt_fixAt (hW : session.PermitsRepairs lawful fit W) (index : Nat) {s : Snapshot}
    (hs : p → lawful s.identity) (hfit : p → s.Fits fit) :
    Keeps W p (session.fixAt index s) fun r => s.ChangedAt index (Issue.Fixed r.2) r.1 := by
  refine fixedAt_fixAt_of hW.toPermits index hs fun t j => keeps_repair hW ?_ ?_
  · rintro ⟨hp, hidentity, -⟩
    exact hidentity ▸ hs hp
  · rintro ⟨hp, -, i, hi, hcore⟩
    have hid : j.id = i.id := congrArg Issue.Core.id hcore
    exact hid ▸ hfit hp i (List.mem_of_getElem? hi)

theorem changedAt_fixAt (hW : session.PermitsRepairs lawful fit W) (index : Nat) {s : Snapshot}
    (hs : p → lawful s.identity) (hfit : p → s.Fits fit) :
    Keeps W p (session.fixAt index s) fun r => s.ChangedAt index Issue.FixTried r.1 :=
  (fixedAt_fixAt hW index hs hfit).weaken id fun _ _ ht =>
    ht.mono fun _ _ => Issue.Fixed.fixTried

/-- Checking the issue at a place, when the verdict on every issue with its core is known. -/
theorem checkedAt_verifyAt (hW : session.Permits lawful W) (index : Nat) {s : Snapshot}
    (hs : p → lawful s.identity) {V : Verdict → Prop}
    (hV : ∀ i j : Issue, s.issues[index]? = some i → j.core = i.core → ∀ w, W.holds w →
      ∀ verdict, (j.check session.settings.advisories w).1 = .ok verdict → V verdict) :
    Keeps W p (session.verifyAt index s)
      fun r => s.ChangedAt index (fun i j => i.Checked r.2 j ∧ V r.2) r.1 := by
  refine (changedAt_advanceUnlessAt hW index .verifying hs).bind fun s₁ => ?_
  cases hj : s₁.issues[index]? with
  | none => exact Keeps.pure fun h => h.2.of_eq_none hj
  | some j =>
    refine (keeps_check (V := V) _ j ?_).bind fun verdict => ?_
    · rintro ⟨-, h₁⟩
      obtain ⟨i, hi, -, now, rfl⟩ := h₁.exists_before hj
      exact hV i _ hi rfl
    have hs₁ : (p ∧ s.ChangedAt index (fun i j => i.CanBeAt .verifying ∧
        ∃ now, j = { i with stage := .verifying, updatedAt := now }) s₁) ∧ V verdict →
        lawful s₁.identity := by
      rintro ⟨⟨hp, h₁⟩, -⟩
      exact h₁.identity_eq ▸ hs hp
    cases verdict with
    | passed =>
      refine (changedAt_advance hW _ _ hs₁).bind fun t => Keeps.pure ?_
      rintro ⟨⟨⟨-, h₁⟩, hverdict⟩, ht⟩
      refine (h₁.trans ht).mono ?_
      rintro i _ ⟨_, ⟨hstage, now, rfl⟩, -, now', rfl⟩
      exact ⟨⟨hstage, now', rfl⟩, hverdict⟩
    | failed reason =>
      refine (changedAt_giveUp hW _ _ _ hs₁).bind fun t => Keeps.pure ?_
      rintro ⟨⟨⟨-, h₁⟩, hverdict⟩, ht⟩
      refine (h₁.trans ht).mono ?_
      rintro i _ ⟨_, ⟨hstage, now, rfl⟩, reason', now', rfl⟩
      exact ⟨⟨hstage, reason', now', rfl⟩, hverdict⟩

theorem changedAt_verifyAt (hW : session.Permits lawful W) (index : Nat) {s : Snapshot}
    (hs : p → lawful s.identity) :
    Keeps W p (session.verifyAt index s) fun r => s.ChangedAt index Issue.CheckTried r.1 :=
  (checkedAt_verifyAt (V := fun _ => True) hW index hs fun _ _ _ _ _ _ _ _ => trivial).weaken id
    fun _ _ ht => ht.mono fun _ _ h => h.1.checkTried

/-- Committing changes the log alone. -/
theorem sameIssues_commitAt (hW : session.Permits lawful W) (index : Nat) {s : Snapshot}
    (hs : p → lawful s.identity) :
    Keeps W p (session.commitAt index s) fun r => s.SameIssues r.1 := by
  rw [commitAt]
  cases hi : s.issues[index]? with
  | none => exact Keeps.pure fun _ => .refl s
  | some i =>
    refine (keeps_commitIssue hW.letsStart s i).bind fun outcome => ?_
    refine (hW.log _ fun h => hs h.1).bind fun t => Keeps.pure ?_
    rintro ⟨-, log, rfl⟩
    exact ⟨rfl, rfl, rfl⟩

/-- Checking the issue at a place and committing it if it passes. -/
def verifyStep (session : Session) (index : Nat) (s : Snapshot) : Act (Snapshot × Bool) := do
  let (s, verdict) ← session.verifyAt index s
  if verdict.isPassed then pure ((← session.commitAt index s).1, true) else pure (s, false)

theorem verifyAll_eq (session : Session) (s : Snapshot) :
    session.verifyAll s = countSteps session.verifyStep (placesAt .verifying s) s := rfl

/-- A checked issue is told by its verdict, whether it is committed or not. -/
theorem checkedAt_verifyStep (hW : session.Permits lawful W) (index : Nat) {s : Snapshot}
    (hs : p → lawful s.identity) {V : Verdict → Prop}
    (hV : ∀ i j : Issue, s.issues[index]? = some i → j.core = i.core → ∀ w, W.holds w →
      ∀ verdict, (j.check session.settings.advisories w).1 = .ok verdict → V verdict) :
    Keeps W p (session.verifyStep index s)
      fun r => s.ChangedAt index (fun i j => ∃ verdict, i.Checked verdict j ∧ V verdict) r.1 := by
  refine (checkedAt_verifyAt hW index hs hV).bind fun r => ?_
  obtain ⟨t, verdict⟩ := r
  have hchecked : p ∧ s.ChangedAt index (fun i j => i.Checked verdict j ∧ V verdict) t →
      s.ChangedAt index (fun i j => ∃ verdict, i.Checked verdict j ∧ V verdict) t :=
    fun h => h.2.mono fun _ _ hij => ⟨verdict, hij⟩
  dsimp only
  split
  · refine (sameIssues_commitAt hW index fun h => ?_).bind fun r => Keeps.pure fun h => ?_
    · exact h.2.identity_eq ▸ hs h.1
    · exact (hchecked h.1).andSame h.2
  · exact Keeps.pure hchecked

theorem changedAt_verifyStep (hW : session.Permits lawful W) (index : Nat) {s : Snapshot}
    (hs : p → lawful s.identity) :
    Keeps W p (session.verifyStep index s) fun r => s.ChangedAt index Issue.CheckTried r.1 :=
  (checkedAt_verifyStep (V := fun _ => True) hW index hs fun _ _ _ _ _ _ _ _ => trivial).weaken id
    fun _ _ ht => ht.mono fun _ _ ⟨_, h, _⟩ => h.checkTried

/-- Trying a remedy on the issue at a place, and whether it was applied. -/
def fixStep (session : Session) (index : Nat) (s : Snapshot) : Act (Snapshot × Bool) := do
  let (s, outcome) ← session.fixAt index s
  pure (s, wasApplied outcome)

theorem fixAll_eq (session : Session) (s : Snapshot) :
    session.fixAll s = countSteps session.fixStep (placesAt .planning s) s := rfl

theorem changedAt_fixStep (hW : session.PermitsRepairs lawful fit W) (index : Nat) {s : Snapshot}
    (hs : p → lawful s.identity) (hfit : p → s.Fits fit) :
    Keeps W p (session.fixStep index s) fun r => s.ChangedAt index Issue.FixTried r.1 :=
  (changedAt_fixAt hW index hs hfit).bind fun _ => Keeps.pure And.right

/-! ## Passes -/

/-- A pass keeps what each of its steps keeps, told with the places that still wait. -/
theorem keeps_countSteps {step : Nat → Snapshot → Act (Snapshot × Bool)}
    {P : List Nat → Snapshot → Prop}
    (hstep : ∀ index rest s, Keeps W (P (index :: rest) s) (step index s) fun r => P rest r.1)
    (places : List Nat) (s : Snapshot) :
    Keeps W (P places s) (countSteps step places s) fun r => P [] r.1 := by
  induction places generalizing s with
  | nil => exact Keeps.pure fun h => h
  | cons index rest ih =>
    refine (hstep index rest s).bind fun r => ?_
    refine ((ih r.1).given And.right).bind fun r' => ?_
    exact Keeps.pure fun h => h.2

/-- A pass leaves alone what stands at other places. -/
theorem keeps_countSteps_others {step : Nat → Snapshot → Act (Snapshot × Bool)}
    {R : Issue → Issue → Prop}
    (hstep : ∀ index s, Keeps W (lawful s.identity) (step index s)
      fun r => s.ChangedAt index R r.1) {k : Nat} {places : List Nat} (hk : k ∉ places)
    (s : Snapshot) :
    Keeps W (lawful s.identity) (countSteps step places s)
      fun r => lawful r.1.identity ∧ r.1.issues[k]? = s.issues[k]? := by
  refine (keeps_countSteps (P := fun places t => k ∉ places ∧ lawful t.identity ∧
    t.issues[k]? = s.issues[k]?) (fun index rest t => ?_) places s).weaken
      (fun hs => ⟨hk, hs, rfl⟩) fun _ _ h => h.2
  refine ((hstep index t).given fun h => h.2.1).weaken id fun r h ht => ?_
  obtain ⟨hmem, hlawful, hissue⟩ := h
  rw [List.mem_cons, not_or] at hmem
  exact ⟨hmem.2, ht.identity_eq ▸ hlawful, (ht.others k hmem.1).trans hissue⟩

/-- A pass that succeeds takes its step once at each of its places. -/
theorem countSteps_eq_ok {step : Nat → Snapshot → Act (Snapshot × Bool)} {places : List Nat}
    {s t : Snapshot} {n : Nat} {w w' : World} {k : Nat}
    (h : countSteps step places s w = (.ok (t, n), w')) (hk : k ∈ places) (hnodup : places.Nodup) :
    ∃ before after s₁ n₁ w₁ s₂ counts w₂ n₂, k ∉ before ∧ k ∉ after ∧
      countSteps step before s w = (.ok (s₁, n₁), w₁) ∧
      step k s₁ w₁ = (.ok (s₂, counts), w₂) ∧
      countSteps step after s₂ w₂ = (.ok (t, n₂), w') := by
  induction places generalizing s n w with
  | nil => cases hk
  | cons index rest ih =>
    obtain ⟨hfirst, hrest⟩ := List.nodup_cons.mp hnodup
    obtain ⟨⟨s', counts⟩, w', hstep, hlater⟩ := run_bind_eq_ok.mp h
    obtain ⟨⟨t', n'⟩, w'', hlater, hend⟩ := run_bind_eq_ok.mp hlater
    cases hend
    by_cases hindex : k = index
    · subst hindex
      exact ⟨[], rest, s, 0, w, s', counts, w', n', List.not_mem_nil, hfirst, rfl, hstep, hlater⟩
    · obtain ⟨before, after, s₁, n₁, w₁, s₂, counts', w₂, n₂, hbefore, hafter, hrun, hother⟩ :=
        ih hlater ((List.mem_cons.mp hk).resolve_left hindex) hrest
      refine ⟨index :: before, after, s₁, if counts then n₁ + 1 else n₁, w₁, s₂, counts', w₂, n₂,
        ?_, hafter, ?_, hother⟩
      · rw [List.mem_cons, not_or]
        exact ⟨hindex, hbefore⟩
      · exact run_bind_eq_ok.mpr ⟨_, _, hstep, run_bind_eq_ok.mpr ⟨_, _, hrun, rfl⟩⟩

theorem nodup_placesAt (stage : Stage) (s : Snapshot) : (placesAt stage s).Nodup :=
  List.nodup_range.filter _

theorem stage_of_mem_placesAt {stage : Stage} {s : Snapshot} {k : Nat} {i : Issue}
    (h : k ∈ placesAt stage s) (hi : s.issues[k]? = some i) : i.stage = stage := by
  rw [placesAt, List.mem_filter, hi] at h
  simpa using h.2

theorem mem_placesAt {s : Snapshot} {k : Nat} {i : Issue} (h : s.issues[k]? = some i) :
    k ∈ placesAt i.stage s := by
  rw [placesAt, List.mem_filter, List.mem_range, h]
  exact ⟨(List.getElem?_eq_some_iff.mp h).1, by simp⟩

/-- A pass over the untouched issues at a stage, whose step brings each of them to `P`. -/
theorem keeps_pass {step : Nat → Snapshot → Act (Snapshot × Bool)} {stage : Stage}
    {R : Issue → Issue → Prop} {P : Issue → Prop}
    (hstep : ∀ index s, Keeps W (lawful s.identity) (step index s)
      fun r => s.ChangedAt index R r.1)
    (hcore : ∀ i j, R i j → j.core = i.core)
    (hR : ∀ i j, P i ∨ i.Untouched stage → R i j → P j) (s : Snapshot) :
    Keeps W (lawful s.identity ∧ s.Ordered ∧ ∀ i ∈ s.issues, P i ∨ i.Untouched stage)
      (countSteps step (placesAt stage s) s)
      fun r => lawful r.1.identity ∧ r.1.Ordered ∧ ∀ i ∈ r.1.issues, P i := by
  let waits (places : List Nat) (s : Snapshot) : Prop :=
    lawful s.identity ∧ s.Ordered ∧
      ∀ k i, s.issues[k]? = some i → P i ∨ k ∈ places ∧ i.Untouched stage
  refine (keeps_countSteps (P := waits) (fun index rest s => ?_) _ s).weaken ?_ ?_
  · refine ((hstep index s).given And.left).weaken id ?_
    rintro ⟨t, counts⟩ ⟨hlawful, hs, hwait⟩ ht
    refine ⟨ht.identity_eq ▸ hlawful, (ht.sameCores hcore).ordered hs, fun k j hj => ?_⟩
    refine ht.forall_getElem? (P := fun k i => P i ∨ k ∈ index :: rest ∧ i.Untouched stage)
      (Q := fun k i => P i ∨ k ∈ rest ∧ i.Untouched stage) hwait ?_ ?_ hj
    · rintro i j hi hij
      exact .inl (hR i j (hi.imp_right And.right) hij)
    · rintro k i hk (hi | ⟨hmem, hi⟩)
      · exact .inl hi
      · exact .inr ⟨(List.mem_cons.mp hmem).resolve_left hk, hi⟩
  · rintro ⟨hlawful, hs, hissues⟩
    refine ⟨hlawful, hs, fun k i hk =>
      (hissues i (List.mem_of_getElem? hk)).imp_right fun hi => ⟨?_, hi⟩⟩
    rw [← hi.stage]
    exact mem_placesAt hk
  · rintro ⟨t, n⟩ - ⟨hlawful, ht, hwait⟩
    refine ⟨hlawful, ht, fun i hi => ?_⟩
    obtain ⟨k, hk⟩ := List.mem_iff_getElem?.mp hi
    rcases hwait k i hk with hP | ⟨hmem, -⟩
    · exact hP
    · cases hmem

/-- The triage leaves no issue submitted. -/
theorem keeps_triageAll (hW : session.Permits lawful W) (s : Snapshot) :
    Keeps W (lawful s.identity ∧ s.Ordered ∧ s.SettledOr (Issue.Untouched .submitted))
      (session.triageAll s)
      fun r => lawful r.1.identity ∧ r.1.Ordered ∧ r.1.SettledOr (Issue.Untouched .triaging) := by
  refine (keeps_pass (P := fun i => i.Settled ∨ i.Untouched .triaging) (fun index s =>
    (changedAt_advance hW index .triaging id).bind fun t => Keeps.pure And.right)
    (fun _ _ => Issue.MovedTo.core_eq) ?_ s).given ?_
  · rintro i _ hi ⟨hmove, now, rfl⟩
    rcases hi with (hi | hi) | hi
    · rw [hi.not_canMoveTo (by decide)] at hmove
      cases hmove
    · rw [hi.stage] at hmove
      cases hmove
    · exact .inr ⟨rfl, hi.plan, hi.artifact, hi.notes⟩
  · rintro ⟨hlawful, hs, hissues⟩
    exact ⟨hlawful, hs, fun i hi => (hissues i hi).imp_left .inl⟩

/-- After the planning every issue is settled. -/
theorem keeps_planAll (hW : session.Permits lawful W) (s : Snapshot) :
    Keeps W (lawful s.identity ∧ s.Ordered ∧ s.SettledOr (Issue.Untouched .triaging))
      (session.planAll s) fun r => lawful r.1.identity ∧ r.1.Sound := by
  refine (keeps_pass (P := Issue.Settled) (fun index s =>
    (changedAt_planAt hW index id).bind fun t => Keeps.pure And.right)
    (fun _ _ => Issue.Planned.core_eq) (fun _ _ => Issue.settled_of_planned) s).weaken id ?_
  rintro r - ⟨hlawful, hordered, hsettled⟩
  exact ⟨hlawful, hordered, hsettled⟩

theorem sound_of_changedAt {index : Nat} {R : Issue → Issue → Prop} {s t : Snapshot} (hs : s.Sound)
    (h : s.ChangedAt index R t) (hcore : ∀ i j, R i j → j.core = i.core)
    (hR : ∀ i j, i.Settled → R i j → j.Settled) : t.Sound :=
  ⟨(h.sameCores hcore).ordered hs.toOrdered, h.forall_mem hs.settled hR⟩

theorem keeps_fixAt (hW : session.PermitsRepairs lawful fit W) (index : Nat) (s : Snapshot) :
    Keeps W (lawful s.identity ∧ s.Sound) (session.fixAt index s)
      fun r => lawful r.1.identity ∧ r.1.Sound :=
  (changedAt_fixAt hW index And.left fun h => h.2.toTracked.fits hW.numbers).weaken id fun _ hs ht =>
    ⟨ht.identity_eq ▸ hs.1, sound_of_changedAt hs.2 ht (fun _ _ => Issue.FixTried.core_eq)
      fun _ _ => Issue.Settled.fixTried⟩

theorem keeps_verifyAt (hW : session.Permits lawful W) (index : Nat) (s : Snapshot) :
    Keeps W (lawful s.identity ∧ s.Sound) (session.verifyAt index s)
      fun r => lawful r.1.identity ∧ r.1.Sound :=
  (changedAt_verifyAt hW index And.left).weaken id fun _ hs ht =>
    ⟨ht.identity_eq ▸ hs.1, sound_of_changedAt hs.2 ht (fun _ _ => Issue.CheckTried.core_eq)
      fun _ _ => Issue.Settled.checkTried⟩

theorem keeps_commitAt (hW : session.Permits lawful W) (index : Nat) (s : Snapshot) :
    Keeps W (lawful s.identity ∧ s.Sound) (session.commitAt index s)
      fun r => lawful r.1.identity ∧ r.1.Sound :=
  (sameIssues_commitAt hW index And.left).weaken id fun _ hs ht =>
    ⟨ht.identity_eq ▸ hs.1, ht.sound hs.2⟩

/-- Repairing every planned issue keeps a snapshot sound. -/
theorem keeps_fixAll (hW : session.PermitsRepairs lawful fit W) (s : Snapshot) :
    Keeps W (lawful s.identity ∧ s.Sound) (session.fixAll s)
      fun r => lawful r.1.identity ∧ r.1.Sound := by
  rw [fixAll_eq]
  refine keeps_countSteps (P := fun _ s => lawful s.identity ∧ s.Sound) (fun index _ s => ?_) _ s
  refine (changedAt_fixStep hW index And.left fun h => h.2.toTracked.fits hW.numbers).weaken id
    fun _ hs ht => ?_
  exact ⟨ht.identity_eq ▸ hs.1, sound_of_changedAt hs.2 ht (fun _ _ => Issue.FixTried.core_eq)
    fun _ _ => Issue.Settled.fixTried⟩

/-- Checking every repaired issue keeps a snapshot sound. -/
theorem keeps_verifyAll (hW : session.Permits lawful W) (s : Snapshot) :
    Keeps W (lawful s.identity ∧ s.Sound) (session.verifyAll s)
      fun r => lawful r.1.identity ∧ r.1.Sound := by
  rw [verifyAll_eq]
  refine keeps_countSteps (P := fun _ s => lawful s.identity ∧ s.Sound) (fun index _ s => ?_) _ s
  refine (changedAt_verifyStep hW index And.left).weaken id fun _ hs ht => ?_
  exact ⟨ht.identity_eq ▸ hs.1, sound_of_changedAt hs.2 ht (fun _ _ => Issue.CheckTried.core_eq)
    fun _ _ => Issue.Settled.checkTried⟩

/-! ## Single issues -/

theorem keeps_place (id : String) (s : Snapshot) :
    Keeps W p (place id s) fun _ => True := by
  rw [place]
  split
  · exact Keeps.pure fun _ => trivial
  · exact Keeps.fail _

/-- Repairing one issue keeps a snapshot sound. -/
theorem keeps_fixIssue (hW : session.PermitsRepairs lawful fit W) (id : String) (s : Snapshot) :
    Keeps W (lawful s.identity ∧ s.Sound) (session.fixIssue id s)
      fun r => lawful r.1.identity ∧ r.1.Sound := by
  refine (keeps_place id s).bind fun index => ?_
  cases hi : s.issues[index]? with
  | none => exact Keeps.pure And.left
  | some i =>
    dsimp only
    split
    · exact Keeps.fail _
    · split
      · next hrank =>
        refine (changedAt_planAt hW.toPermits index fun h => h.1.1).bind fun t => ?_
        refine (changedAt_fixAt hW index ?_ ?_).weaken (fun h => h) ?_
        · rintro ⟨⟨⟨hlawful, -⟩, -⟩, ht⟩
          exact ht.identity_eq ▸ hlawful
        · rintro ⟨⟨⟨-, hs⟩, -⟩, ht⟩
          exact ht.fits (hs.toTracked.fits hW.numbers) fun _ _ => Issue.Planned.core_eq
        · rintro r ⟨⟨⟨-, hs⟩, -⟩, -⟩ -
          have hplanning := (hs.settled i (List.mem_of_getElem? hi)).planning_le_rank
          omega
      · exact (keeps_fixAt hW index s).given And.left

/-- Checking one issue keeps a snapshot sound. -/
theorem keeps_verifyIssue (hW : session.Permits lawful W) (id : String) (s : Snapshot) :
    Keeps W (lawful s.identity ∧ s.Sound) (session.verifyIssue id s)
      fun r => lawful r.1.identity ∧ r.1.Sound := by
  refine (keeps_place id s).bind fun index => ?_
  cases hi : s.issues[index]? with
  | none => exact Keeps.pure And.left
  | some i =>
    dsimp only
    split
    · exact Keeps.fail _
    · exact (keeps_verifyAt hW index s).given And.left

/-- Committing one issue keeps a snapshot sound. -/
theorem keeps_commitIssue (hW : session.Permits lawful W) (id : String) (s : Snapshot) :
    Keeps W (lawful s.identity ∧ s.Sound) (session.commitIssue id s)
      fun r => lawful r.1.identity ∧ r.1.Sound :=
  (keeps_place id s).bind fun index => (keeps_commitAt hW index s).given And.left

end Session

end RepoAudit
