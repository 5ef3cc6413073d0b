import RepoAudit.Proofs.Session.Commands
import RepoAudit.Proofs.Snapshot.Edit
import RepoAudit.Proofs.Snapshot.Evolution

/-!
# Steps on a snapshot and the passes made of them

All that a command does to a snapshot between loading and saving it is made of a few single steps: a
message is logged, an issue is moved, its plan, its diff or its notes are changed, findings are
tracked, or the context of the repository is recorded. A relation in which each of these steps
stands, and which can be told of steps one after the other, holds of every pass. Only a check moves
an issue to its completion, so what relates the other moves relates all passes but checks.

## Main definitions

- `Session.StepsBy` — the single steps relate the snapshots before and after

## Main statements

- `Session.StepsBy.scanSnapshot`, `Session.StepsBy.fixAll`, `Session.StepsBy.verifyAll` — the passes
- `Session.StepsBy.fixIssue`, `Session.StepsBy.verifyIssue`, `Session.StepsBy.commitIssue` — the
  steps on one issue
- `Session.stepsBy_identity` — every pass keeps the identity of its snapshot
-/

namespace RepoAudit

open Act Snapshot

/-! ## Remarks -/

/-- A message about an issue that goes on with fixed words is a remark when these are not
capitalized. -/
theorem Snapshot.Remark.of_lead {s : Snapshot} {index : Nat} {i : Issue}
    (hi : s.issues[index]? = some i) {lead : String} {c : Char} {cs : List Char}
    (hlead : lead.toList = ':' :: ' ' :: c :: cs) (hc : c.isUpper = false) (rest : String) :
    s.Remark ("Issue " ++ i.id ++ lead ++ rest) := by
  have hmessage : "Issue " ++ i.id ++ lead ++ rest =
      "Issue " ++ i.id ++ ": " ++ String.ofList (c :: (cs ++ rest.toList)) := by
    apply String.toList_injective
    simp [hlead]
  rw [hmessage]
  refine .onIssue (List.mem_of_getElem? hi) fun c' hc' => ?_
  rw [String.toList_ofList] at hc'
  exact Option.some.inj hc' ▸ hc

/-- A message that begins with fixed words which are not those about an issue. -/
theorem Snapshot.Remark.of_start {s : Snapshot} {lead : String} {c : Char} {cs : List Char}
    (hlead : lead.toList = c :: cs) (hc : c ≠ 'I') (rest : String) : s.Remark (lead ++ rest) := by
  refine .general ?_
  rw [String.toList_append, hlead]
  exact fun h => hc (Option.some.inj h)

theorem Snapshot.getElem?_modifyIssue {s : Snapshot} {index : Nat} {f : Issue → Issue} {i : Issue}
    (hi : s.issues[index]? = some i) : (s.modifyIssue index f).issues[index]? = some (f i) := by
  rw [modifyIssue, List.getElem?_modify_eq, hi]
  rfl

/-- No outcome of a commit is told in words that begin as a stage is named. -/
theorem isUpper_summary (outcome : CommitOutcome) (c : Char)
    (h : outcome.summary.toList.head? = some c) : c.isUpper = false := by
  cases outcome with
  | committed => cases h; rfl
  | nothingToCommit => cases h; rfl
  | unversioned => cases h; rfl
  | failed reason =>
    delta CommitOutcome.summary at h
    rw [String.toList_append] at h
    cases h
    rfl

namespace Session

theorem remark_runLine (s : Snapshot) (report : ScanReport) (fixed verified : Nat) :
    s.Remark (runLine report fixed verified) := by
  delta runLine
  simp only [String.append_assoc]
  exact .of_start rfl (by decide) _

/-- Every single step of a session relates the snapshot before it to the one after it, whatever is
known, when issues are moved to the stages that are allowed. -/
structure StepsBy (session : Session) (lawful : String × String → Prop) (allowed : Stage → Prop)
    (W : Watch) (R : Snapshot → Snapshot → Prop) : Prop extends session.Permits lawful W where
  /-- Doing nothing is a step. -/
  refl : ∀ s, R s s
  /-- Steps can be taken one after the other. -/
  trans : ∀ {s t u}, R s t → R t u → R s u
  /-- A step keeps the repository and the directory of its snapshot. -/
  identity_eq : ∀ {s t}, R s t → t.identity = s.identity
  /-- Every stage but the completion is allowed. -/
  allowed_of_ne : ∀ stage, stage ≠ .complete → allowed stage
  /-- To log a remark is a step. -/
  remark : ∀ (p : Prop) (message : String) (s : Snapshot), (p → lawful s.identity) →
    (p → s.Remark message) → Keeps W p (session.store.log message s) (R s)
  /-- To move an issue to an allowed stage is a step. -/
  move : ∀ (p : Prop) (index : Nat) (next : Stage) (s : Snapshot), (p → lawful s.identity) →
    allowed next → Keeps W p (session.advance index next s) (R s)
  /-- To change what is neither told of an issue when it is tracked nor its stage is a step. -/
  note : ∀ (s : Snapshot) (index : Nat) (f : Issue → Issue), (∀ i, (f i).origin = i.origin ∧
    (f i).stage = i.stage ∧ (f i).updatedAt = i.updatedAt) → R s (s.modifyIssue index f)
  /-- To track findings is a step. -/
  track : ∀ (p : Prop) (findings : List Finding) (s : Snapshot),
    Keeps W p (trackFindings findings s) fun r => R s r.1
  /-- To change neither the issues nor the log is a step. -/
  context : ∀ {s t : Snapshot}, t.identity = s.identity → t.issues = s.issues → t.log = s.log →
    R s t

namespace StepsBy

variable {session : Session} {lawful : String × String → Prop} {allowed : Stage → Prop} {W : Watch}
  {R : Snapshot → Snapshot → Prop} {p : Prop} {s : Snapshot}

/-! ## Steps on an issue -/

theorem lawful_of (hR : session.StepsBy lawful allowed W R) (hs : p → lawful s.identity)
    {t : Snapshot} (h : p ∧ R s t) : lawful t.identity :=
  hR.identity_eq h.2 ▸ hs h.1

/-- A change of the plan, the diff or the notes of an issue, and what follows it. -/
theorem of_note (hR : session.StepsBy lawful allowed W R) {α : Type} {act : Act α}
    {g : α → Snapshot} (index : Nat) {f : Issue → Issue}
    (hf : ∀ i, (f i).origin = i.origin ∧ (f i).stage = i.stage ∧ (f i).updatedAt = i.updatedAt)
    (h : Keeps W p act fun a => R (s.modifyIssue index f) (g a)) :
    Keeps W p act fun a => R s (g a) :=
  h.weaken id fun _ _ ha => hR.trans (hR.note s index f hf) ha

theorem planAt (hR : session.StepsBy lawful allowed W R) (index : Nat)
    (hs : p → lawful s.identity) : Keeps W p (session.planAt index s) (R s) := by
  refine hR.of_note (g := fun t => t) index
    (f := fun i => { i with plan := some (Remedy.planFor i.weakness) }) (fun _ => ⟨rfl, rfl, rfl⟩)
    (hR.move _ index .planning _ (fun h => ?_) (hR.allowed_of_ne _ nofun))
  rw [identity_modifyIssue]
  exact hs h

/-- Ending an issue as failed, with a remark on the issue. -/
theorem giveUp (hR : session.StepsBy lawful allowed W R) (index : Nat) {line reason : String}
    (hs : p → lawful s.identity)
    (hline : p → (s.modifyIssue index fun i => { i with notes := some reason }).Remark line) :
    Keeps W p (session.giveUp index line reason s) (R s) := by
  refine hR.of_note (g := fun t => t) index (f := fun i => { i with notes := some reason })
    (fun _ => ⟨rfl, rfl, rfl⟩) ?_
  have hnoted : p → lawful (s.modifyIssue index fun i => { i with notes := some reason }).identity :=
    fun h => by
      rw [identity_modifyIssue]
      exact hs h
  refine (hR.remark _ _ _ hnoted hline).bind fun s₁ => ?_
  exact (hR.move _ index .failed _ (hR.lawful_of hnoted) (hR.allowed_of_ne _ nofun)).weaken id
    fun t h ht => hR.trans h.2 ht

theorem advanceUnlessAt (hR : session.StepsBy lawful allowed W R) (index : Nat) (next : Stage)
    (hs : p → lawful s.identity) (hnext : allowed next) :
    Keeps W p (session.advanceUnlessAt index next s) (R s) := by
  rw [Session.advanceUnlessAt]
  cases s.issues[index]? with
  | none => exact Keeps.pure fun _ => hR.refl s
  | some i =>
    dsimp only
    split
    · exact Keeps.pure fun _ => hR.refl s
    · exact hR.move p index next s hs hnext

theorem fixAt (hR : session.StepsBy lawful allowed W R)
    (hW : session.PermitsRepairs lawful (fun _ => True) W) (index : Nat)
    (hs : p → lawful s.identity) : Keeps W p (session.fixAt index s) fun r => R s r.1 := by
  refine (hR.advanceUnlessAt index .fixing hs
    (hR.allowed_of_ne _ nofun)).bind fun s₁ => ?_
  have hs₁ : p ∧ R s s₁ → lawful s₁.identity := hR.lawful_of hs
  cases hi : s₁.issues[index]? with
  | none => exact Keeps.pure And.right
  | some i =>
    refine (keeps_repair hW hs₁ fun _ => trivial).bind fun outcome => ?_
    cases outcome with
    | applied artifact =>
      refine Keeps.weaken (Q := fun r => R s₁ r.1) (p := (p ∧ R s s₁) ∧ True) ?_
        id fun r h hr => hR.trans h.1.2 hr
      refine hR.of_note (g := Prod.fst) index
        (f := fun i => { i with artifact := some artifact, notes := none })
        (fun _ => ⟨rfl, rfl, rfl⟩) ?_
      have hnoted : (p ∧ R s s₁) ∧ True → lawful (s₁.modifyIssue index fun i =>
          { i with artifact := some artifact, notes := none }).identity := fun h => by
        rw [identity_modifyIssue]
        exact hs₁ h.1
      refine (hR.remark _ _ _ hnoted fun _ =>
        .of_lead (getElem?_modifyIssue hi) rfl rfl _).bind fun s₂ => ?_
      exact (hR.move _ index .verifying _ (hR.lawful_of hnoted)
        (hR.allowed_of_ne _ nofun)).bind fun t => Keeps.pure fun h => hR.trans h.1.2 h.2
    | notApplicable reason =>
      exact (hR.giveUp index (fun h => hs₁ h.1) fun _ =>
        .of_lead (getElem?_modifyIssue hi) rfl rfl _).bind fun t =>
          Keeps.pure fun h => hR.trans h.1.1.2 h.2

/-- A check is made of steps when all stages are allowed. -/
theorem verifyAt (hR : session.StepsBy lawful allowed W R) (hall : allowed .complete)
    (index : Nat) (hs : p → lawful s.identity) :
    Keeps W p (session.verifyAt index s) fun r => R s r.1 := by
  refine (hR.advanceUnlessAt index .verifying hs
    (hR.allowed_of_ne _ nofun)).bind fun s₁ => ?_
  have hs₁ : p ∧ R s s₁ → lawful s₁.identity := hR.lawful_of hs
  cases hi : s₁.issues[index]? with
  | none => exact Keeps.pure And.right
  | some i =>
    refine (keeps_check (V := fun _ => True) _ i fun _ _ _ _ _ => trivial).bind fun verdict => ?_
    cases verdict with
    | passed =>
      exact (hR.move _ index .complete _ (fun h => hs₁ h.1) hall).bind fun t =>
        Keeps.pure fun h => hR.trans h.1.1.2 h.2
    | failed reason =>
      exact (hR.giveUp index (fun h => hs₁ h.1) fun _ =>
        .of_lead (getElem?_modifyIssue hi) rfl rfl _).bind fun t =>
          Keeps.pure fun h => hR.trans h.1.1.2 h.2

theorem commitAt (hR : session.StepsBy lawful allowed W R) (index : Nat)
    (hs : p → lawful s.identity) : Keeps W p (session.commitAt index s) fun r => R s r.1 := by
  rw [Session.commitAt]
  cases hi : s.issues[index]? with
  | none => exact Keeps.pure fun _ => hR.refl s
  | some i =>
    refine (RepoAudit.keeps_commitIssue hR.letsStart s i).bind fun outcome => ?_
    refine (hR.remark _ _ _ (fun h => hs h.1) fun _ => ?_).bind fun t => Keeps.pure And.right
    exact .onIssue (List.mem_of_getElem? hi) (isUpper_summary outcome)

/-! ## Passes -/

/-- A pass whose step is made of steps is made of steps. -/
theorem countSteps (hR : session.StepsBy lawful allowed W R)
    {step : Nat → Snapshot → Act (Snapshot × Bool)}
    (hstep : ∀ index s, Keeps W (lawful s.identity) (step index s) fun r => R s r.1)
    (places : List Nat) (hs : p → lawful s.identity) :
    Keeps W p (countSteps step places s) fun r => R s r.1 := by
  refine (keeps_countSteps (P := fun _ t => lawful t.identity ∧ R s t)
    (fun index _ t => ?_) places s).weaken (fun h => ⟨hs h, hR.refl s⟩) fun r _ h => h.2
  exact ((hstep index t).given And.left).weaken id fun r h hr =>
    ⟨hR.identity_eq hr ▸ h.1, hR.trans h.2 hr⟩

theorem triageAll (hR : session.StepsBy lawful allowed W R) (hs : p → lawful s.identity) :
    Keeps W p (session.triageAll s) fun r => R s r.1 :=
  hR.countSteps (fun index _ => (hR.move _ index .triaging _ (fun h => h)
    (hR.allowed_of_ne _ nofun)).bind fun _ => Keeps.pure And.right) _ hs

theorem planAll (hR : session.StepsBy lawful allowed W R) (hs : p → lawful s.identity) :
    Keeps W p (session.planAll s) fun r => R s r.1 :=
  hR.countSteps (fun index _ =>
    (hR.planAt index fun h => h).bind fun _ => Keeps.pure And.right) _ hs

theorem fixAll (hR : session.StepsBy lawful allowed W R)
    (hW : session.PermitsRepairs lawful (fun _ => True) W) (hs : p → lawful s.identity) :
    Keeps W p (session.fixAll s) fun r => R s r.1 :=
  hR.countSteps (fun index _ =>
    (hR.fixAt hW index fun h => h).bind fun _ => Keeps.pure And.right) _ hs

theorem verifyAll (hR : session.StepsBy lawful allowed W R) (hall : allowed .complete)
    (hs : p → lawful s.identity) : Keeps W p (session.verifyAll s) fun r => R s r.1 := by
  refine hR.countSteps (fun index s => ?_) _ hs
  refine (hR.verifyAt hall index fun h => h).bind fun r => ?_
  obtain ⟨t, verdict⟩ := r
  dsimp only
  split
  · exact (hR.commitAt index (hR.lawful_of id)).bind fun r =>
      Keeps.pure fun h => hR.trans h.1.2 h.2
  · exact Keeps.pure And.right

/-! ## Scanning -/

theorem refreshFiles (hR : session.StepsBy lawful allowed W R) (s : Snapshot) :
    Keeps W p (session.refreshFiles s) fun r => R s r.1 := by
  rw [Session.refreshFiles]
  split
  · refine (keeps_refreshRemote hR.letsStart _ _ fun p => hR.makeCopies p _).bind fun outcome =>
      (Keeps.look_any _).bind fun present => ?_
    split
    · exact Keeps.pure fun _ => hR.context rfl rfl rfl
    · exact Keeps.pure fun _ => hR.refl s
  · exact (keeps_refreshLocal hR.letsStart _).bind fun outcome => Keeps.pure fun _ => hR.refl s

theorem refresh (hR : session.StepsBy lawful allowed W R) (hs : p → lawful s.identity) :
    Keeps W p (session.refresh s) fun r => R s r.1 := by
  refine (hR.remark _ _ _ hs fun _ => .of_start rfl (by decide) _).bind fun s₁ => ?_
  refine (hR.refreshFiles s₁).bind fun r => ?_
  obtain ⟨s₂, outcome⟩ := r
  refine (hR.remark _ _ _ ?_ fun _ => .of_start rfl (by decide) _).bind fun s₃ =>
    (hR.now _).bind fun now => Keeps.pure ?_
  · rintro ⟨⟨hp, h₁⟩, h₂⟩
    exact hR.lawful_of hs ⟨hp, hR.trans h₁ h₂⟩
  · rintro ⟨⟨⟨⟨-, h₁⟩, h₂⟩, h₃⟩, -⟩
    exact hR.trans (hR.trans (hR.trans h₁ h₂) h₃) (hR.context rfl rfl rfl)

theorem recordContext (hR : session.StepsBy lawful allowed W R) (hs : p → lawful s.identity) :
    Keeps W p (session.recordContext s) (R s) := by
  refine (Keeps.look_any _).bind fun domain => (Keeps.look_any _).bind fun ecosystems => ?_
  refine (hR.remark _ _ _ (fun h => hs h.1.1) fun _ => ?_).bind fun t => Keeps.pure fun h => ?_
  · unfold contextLine
    generalize ", ".intercalate (ecosystems.map Ecosystem.name) = names
    simp only [String.append_assoc]
    exact .of_start rfl (by decide) _
  · exact hR.trans h.2 (hR.context rfl rfl rfl)

theorem askTools (hR : session.StepsBy lawful allowed W R) (tools : List Tool)
    (hs : p → lawful s.identity) :
    Keeps W p (session.askTools tools s) fun r => R s r.1 := by
  induction tools generalizing s p with
  | nil => exact Keeps.pure fun _ => hR.refl s
  | cons t ts ih =>
    refine (keeps_toolRun hR.letsStart _ t).bind fun outcome => ?_
    refine (hR.remark _ _ _ (fun h => hs h.1) fun _ => ?_).bind fun s₁ => ?_
    · simp only [String.append_assoc]
      exact .of_start rfl (by decide) _
    · refine (ih fun h => hR.lawful_of hs ⟨h.1.1, h.2⟩).bind fun r => ?_
      exact Keeps.pure fun h => hR.trans h.1.2 h.2

theorem analyze (hR : session.StepsBy lawful allowed W R) (profile : Profile)
    (hs : p → lawful s.identity) :
    Keeps W p (session.analyze profile s) fun r => R s r.1 := by
  refine (Keeps.look_any _).bind fun built => (Keeps.look_any _).bind fun tools => ?_
  refine (hR.askTools tools fun h => hs h.1.1).bind fun r => ?_
  refine (hR.remark _ _ _ (fun h => hR.lawful_of hs ⟨h.1.1.1, h.2⟩) fun _ => ?_).bind fun s₃ =>
    Keeps.pure fun h => hR.trans h.1.2 h.2
  delta analysisLine
  simp only [String.append_assoc]
  exact .of_start rfl (by decide) _

theorem scanSnapshot (hR : session.StepsBy lawful allowed W R) (profile? : Option Profile)
    (hs : p → lawful s.identity) :
    Keeps W p (session.scanSnapshot profile? s) fun r => R s r.1 := by
  refine (hR.refresh hs).bind fun r => ?_
  obtain ⟨s₁, refresh⟩ := r
  refine (hR.recordContext (hR.lawful_of hs)).bind fun s₂ => ?_
  have hs₂ : ∀ profile : Profile, (p ∧ R s s₁) ∧ R s₁ s₂ →
      R s { s₂ with lastProfile := some profile } := fun _ h =>
    hR.trans (hR.trans h.1.2 h.2) (hR.context rfl rfl rfl)
  refine (hR.analyze _ fun h => hR.lawful_of hs ⟨h.1.1, hs₂ _ h⟩).bind fun r => ?_
  obtain ⟨s₃, findings⟩ := r
  refine (hR.track _ findings s₃).bind fun r => ?_
  obtain ⟨s₄, tally⟩ := r
  -- the steps so far are told as one, and what follows starts from there
  refine Keeps.weaken (Q := fun r => R s₄ r.1) (p := p ∧ R s s₄) ?_ ?_ ?_
  · have hs₄ : p ∧ R s s₄ → lawful s₄.identity := hR.lawful_of hs
    refine (hR.remark _ _ _ hs₄ fun _ => ?_).bind fun s₅ => ?_
    · simp only [scanLine, String.append_assoc]
      exact .of_start rfl (by decide) _
    · refine (hR.triageAll (hR.lawful_of hs₄)).bind fun r₆ => ?_
      refine (hR.planAll fun h => hR.lawful_of hs₄ ⟨h.1.1, hR.trans h.1.2 h.2⟩).bind
        fun r₇ => Keeps.pure fun h => hR.trans (hR.trans h.1.1.2 h.1.2) h.2
  · rintro ⟨⟨h, h₃⟩, h₄⟩
    exact ⟨h.1.1, hR.trans (hR.trans (hs₂ _ h) h₃) h₄⟩
  · rintro r ⟨⟨h, h₃⟩, h₄⟩ hr
    exact hR.trans (hR.trans (hR.trans (hs₂ _ h) h₃) h₄) hr

/-! ## Single issues -/

theorem fixIssue (hR : session.StepsBy lawful allowed W R)
    (hW : session.PermitsRepairs lawful (fun _ => True) W) (id : String)
    (hs : p → lawful s.identity) : Keeps W p (session.fixIssue id s) fun r => R s r.1 := by
  refine (keeps_place id s).bind fun index => ?_
  cases s.issues[index]? with
  | none => exact Keeps.pure fun _ => hR.refl s
  | some i =>
    dsimp only
    split
    · exact Keeps.fail _
    · split
      · refine (hR.planAt index fun h => hs h.1).bind fun t => ?_
        exact (hR.fixAt hW index fun h => hR.lawful_of hs ⟨h.1.1, h.2⟩).weaken (fun h => h)
          fun r h hr => hR.trans h.2 hr
      · exact hR.fixAt hW index fun h => hs h.1

theorem verifyIssue (hR : session.StepsBy lawful allowed W R) (hall : allowed .complete)
    (id : String) (hs : p → lawful s.identity) :
    Keeps W p (session.verifyIssue id s) fun r => R s r.1 := by
  refine (keeps_place id s).bind fun index => ?_
  cases s.issues[index]? with
  | none => exact Keeps.pure fun _ => hR.refl s
  | some i =>
    dsimp only
    split
    · exact Keeps.fail _
    · exact hR.verifyAt hall index fun h => hs h.1

theorem commitIssue (hR : session.StepsBy lawful allowed W R) (id : String)
    (hs : p → lawful s.identity) : Keeps W p (session.commitIssue id s) fun r => R s r.1 :=
  (keeps_place id s).bind fun index => hR.commitAt index fun h => hs h.1

end StepsBy

/-- Every step keeps the identity of the snapshot. -/
theorem stepsBy_identity {session : Session} {lawful : String × String → Prop} {W : Watch}
    (hW : session.Permits lawful W) :
    session.StepsBy lawful (fun _ => True) W fun s t => t.identity = s.identity where
  toPermits := hW
  refl := fun _ => rfl
  trans := fun h h' => h'.trans h
  identity_eq := id
  allowed_of_ne := fun _ _ => trivial
  remark := fun _ message s hs _ => (hW.log message hs).weaken id fun _ _ ⟨_, ht⟩ => ht ▸ rfl
  move := fun _ index next s hs _ => (changedAt_advance hW index next hs).weaken id
    fun _ _ ht => ht.identity_eq
  note := fun _ _ _ _ => rfl
  track := fun p findings s => by
    refine (keeps_stamp hW findings).bind fun stamped => ?_
    cases hingest : s.ingest stamped with
    | error f => exact Keeps.fail _
    | ok r =>
      refine Keeps.pure fun _ => ?_
      rw [identity_prioritize]
      exact identity_ingest hingest
  context := fun hidentity _ _ => hidentity

end Session

end RepoAudit
