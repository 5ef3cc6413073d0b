import RepoAudit.Instant.Written
import RepoAudit.Proofs.Session.Edits

/-!
# The trail of an issue in the log

The log of a stored snapshot tells how each issue came to its stage: the messages that tell of its
moves, in order, go from one stage to the next, from the first one to the one where it stands. The
log also takes up whatever analyzers, version control and repairs have to say, and the paths and
names of repositories. None of it is taken for a move.

## Main definitions

- `Store.messageOf` — the message of a log line
- `Session.isMoveOf` — the messages of the form that tells of a move of an issue
- `Session.Traces` — messages that lead an issue from the first stage to another one
- `Snapshot.Audited` — the log of a snapshot tells the moves of its issues and no others

## Main statements

- `Snapshot.Audited.edit` — an edit keeps a snapshot audited
- `Store.Reachable.audit_trail` — every stored snapshot is audited
-/

namespace RepoAudit

open Act Snapshot

/-! ## Messages -/

/-- What stands before the first character of a kind, and behind it. -/
theorem append_cons_inj_of_notMem {c : Char} {before before' after after' : List Char}
    (h : c ∉ before) (h' : c ∉ before') (heq : before ++ c :: after = before' ++ c :: after') :
    before = before' ∧ after = after' := by
  induction before generalizing before' with
  | nil =>
    cases before' with
    | nil => exact ⟨rfl, (List.cons.inj heq).2⟩
    | cons d before' =>
      obtain rfl := (List.cons.inj heq).1
      exact absurd List.mem_cons_self h'
  | cons d before ih =>
    cases before' with
    | nil =>
      obtain rfl := (List.cons.inj heq).1
      exact absurd List.mem_cons_self h
    | cons d' before' =>
      obtain ⟨rfl, hrest⟩ := List.cons.inj heq
      rw [List.mem_cons, not_or] at h h'
      obtain ⟨rfl, hafter⟩ := ih h.2 h'.2 hrest
      exact ⟨rfl, hafter⟩

/-- The message of a log line: what stands behind its first blank. -/
def Store.messageOf (line : String) : String :=
  String.ofList ((line.toList.dropWhile fun c => c ≠ ' ').drop 1)

/-- A written year has no blank. -/
theorem Instant.notMem_writeYear (year : Int) : ' ' ∉ writeYear year := by
  have hdigits : ∀ width n, ' ' ∉ Text.padded width n := fun width n h =>
    absurd (Text.isDigit_of_mem_padded h) (by decide)
  rw [writeYear]
  split
  · exact hdigits _ _
  · split
    · simp [hdigits]
    · simp [hdigits]

/-- A written instant has no blank. -/
theorem Instant.notMem_writeForLog (now : Instant) : ' ' ∉ now.writeForLog.toList := by
  have hdigits : ∀ width n, ' ' ∉ Text.padded width n := fun width n h =>
    absurd (Text.isDigit_of_mem_padded h) (by decide)
  have hfraction : ' ' ∉ writeFraction now.nano := by
    rw [writeFraction]
    split_ifs <;> simp [hdigits]
  rw [writeForLog, String.toList_ofList, writeWith]
  simp [hdigits, notMem_writeYear, hfraction]

theorem Store.messageOf_logLine (now : Instant) (message : String) :
    messageOf (logLine now message) = message := by
  have hlead : ∀ c ∈ now.writeForLog.toList, (decide (c ≠ ' ')) = true := by
    intro c hc
    exact decide_eq_true fun heq => now.notMem_writeForLog (heq ▸ hc)
  rw [messageOf, logLine, String.toList_append, String.toList_append,
    List.append_assoc, List.dropWhile_append_of_pos hlead]
  simp

namespace Session

/-- Whether a message has the form that tells of a move of the issue with an identifier. -/
def isMoveOf (id message : String) : Bool :=
  Stage.all.any fun current => Stage.all.any fun next => message == moveLine id current next

theorem isMoveOf_iff {id message : String} :
    isMoveOf id message = true ↔ ∃ current next, message = moveLine id current next := by
  have hall : ∀ stage : Stage, stage ∈ Stage.all := by
    intro stage
    cases stage <;> decide
  simp [isMoveOf, hall]

/-- Messages that lead an issue from the first stage to another one: each tells of a move that is
allowed, from the stage to which the one before it has led. -/
inductive Traces (id : String) : Stage → List String → Prop
  /-- No message leaves the issue at the first stage. -/
  | submitted : Traces id .submitted []
  /-- A message leads on from the stage that was reached. -/
  | move {stage next : Stage} {messages : List String} (h : Traces id stage messages)
    (hmove : stage.canMoveTo next = true) : Traces id next (messages ++ [moveLine id stage next])

theorem toList_moveLine (id : String) (current next : Stage) :
    (moveLine id current next).toList = "Issue ".toList ++ (id.toList ++ ':' ::
      (' ' :: (current.name.toList ++ " -> ".toList ++ next.name.toList))) := by
  simp [moveLine]

/-- A stage is named in capitals. -/
theorem exists_cons_name (stage : Stage) :
    ∃ c cs, stage.name.toList = c :: cs ∧ c.isUpper = true := by
  cases stage <;> exact ⟨_, _, rfl, rfl⟩

theorem colon_notMem_idOf (n : Nat) : ':' ∉ (Issue.idOf n).toList := by
  rw [Issue.idOf, String.toList_ofList]
  exact fun h => absurd (Text.isDigit_of_mem_padded h) (by decide)

/-- A message about a move of one issue tells of no move of another. -/
theorem isMoveOf_moveLine {m n : Nat} {current next : Stage} :
    isMoveOf (Issue.idOf n) (moveLine (Issue.idOf m) current next) = true ↔
      Issue.idOf m = Issue.idOf n := by
  refine ⟨fun h => ?_, fun h => isMoveOf_iff.mpr ⟨current, next, by rw [h]⟩⟩
  obtain ⟨current', next', heq⟩ := isMoveOf_iff.mp h
  have hlist := congrArg String.toList heq
  rw [toList_moveLine, toList_moveLine, List.append_cancel_left_eq] at hlist
  exact String.toList_injective
    (append_cons_inj_of_notMem (colon_notMem_idOf m) (colon_notMem_idOf n) hlist).1

end Session

namespace Snapshot

open Session Issue

/-- The messages of a log that have the form of a move of the issue with an identifier. -/
def movesOf (id : String) (s : Snapshot) : List String :=
  (s.log.map Store.messageOf).filter (isMoveOf id)

/-- A remark tells of no move. -/
theorem Remark.isMoveOf_eq_false {s : Snapshot} {message : String} (h : s.Remark message)
    (hs : ∀ i ∈ s.issues, ∃ n, i.id = idOf n) (n : Nat) : isMoveOf (idOf n) message = false := by
  rw [Bool.eq_false_iff]
  intro hmove
  obtain ⟨current, next, heq⟩ := isMoveOf_iff.mp hmove
  cases h with
  | general h =>
    rw [heq, toList_moveLine] at h
    exact h rfl
  | @onIssue i hi text h =>
    obtain ⟨m, hm⟩ := hs i hi
    have hlist := congrArg String.toList heq
    have hmessage : ("Issue " ++ i.id ++ ": " ++ text).toList =
        "Issue ".toList ++ ((idOf m).toList ++ ':' :: (' ' :: text.toList)) := by
      simp [hm]
    rw [hmessage, toList_moveLine, List.append_cancel_left_eq] at hlist
    have hrests := append_cons_inj_of_notMem (colon_notMem_idOf m) (colon_notMem_idOf n) hlist
    have htext := (List.cons.inj hrests.2).2
    obtain ⟨c, cs, hname, hc⟩ := exists_cons_name current
    rw [hname] at htext
    have hlower := h c (by rw [htext]; rfl)
    rw [hlower] at hc
    cases hc

theorem movesOf_logged (id : String) (s : Snapshot) (now : Instant) (message : String) :
    (s.logged now message).movesOf id =
      s.movesOf id ++ if isMoveOf id message then [message] else [] := by
  rw [movesOf, logged, List.map_append, List.filter_append, List.map_singleton,
    Store.messageOf_logLine, List.filter_singleton, Bool.cond_eq_ite]
  rfl

/-- The log of a snapshot tells the moves of its issues, one after the other, and no others. -/
structure Audited (s : Snapshot) : Prop where
  /-- The identifiers are numbers. -/
  numbered : ∀ i ∈ s.issues, ∃ n, n ≤ Text.maxCounter ∧ i.id = idOf n
  /-- No two issues have one identifier. -/
  nodup : (s.issues.map Issue.id).Nodup
  /-- The messages about the moves of an issue lead it to its stage. -/
  traced : ∀ i ∈ s.issues, Traces i.id i.stage (s.movesOf i.id)
  /-- There is none about a number that no issue has. -/
  untold : ∀ n, (∀ i ∈ s.issues, i.id ≠ idOf n) → s.movesOf (idOf n) = []

/-- What the stages and identifiers of issues tell holds of any issues with the same ones. -/
theorem Audited.of_log_eq {s t : Snapshot} (hs : s.Audited) (hlog : t.log = s.log)
    (hids : ∀ j ∈ t.issues, ∃ i ∈ s.issues, j.id = i.id ∧ j.stage = i.stage)
    (hperm : (t.issues.map Issue.id).Perm (s.issues.map Issue.id)) : t.Audited where
  numbered := by
    intro j hj
    obtain ⟨i, hi, hid, -⟩ := hids j hj
    exact hid ▸ hs.numbered i hi
  nodup := hperm.nodup_iff.mpr hs.nodup
  traced := by
    intro j hj
    obtain ⟨i, hi, hid, hstage⟩ := hids j hj
    rw [hid, hstage, movesOf, hlog]
    exact hs.traced i hi
  untold := by
    intro n hn
    rw [movesOf, hlog]
    refine hs.untold n fun i hi hid => ?_
    obtain ⟨j, hj, hji⟩ := List.mem_map.mp (hperm.mem_iff.mpr (List.mem_map_of_mem hi))
    exact hn j hj (hji.trans hid)

theorem Audited.new (repository : String) : (Snapshot.new repository).Audited where
  numbered := by simp [Snapshot.new]
  nodup := List.nodup_nil
  traced := by simp [Snapshot.new]
  untold := fun _ _ => rfl

/-- A remark leaves the trail as it is. -/
theorem Audited.logged {s : Snapshot} (hs : s.Audited) {message : String} (h : s.Remark message)
    (now : Instant) : (s.logged now message).Audited := by
  have hmoves : ∀ n, (s.logged now message).movesOf (idOf n) = s.movesOf (idOf n) := by
    intro n
    rw [movesOf_logged, h.isMoveOf_eq_false (fun i hi => (hs.numbered i hi).imp fun _ h => h.2) n]
    exact List.append_nil _
  refine ⟨hs.numbered, hs.nodup, fun i hi => ?_, fun n hn => (hmoves n).trans (hs.untold n hn)⟩
  obtain ⟨n, -, hid⟩ := hs.numbered i hi
  rw [hid, hmoves n, ← hid]
  exact hs.traced i hi

/-- Issues at two places have two identifiers. -/
theorem Audited.id_ne {s : Snapshot} (hs : s.Audited) {k l : Nat} {i j : Issue}
    (hi : s.issues[k]? = some i) (hj : s.issues[l]? = some j) (hne : k ≠ l) : i.id ≠ j.id := by
  intro hid
  obtain ⟨hk, rfl⟩ := List.getElem?_eq_some_iff.mp hi
  obtain ⟨hl, rfl⟩ := List.getElem?_eq_some_iff.mp hj
  have hk' : k < (s.issues.map Issue.id).length := by simpa using hk
  have hl' : l < (s.issues.map Issue.id).length := by simpa using hl
  have hsame : (s.issues.map Issue.id)[k] = (s.issues.map Issue.id)[l] := by simpa using hid
  exact hne (hs.nodup.getElem_inj_iff.mp hsame)

/-- A move goes on with the trail of the issue that is moved. -/
theorem Audited.move {s : Snapshot} (hs : s.Audited) {index : Nat} {i : Issue} {next : Stage}
    (hi : s.issues[index]? = some i) (hmove : i.stage.canMoveTo next = true) (now now' : Instant) :
    ((s.modifyIssue index fun i => { i with stage := next }.touch now).logged now'
      (moveLine i.id i.stage next)).Audited := by
  obtain ⟨m, -, hm⟩ := hs.numbered i (List.mem_of_getElem? hi)
  have hids := map_modifyIssue (g := Issue.id) (f := fun i => { i with stage := next }.touch now)
    (fun _ => rfl) s index
  have hat : ∀ k j, (s.modifyIssue index fun i => { i with stage := next }.touch now).issues[k]? =
      some j → j.id = i.id ∧ j.stage = next ∨ k ≠ index ∧ s.issues[k]? = some j := by
    intro k j hk
    rw [modifyIssue, List.getElem?_modify] at hk
    obtain ⟨i', hi', hij⟩ := Option.map_eq_some_iff.mp hk
    by_cases hindex : index = k
    · subst hindex
      obtain rfl := Option.some.inj (hi.symm.trans hi')
      rw [if_pos rfl] at hij
      exact .inl (hij ▸ ⟨rfl, rfl⟩)
    · rw [if_neg hindex] at hij
      exact .inr ⟨fun h => hindex h.symm, by rw [hi', ← hij]⟩
  have hlog : (s.modifyIssue index fun i => { i with stage := next }.touch now).log = s.log := rfl
  generalize (s.modifyIssue index fun i => { i with stage := next }.touch now) = u at hids hat hlog ⊢
  -- The message is one about the issue that is moved, and about no other.
  have hthis : (u.logged now' (moveLine i.id i.stage next)).movesOf i.id =
      s.movesOf i.id ++ [moveLine i.id i.stage next] := by
    rw [movesOf_logged, if_pos (isMoveOf_iff.mpr ⟨_, _, rfl⟩), movesOf, movesOf, hlog]
  have hothers : ∀ n, idOf n ≠ i.id →
      (u.logged now' (moveLine i.id i.stage next)).movesOf (idOf n) = s.movesOf (idOf n) := by
    intro n hn
    have hfalse : isMoveOf (idOf n) (moveLine i.id i.stage next) = false := by
      rw [Bool.eq_false_iff, hm]
      exact fun h => hn (hm ▸ (isMoveOf_moveLine.mp h).symm)
    rw [movesOf_logged, hfalse, movesOf, movesOf, hlog]
    exact List.append_nil _
  refine ⟨fun j hj => ?_, hids ▸ hs.nodup, fun j hj => ?_, fun n hn => ?_⟩
  · obtain ⟨i', hi', hid⟩ := List.mem_map.mp (hids ▸ List.mem_map_of_mem hj)
    exact hid ▸ hs.numbered i' hi'
  · obtain ⟨k, hk⟩ := List.mem_iff_getElem?.mp hj
    obtain ⟨hid, hstage⟩ | ⟨hindex, hk'⟩ := hat k j hk
    · rw [hid, hstage, hthis]
      exact .move (hs.traced i (List.mem_of_getElem? hi)) hmove
    · obtain ⟨n, -, hn⟩ := hs.numbered j (List.mem_of_getElem? hk')
      rw [hn, hothers n (hn ▸ hs.id_ne hk' hi hindex), ← hn]
      exact hs.traced j (List.mem_of_getElem? hk')
  · have hs' : ∀ i' ∈ s.issues, i'.id ≠ idOf n := by
      intro i' hi' hid
      obtain ⟨j, hj, hji⟩ := List.mem_map.mp (hids.symm ▸ List.mem_map_of_mem (f := Issue.id) hi')
      exact hn j hj (hji.trans hid)
    rw [hothers n fun h => hs' i (List.mem_of_getElem? hi) h.symm]
    exact hs.untold n hs'

/-- A finding that is tracked keeps a snapshot audited: a new issue is at the first stage, and no
message tells of a move of it. -/
theorem Audited.track {s s' : Snapshot} (hs : s.Audited) {now : Instant} {f : Finding}
    {t t' : Tally} (h : s.track now f t = .ok (s', t')) : s'.Audited := by
  rw [Snapshot.track] at h
  split at h
  · next index hindex =>
    cases h
    refine hs.of_log_eq rfl (fun j hj => ?_) ?_
    · obtain ⟨i, hi, rfl | rfl⟩ := exists_of_mem_modifyIssue hj
      · exact ⟨j, hi, rfl, rfl⟩
      · exact ⟨i, hi, rfl, rfl⟩
    · rw [map_modifyIssue (g := Issue.id) (f := touch now) fun _ => rfl]
  · dsimp only at h
    split at h
    · next hbound =>
      cases h
      have hfresh : ∀ i ∈ s.issues, i.id ≠ idOf (s.largestNumber + 1) :=
        fun i hi => id_ne_idOf hi (Nat.lt_succ_self _) hbound
      refine ⟨fun j hj => ?_, ?_, fun j hj => ?_, fun n hn => ?_⟩
      · rcases List.mem_append.mp hj with hj | hj
        · exact hs.numbered j hj
        · rw [List.mem_singleton.mp hj]
          exact ⟨_, hbound, rfl⟩
      · rw [List.map_append, List.nodup_append]
        refine ⟨hs.nodup, List.nodup_singleton _, ?_⟩
        rintro id hid id' hid' rfl
        obtain ⟨i, hi, rfl⟩ := List.mem_map.mp hid
        rw [List.map_singleton, List.mem_singleton] at hid'
        exact hfresh i hi hid'
      · rcases List.mem_append.mp hj with hj | hj
        · exact hs.traced j hj
        · rw [List.mem_singleton.mp hj]
          have hnone : s.movesOf (idOf (s.largestNumber + 1)) = [] := hs.untold _ hfresh
          change Traces _ .submitted (s.movesOf (idOf (s.largestNumber + 1)))
          rw [hnone]
          exact .submitted
      · exact hs.untold n fun i hi => hn i (List.mem_append_left _ hi)
    · cases h

/-- An edit keeps a snapshot audited. -/
theorem Audited.edit {s t : Snapshot} (h : s.Edit t) (hs : s.Audited) : t.Audited := by
  cases h with
  | remark h now => exact hs.logged h now
  | move hi hmove now now' => exact hs.move hi hmove now now'
  | note index h =>
    refine hs.of_log_eq rfl (fun j hj => ?_) ?_
    · obtain ⟨i, hi, rfl | rfl⟩ := exists_of_mem_modifyIssue hj
      · exact ⟨j, hi, rfl, rfl⟩
      · exact ⟨i, hi, congrArg Core.id (h i).1, (h i).2⟩
    · rw [map_modifyIssue (g := Issue.id) fun i => congrArg Core.id (h i).1]
  | track h => exact hs.track h
  | prioritize =>
    exact hs.of_log_eq rfl
      (fun j hj => ⟨j, (Tracked.prioritize_perm s).mem_iff.mp hj, rfl, rfl⟩)
      ((Tracked.prioritize_perm s).map _)
  | context hidentity hissues hlog =>
    exact hs.of_log_eq hlog (fun j hj => ⟨j, hissues ▸ hj, rfl, rfl⟩) (by rw [hissues])

/-- A snapshot that is stored and read again is audited as it was. -/
theorem Audited.of_read? {s t : Snapshot} (hs : s.Audited)
    (h : Snapshot.read? s.write = some t) : t.Audited := by
  have hissues := issues_of_read?_write h
  refine hs.of_log_eq (by rw [eq_of_read?_write h]) (fun j hj => ?_) ?_
  · obtain ⟨i, hi, hij⟩ := exists_of_forall₂ hissues hj
    exact ⟨i, hi, by rw [eq_of_ofJson?_toJson hij], by rw [eq_of_ofJson?_toJson hij]⟩
  · rw [map_eq_of_forall₂ hissues fun i _ j hij => by rw [eq_of_ofJson?_toJson hij]]

end Snapshot

namespace Store

theorem lasting_audited : Lasting Snapshot.Audited where
  new := .new
  edit := fun _ _ => .edit
  read := fun _ _ hs h => hs.of_read? h

/-- The log of every stored snapshot tells how its issues came to their stages. For each issue, the
messages of the form that tells of a move of it are its moves, each of them allowed, from the first
stage on to the one where it stands; so no other message has this form. No message has it for a
number that no issue has. It is the same when the snapshot is read. -/
theorem Reachable.audit_trail {base : Route} {w : World} (h : Reachable base w)
    {repository : String} {content : ByteArray}
    (hcontent : w.files.fileAt (snapshotRoute base repository) = some content) :
    ∃ s : Snapshot, s.Audited ∧ content = s.write.toUTF8 ∧
      ∀ t, Snapshot.read? s.write = some t → t.Audited := by
  obtain ⟨s, hs, hwrite⟩ := h.holdsOnly lasting_audited repository content hcontent
  exact ⟨s, hs, hwrite, fun t ht => hs.of_read? ht⟩

/-- A scan of the pinned world stores a snapshot with the trail of its issue. -/
theorem audit_trail_scannedWorld :
    ∃ content, scannedWorld.files.fileAt (snapshotRoute ["s"] "/r") = some content ∧
      ∃ s : Snapshot, s.Audited ∧ content = s.write.toUTF8 ∧
        ∀ t, Snapshot.read? s.write = some t → t.Audited := by
  obtain ⟨content, hcontent⟩ := Option.isSome_iff_exists.mp isSome_scannedWorld
  exact ⟨content, hcontent, Reachable.audit_trail reachable_scannedWorld hcontent⟩

end Store

end RepoAudit
