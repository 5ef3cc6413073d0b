import RepoAudit.Proofs.Snapshot.Retracking

/-!
# What becomes of some findings

Some findings are tracked one after the other, and what is done with one of them depends on what the
ones before it added. Seen as a whole this comes to a plain account: the issues stay where they are,
and behind them stands a new issue for each finding that no issue and no finding before it matches,
under the numbers that follow the largest one. Nothing is asked of the identifiers that are there
already: they may be twice the same, and need not be numbers.

## Main definitions

- `Finding.key`, `Issue.key` — what identifies a finding, and the finding that an issue tracks
- `Snapshot.newIssues` — the issues that some findings add
- `Snapshot.Ingested` — what becomes of some findings as a whole

## Main statements

- `Snapshot.trackAll_append` — tracking a list in two parts
- `Snapshot.exists_ingested` — findings that leave room for their numbers are all tracked
-/

namespace RepoAudit

/-- A description and the components of a file. -/
abbrev Finding.Key := String × Option (List Component)

/-- What identifies a finding: its description and its file, component by component. -/
def Finding.key (f : Finding) : Finding.Key :=
  (f.description, some f.file.components)

/-- Two tallies taken together. -/
def Tally.plus (t u : Tally) : Tally :=
  ⟨t.created + u.created, t.refreshed + u.refreshed⟩

namespace Issue

variable {i j k : Issue}

/-- What identifies the finding that an issue tracks. -/
def key (i : Issue) : Finding.Key :=
  (i.description, i.file.map Path.components)

@[simp] theorem key_touch (now : Instant) (i : Issue) : (i.touch now).key = i.key := rfl

theorem tracks_iff {f : Finding} : i.tracks f = true ↔ i.key = f.key := by
  rw [tracks, key, Finding.key, Prod.mk.injEq]
  cases i.file with
  | none => simp
  | some p => simp [Path.same]

/-- An issue is the same but for the instant of its last change, which is that of a finding that the
issue tracks. -/
def RefreshedBy (findings : List (Instant × Finding)) (i j : Issue) : Prop :=
  j = i ∨ ∃ f ∈ findings, i.tracks f.2 = true ∧ j = i.touch f.1

namespace RefreshedBy

variable {findings findings' : List (Instant × Finding)}

theorem refl (i : Issue) : RefreshedBy findings i i := .inl rfl

theorem trans (h : RefreshedBy findings i j) (h' : RefreshedBy findings j k) :
    RefreshedBy findings i k := by
  obtain rfl | ⟨f, hf, htracks, rfl⟩ := h
  · exact h'
  · obtain rfl | ⟨g, hg, htracks', rfl⟩ := h'
    · exact .inr ⟨f, hf, htracks, rfl⟩
    · exact .inr ⟨g, hg, htracks', rfl⟩

theorem mono (h : RefreshedBy findings i j) (hsub : findings ⊆ findings') :
    RefreshedBy findings' i j :=
  h.imp_right fun ⟨f, hf, htouched⟩ => ⟨f, hsub hf, htouched⟩

theorem id_eq (h : RefreshedBy findings i j) : j.id = i.id := by
  obtain rfl | ⟨f, -, -, rfl⟩ := h
  · rfl
  · rfl

end RefreshedBy

end Issue

namespace Snapshot

open Issue

variable {s s' : Snapshot} {findings : List (Instant × Finding)}

/-- The findings with a key that is none of some known ones and not that of a finding before. -/
def fresh : List Finding.Key → List (Instant × Finding) → List (Instant × Finding)
  | _, [] => []
  | known, f :: rest =>
    if f.2.key ∈ known then fresh known rest else f :: fresh (known ++ [f.2.key]) rest

/-- The issues that some findings add, with the numbers that follow the largest one. -/
def newIssues (s : Snapshot) (findings : List (Instant × Finding)) : List Issue :=
  ((fresh (s.issues.map key) findings).zipIdx (s.largestNumber + 1)).map fun (f, number) =>
    ofFinding s number f.1 f.2

/-- What becomes of some findings as a whole. -/
structure Ingested (s : Snapshot) (findings : List (Instant × Finding)) (issues : List Issue)
    (tally : Tally) : Prop where
  /-- Every issue stays where it is and the new ones follow; no more than the instants of their last
  changes differ. -/
  kept : List.Forall₂ (RefreshedBy findings) (s.issues ++ s.newIssues findings) issues
  /-- The identifier of a new issue is that of no other issue. -/
  distinct : ∀ {k l : Nat} {i j : Issue}, s.issues.length ≤ k → issues[k]? = some i →
    issues[l]? = some j → i.id = j.id → k = l
  /-- The new issues are counted. -/
  created : tally.created = (s.newIssues findings).length
  /-- Every finding is counted once. -/
  counted : tally.created + tally.refreshed = findings.length

/-! ## New issues -/

theorem length_fresh_le (known : List Finding.Key) (findings : List (Instant × Finding)) :
    (fresh known findings).length ≤ findings.length := by
  induction findings generalizing known with
  | nil => exact Nat.le_refl 0
  | cons f rest ih =>
    rw [fresh]
    split
    · exact Nat.le_succ_of_le (ih known)
    · exact Nat.succ_le_succ (ih _)

theorem length_newIssues_le (s : Snapshot) (findings : List (Instant × Finding)) :
    (s.newIssues findings).length ≤ findings.length := by
  rw [newIssues, List.length_map, List.length_zipIdx]
  exact length_fresh_le _ _

/-- The new issues are numbered from the one after the largest number on. -/
theorem getElem?_newIssues {k : Nat} {i : Issue} (h : (s.newIssues findings)[k]? = some i) :
    i.id = idOf (s.largestNumber + 1 + k) := by
  simp only [newIssues, List.getElem?_map, List.getElem?_zipIdx, Option.map_map,
    Option.map_eq_some_iff] at h
  obtain ⟨f, -, rfl⟩ := h
  rfl

/-- The largest number goes by the identifiers. -/
theorem largestNumber_congr (h : s'.issues.map Issue.id = s.issues.map Issue.id) :
    s'.largestNumber = s.largestNumber := by
  have hnumbers : ∀ t : Snapshot, t.issues.filterMap Issue.number? =
      (t.issues.map Issue.id).filterMap fun id => Text.readCounter? id.toList := by
    intro t
    rw [List.filterMap_map]
    rfl
  rw [largestNumber, largestNumber, hnumbers, hnumbers, h]

theorem largestNumber_touch (s : Snapshot) (index : Nat) (now : Instant) :
    (s.modifyIssue index (touch now)).largestNumber = s.largestNumber :=
  largestNumber_congr (map_modifyIssue (f := touch now) (fun _ => rfl) s index)

/-- An issue with a larger number than all others has the largest one. -/
theorem largestNumber_append {i : Issue} {n : Nat} (hnumber : i.number? = some n)
    (hle : s.largestNumber ≤ n) :
    ({ s with issues := s.issues ++ [i] } : Snapshot).largestNumber = n := by
  have hsingle : [i].filterMap Issue.number? = [n] := by simp [hnumber]
  rw [largestNumber] at hle ⊢
  rw [List.filterMap_append, hsingle, List.foldl_append]
  exact Nat.max_eq_right hle

/-- What new issues there are goes by the setting, the keys and the largest number. -/
theorem newIssues_eq (h : SameSetting s s') {known : List Finding.Key}
    {n : Nat} (hkeys : s'.issues.map key = known) (hlargest : s'.largestNumber = n) :
    s'.newIssues findings =
      ((fresh known findings).zipIdx (n + 1)).map fun (f, number) => ofFinding s number f.1 f.2 := by
  rw [newIssues, hkeys, hlargest]
  obtain ⟨issues, log, rfl⟩ := h
  rfl

/-- A finding that an issue tracks adds none. -/
theorem newIssues_cons_of_mem {f : Instant × Finding} (h : f.2.key ∈ s.issues.map key) (index : Nat) :
    s.newIssues (f :: findings) = (s.modifyIssue index (touch f.1)).newIssues findings := by
  have hkeys : (s.modifyIssue index (touch f.1)).issues.map key = s.issues.map key :=
    map_modifyIssue (key_touch f.1) s index
  have hsetting : SameSetting s (s.modifyIssue index (touch f.1)) := ⟨_, s.log, rfl⟩
  rw [newIssues_eq hsetting hkeys (largestNumber_touch s index f.1), newIssues, fresh, if_pos h]

/-- Any other one adds the first new issue. -/
theorem newIssues_cons_of_notMem {f : Instant × Finding} (h : f.2.key ∉ s.issues.map key)
    (hroom : s.largestNumber < Text.maxCounter) :
    s.newIssues (f :: findings) = ofFinding s (s.largestNumber + 1) f.1 f.2 ::
      ({ s with issues := s.issues ++ [ofFinding s (s.largestNumber + 1) f.1 f.2] } :
        Snapshot).newIssues findings := by
  have hlargest := largestNumber_append (s := s) (i := ofFinding s (s.largestNumber + 1) f.1 f.2)
    (number?_of_id rfl hroom) (Nat.le_succ _)
  rw [newIssues_eq ⟨_, s.log, rfl⟩ List.map_append hlargest, newIssues, fresh, if_neg h,
    List.zipIdx_cons, List.map_cons]
  rfl

/-! ## Tracking one finding -/

/-- A finding that an issue tracks sets the instant of one such issue. -/
theorem track_of_mem_keys (now : Instant) {f : Finding} (h : f.key ∈ s.issues.map key) (t : Tally) :
    ∃ index, s.track now f t = .ok (s.modifyIssue index (touch now), t.withRefreshed) ∧
      List.Forall₂ (RefreshedBy [(now, f)]) s.issues (s.modifyIssue index (touch now)).issues := by
  cases hindex : s.issues.findIdx? fun i => i.tracks f with
  | none =>
    obtain ⟨i, hi, hkey⟩ := List.mem_map.mp h
    have hnone := List.findIdx?_eq_none_iff.mp hindex i hi
    rw [tracks_iff.mpr hkey] at hnone
    cases hnone
  | some index =>
    refine ⟨index, by rw [track, hindex], forall₂_modifyIssue RefreshedBy.refl fun i hi => ?_⟩
    obtain ⟨hlt, htracks, -⟩ := List.findIdx?_eq_some_iff_getElem.mp hindex
    obtain rfl := Option.some.inj ((List.getElem?_eq_getElem hlt).symm.trans hi)
    exact .inr ⟨(now, f), List.mem_cons_self, htracks, rfl⟩

/-- Any other finding becomes an issue with the number after the largest one. -/
theorem track_of_notMem_keys (now : Instant) {f : Finding} (h : f.key ∉ s.issues.map key)
    (hroom : s.largestNumber < Text.maxCounter) (t : Tally) :
    s.track now f t = .ok ({ s with
      issues := s.issues ++ [ofFinding s (s.largestNumber + 1) now f] }, t.withCreated) := by
  have hindex : (s.issues.findIdx? fun i => i.tracks f) = none := by
    refine List.findIdx?_eq_none_iff.mpr fun i hi => ?_
    rw [Bool.eq_false_iff, ne_eq, tracks_iff]
    exact fun hkey => h (hkey ▸ List.mem_map_of_mem hi)
  rw [track, hindex]
  exact if_pos hroom

/-! ## Tracking one finding after the other -/

/-- A finding is counted on top of what was counted before. -/
theorem track_plus (now : Instant) (f : Finding) (s : Snapshot) (t u : Tally) :
    s.track now f (t.plus u) = (s.track now f u).map fun (s', u') => (s', t.plus u') := by
  rw [track, track]
  split
  · rfl
  · dsimp only
    split
    · rfl
    · rfl

theorem trackAll_plus (findings : List (Instant × Finding)) (s : Snapshot) (t u : Tally) :
    trackAll findings s (t.plus u) =
      (trackAll findings s u).map fun (s', u') => (s', t.plus u') := by
  induction findings generalizing s u with
  | nil => rfl
  | cons f rest ih =>
    rw [trackAll, trackAll, track_plus]
    cases s.track f.1 f.2 u with
    | error e => rfl
    | ok next => exact ih next.1 next.2

theorem trackAll_append (before after : List (Instant × Finding)) (s : Snapshot) (t : Tally) :
    trackAll (before ++ after) s t =
      (trackAll before s t).bind fun (s, t) => trackAll after s t := by
  induction before generalizing s t with
  | nil => rfl
  | cons f rest ih =>
    rw [List.cons_append, trackAll, trackAll]
    cases s.track f.1 f.2 t with
    | error e => rfl
    | ok next => exact ih next.1 next.2

/-- A list is tracked in two parts, the second one where the first one leads to. -/
theorem ingest_append (s : Snapshot) (before after : List (Instant × Finding)) :
    s.ingest (before ++ after) = (s.ingest before).bind fun (s₁, t₁) =>
      (s₁.ingest after).map fun (s₂, t₂) => (s₂, t₁.plus t₂) := by
  rw [ingest, ingest, trackAll_append]
  cases trackAll before s .zero with
  | error e => rfl
  | ok next => exact trackAll_plus after next.1 next.2 .zero

/-- What the findings lead to, from any tally so far. -/
theorem exists_trackAll (h : s.largestNumber + findings.length ≤ Text.maxCounter) (t : Tally) :
    ∃ issues refreshed, trackAll findings s t =
        .ok ({ s with issues := issues },
          ⟨t.created + (s.newIssues findings).length, t.refreshed + refreshed⟩) ∧
      (s.newIssues findings).length + refreshed = findings.length ∧
      List.Forall₂ (RefreshedBy findings) (s.issues ++ s.newIssues findings) issues := by
  induction findings generalizing s t with
  | nil =>
    refine ⟨s.issues, 0, rfl, rfl, ?_⟩
    rw [show s.newIssues [] = [] from rfl, List.append_nil]
    exact List.forall₂_same.mpr fun i _ => .refl i
  | cons f rest ih =>
    rw [List.length_cons] at h
    rw [trackAll]
    -- The issue of the first finding is there for the rest of them, touched or new.
    by_cases hkey : f.2.key ∈ s.issues.map key
    · obtain ⟨index, htrack, hfirst⟩ := track_of_mem_keys f.1 hkey t
      have hlargest := largestNumber_touch s index f.1
      obtain ⟨issues, refreshed, hrun, hcount, hkept⟩ :=
        ih (s := s.modifyIssue index (touch f.1)) (by omega) t.withRefreshed
      rw [newIssues_cons_of_mem hkey index]
      refine ⟨issues, refreshed + 1, ?_, by rw [List.length_cons]; omega, ?_⟩
      · rw [htrack]
        dsimp only
        rw [hrun, Tally.withRefreshed]
        dsimp only
        rw [Nat.add_assoc, Nat.add_comm 1]
        rfl
      · have hsame : List.Forall₂ (RefreshedBy [f])
            ((s.modifyIssue index (touch f.1)).newIssues rest)
            ((s.modifyIssue index (touch f.1)).newIssues rest) :=
          List.forall₂_same.mpr fun i _ => .refl i
        exact forall₂_trans
          (fun _ _ _ hij hjk => (hij.mono (by simp)).trans (hjk.mono (List.subset_cons_self f rest)))
          (List.rel_append hfirst hsame) hkept
    · have htrack := track_of_notMem_keys f.1 hkey (by omega) t
      have hlargest := largestNumber_append (s := s)
        (i := ofFinding s (s.largestNumber + 1) f.1 f.2) (number?_of_id rfl (by omega))
        (Nat.le_succ _)
      obtain ⟨issues, refreshed, hrun, hcount, hkept⟩ :=
        ih (s := { s with issues := s.issues ++ [ofFinding s (s.largestNumber + 1) f.1 f.2] })
          (by omega) t.withCreated
      rw [newIssues_cons_of_notMem hkey (by omega)]
      refine ⟨issues, refreshed, ?_, by rw [List.length_cons, List.length_cons]; omega, ?_⟩
      · rw [htrack]
        dsimp only
        rw [hrun, Tally.withCreated, List.length_cons]
        dsimp only
        rw [Nat.add_assoc, Nat.add_comm 1]
      · rw [List.append_cons]
        exact hkept.imp fun _ _ hij => hij.mono (List.subset_cons_self f rest)

/-! ## Identifiers -/

/-- Behind the issues that are there stand the next numbers. -/
theorem id_of_getElem? {k : Nat} {i : Issue} (hk : s.issues.length ≤ k)
    (h : (s.issues ++ s.newIssues findings)[k]? = some i) :
    i.id = idOf (s.largestNumber + 1 + (k - s.issues.length)) ∧
      k - s.issues.length < findings.length := by
  rw [List.getElem?_append_right hk] at h
  obtain ⟨hlt, -⟩ := List.getElem?_eq_some_iff.mp h
  exact ⟨getElem?_newIssues h, Nat.lt_of_lt_of_le hlt (length_newIssues_le s findings)⟩

/-- The identifier of a new issue is that of no other one. -/
theorem eq_of_id_eq (h : s.largestNumber + findings.length ≤ Text.maxCounter) {k l : Nat}
    {i j : Issue} (hk : s.issues.length ≤ k)
    (hi : (s.issues ++ s.newIssues findings)[k]? = some i)
    (hj : (s.issues ++ s.newIssues findings)[l]? = some j) (hid : i.id = j.id) : k = l := by
  obtain ⟨hnumber, hlt⟩ := id_of_getElem? hk hi
  by_cases hl : s.issues.length ≤ l
  · obtain ⟨hnumber', -⟩ := id_of_getElem? hl hj
    rw [hnumber, hnumber'] at hid
    have := idOf_injective hid
    omega
  · rw [List.getElem?_append_left (Nat.lt_of_not_le hl)] at hj
    rw [hnumber] at hid
    exact absurd hid.symm (id_ne_idOf (List.mem_of_getElem? hj) (by omega) (by omega))

/-- Findings that leave room for their numbers are all tracked, all at once or in two parts. -/
theorem exists_ingested (s : Snapshot) (findings : List (Instant × Finding))
    (h : s.largestNumber + findings.length < 2 ^ 32) :
    ∃ issues tally, s.ingest findings = .ok ({ s with issues := issues }, tally) ∧
      s.Ingested findings issues tally ∧
      ∀ before after, findings = before ++ after → ∃ s₁ t₁ t₂, s.ingest before = .ok (s₁, t₁) ∧
        s₁.ingest after = .ok ({ s with issues := issues }, t₂) ∧ tally = t₁.plus t₂ := by
  have hroom : s.largestNumber + findings.length ≤ Text.maxCounter := Nat.le_of_lt_succ h
  obtain ⟨issues, refreshed, hrun, hcount, hkept⟩ := exists_trackAll hroom .zero
  have hids : issues.map Issue.id = (s.issues ++ s.newIssues findings).map Issue.id :=
    map_eq_of_forall₂ hkept fun _ _ _ hij => hij.id_eq
  -- An issue has the identifier of the one that it is when its last change is left aside.
  have hplace : ∀ {k : Nat} {i : Issue}, issues[k]? = some i →
      ∃ i', (s.issues ++ s.newIssues findings)[k]? = some i' ∧ i'.id = i.id := by
    intro k i hi
    have hid := congrArg (·[k]?) hids
    simp only [List.getElem?_map, hi, Option.map_some] at hid
    exact Option.map_eq_some_iff.mp hid.symm
  refine ⟨issues, _, hrun, ⟨hkept, ?_, Nat.zero_add _, ?_⟩, ?_⟩
  · intro k l i j hk hi hj hid
    obtain ⟨i', hi', hidi⟩ := hplace hi
    obtain ⟨j', hj', hidj⟩ := hplace hj
    exact eq_of_id_eq hroom hk hi' hj' (by rw [hidi, hidj, hid])
  · simpa [Tally.zero] using hcount
  · rintro before after rfl
    have hparts := hrun
    rw [← ingest, ingest_append] at hparts
    cases hbefore : s.ingest before with
    | error e =>
      rw [hbefore] at hparts
      cases hparts
    | ok first =>
      rw [hbefore] at hparts
      cases hafter : first.1.ingest after with
      | error e =>
        simp [Except.bind, hafter, Except.map] at hparts
      | ok second =>
        simp only [Except.bind, hafter, Except.map, Except.ok.injEq, Prod.mk.injEq] at hparts
        exact ⟨first.1, first.2, second.2, rfl, by rw [hafter, ← hparts.1], hparts.2.symm⟩

/-- Something seen in a file. -/
def seenIn (description file : String) : Instant × Finding :=
  (⟨2024, 1, 1, 0, 0, 0, 0⟩, ⟨description, ⟨file⟩, none, none, .low, none, "check"⟩)

/-- A snapshot with identifiers that are signed, padded, repeated and no numbers at all. -/
def irregular : Snapshot :=
  { Snapshot.new "repo" with
    issues := ["+7", "x", "007", "+7"].map fun id =>
      { ofFinding (Snapshot.new "repo") 0 (seenIn "old" "a/b").1 (seenIn "old" "a/b").2 with
        id := id } }

/-- A finding that is tracked, one that is new, the same one again, and another new one. -/
def seenAgain : List (Instant × Finding) :=
  [seenIn "old" "a//b", seenIn "new" "a/b", seenIn "new" "a/./b", seenIn "old" "./a/b"]

theorem exists_ingested_irregular :
    irregular.largestNumber + seenAgain.length < 2 ^ 32 ∧
      (irregular.newIssues seenAgain).map Issue.id = ["008", "009"] ∧
      ∃ issues tally, irregular.ingest seenAgain = .ok ({ irregular with issues := issues }, tally) ∧
        irregular.Ingested seenAgain issues tally := by
  have hroom : irregular.largestNumber + seenAgain.length < 2 ^ 32 := by decide +kernel
  obtain ⟨issues, tally, hrun, hingested, -⟩ := exists_ingested irregular seenAgain hroom
  exact ⟨hroom, by decide +kernel, issues, tally, hrun, hingested⟩

end Snapshot

end RepoAudit
