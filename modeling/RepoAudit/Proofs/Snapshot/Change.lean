import RepoAudit.Proofs.Snapshot.Tracking

/-!
# Changes of single issues

A step on an issue changes the issue at one place and the log, and nothing else of a snapshot. Such
changes can be told one after the other, and what holds of all issues is carried over them.

## Main definitions

- `Snapshot.identity` — the part of a snapshot that no step changes
- `Snapshot.ChangedAt` — two snapshots differ in the issue at one place and in the log
- `Snapshot.SameIssues` — two snapshots have the same issues

## Main statements

- `Snapshot.ChangedAt.trans` — changes one after the other
- `Snapshot.ChangedAt.sameCores` — a change that keeps the core of its issue keeps all cores
-/

namespace RepoAudit.Snapshot

open Issue

/-- The repository of a snapshot and the name of its directory in the store. -/
def identity (s : Snapshot) : String × String :=
  (s.repository, s.slug)

@[simp] theorem identity_modifyIssue (s : Snapshot) (index : Nat) (f : Issue → Issue) :
    (s.modifyIssue index f).identity = s.identity := rfl

@[simp] theorem identity_withLog (s : Snapshot) (log : List String) :
    { s with log := log }.identity = s.identity := rfl

/-- The identifiers of all issues are fit. -/
def Fits (fit : String → Prop) (s : Snapshot) : Prop :=
  ∀ i ∈ s.issues, fit i.id

/-- Where numbers are fit, so are the identifiers of the issues that are tracked. -/
theorem Tracked.fits {fit : String → Prop} {s : Snapshot} (hs : s.Tracked)
    (hnumbers : ∀ n, fit (idOf n)) : s.Fits fit := by
  intro i hi
  obtain ⟨n, -, -, hid, -⟩ := hs.exists_number hi
  exact hid ▸ hnumbers n

/-- A snapshot that is stored and read again has the identity that it had. -/
theorem identity_of_read?_write {s t : Snapshot} (h : Snapshot.read? s.write = some t) :
    t.identity = s.identity := by
  rw [eq_of_read?_write h]
  rfl

/-- Two snapshots differ in the issue at one place, as a relation tells, and in the log. -/
structure ChangedAt (index : Nat) (R : Issue → Issue → Prop) (s t : Snapshot) : Prop where
  /-- The repositories agree. -/
  repository : t.repository = s.repository
  /-- The directories in the store agree. -/
  slug : t.slug = s.slug
  /-- There are as many issues. -/
  length : t.issues.length = s.issues.length
  /-- The issues at other places agree. -/
  others : ∀ k, k ≠ index → t.issues[k]? = s.issues[k]?
  /-- The issue at the place has changed. -/
  changed : ∀ i j, s.issues[index]? = some i → t.issues[index]? = some j → R i j

namespace ChangedAt

variable {index : Nat} {R R' : Issue → Issue → Prop} {s t u : Snapshot}

theorem refl (s : Snapshot) (hR : ∀ i, s.issues[index]? = some i → R i i) :
    ChangedAt index R s s := by
  refine ⟨rfl, rfl, rfl, fun _ _ => rfl, fun i j hi hj => ?_⟩
  obtain rfl := Option.some.inj (hi.symm.trans hj)
  exact hR i hi

theorem identity_eq (h : ChangedAt index R s t) : t.identity = s.identity :=
  Prod.ext h.repository h.slug

theorem mono (h : ChangedAt index R s t) (hR : ∀ i j, R i j → R' i j) :
    ChangedAt index R' s t :=
  ⟨h.repository, h.slug, h.length, h.others, fun i j hi hj => hR i j (h.changed i j hi hj)⟩

/-- An issue at the place is still there, changed. -/
theorem exists_after (h : ChangedAt index R s t) {i : Issue} (hi : s.issues[index]? = some i) :
    ∃ j, t.issues[index]? = some j ∧ R i j := by
  have hlt : index < t.issues.length := by
    rw [h.length]
    exact (List.getElem?_eq_some_iff.mp hi).1
  have hj : t.issues[index]? = some t.issues[index] := List.getElem?_eq_getElem hlt
  exact ⟨_, hj, h.changed i _ hi hj⟩

/-- An issue at the place was there before, as it has been changed from. -/
theorem exists_before (h : ChangedAt index R s t) {j : Issue} (hj : t.issues[index]? = some j) :
    ∃ i, s.issues[index]? = some i ∧ R i j := by
  have hlt : index < s.issues.length := by
    rw [← h.length]
    exact (List.getElem?_eq_some_iff.mp hj).1
  have hi : s.issues[index]? = some s.issues[index] := List.getElem?_eq_getElem hlt
  exact ⟨_, hi, h.changed _ j hi hj⟩

theorem trans (h : ChangedAt index R s t) (h' : ChangedAt index R' t u) :
    ChangedAt index (fun i k => ∃ j, R i j ∧ R' j k) s u where
  repository := h'.repository.trans h.repository
  slug := h'.slug.trans h.slug
  length := h'.length.trans h.length
  others := fun k hk => (h'.others k hk).trans (h.others k hk)
  changed := by
    intro i k hi hk
    obtain ⟨j, hj, hij⟩ := h.exists_after hi
    exact ⟨j, hij, h'.changed j k hj hk⟩

/-- At a place without an issue nothing has changed, however it is told. -/
theorem of_eq_none (h : ChangedAt index R s t) (hnone : t.issues[index]? = none) :
    ChangedAt index R' s t := by
  refine ⟨h.repository, h.slug, h.length, h.others, fun i j hi hj => ?_⟩
  simp [hnone] at hj

/-- Changing one issue and the log. -/
theorem modifyIssue (s : Snapshot) (f : Issue → Issue) (log : List String)
    (hR : ∀ i, s.issues[index]? = some i → R i (f i)) :
    ChangedAt index R s { s.modifyIssue index f with log := log } := by
  refine ⟨rfl, rfl, List.length_modify .., fun k hk => ?_, fun i j hi hj => ?_⟩
  · exact List.getElem?_modify_ne _ _ hk.symm
  · have hmodify : (s.issues.modify index f)[index]? = some j := hj
    rw [List.getElem?_modify_eq, hi] at hmodify
    rw [← Option.some.inj hmodify]
    exact hR i hi

/-- What holds of every issue is carried over a change that carries it over. -/
theorem forall_getElem? (h : ChangedAt index R s t) {P Q : Nat → Issue → Prop}
    (hs : ∀ k i, s.issues[k]? = some i → P k i) (hindex : ∀ i j, P index i → R i j → Q index j)
    (hothers : ∀ k i, k ≠ index → P k i → Q k i) {k : Nat} {j : Issue}
    (hj : t.issues[k]? = some j) : Q k j := by
  by_cases hk : k = index
  · subst hk
    obtain ⟨i, hi, hij⟩ := h.exists_before hj
    exact hindex i j (hs k i hi) hij
  · rw [h.others k hk] at hj
    exact hothers k j hk (hs k j hj)

/-- What holds of every issue is carried over a change that carries it over. -/
theorem forall_mem (h : ChangedAt index R s t) {P : Issue → Prop} (hs : ∀ i ∈ s.issues, P i)
    (hR : ∀ i j, P i → R i j → P j) : ∀ j ∈ t.issues, P j := by
  intro j hj
  obtain ⟨k, hk⟩ := List.mem_iff_getElem?.mp hj
  exact h.forall_getElem? (P := fun _ => P) (Q := fun _ => P)
    (fun k i hi => hs i (List.mem_of_getElem? hi)) hR (fun _ _ _ hi => hi) hk

/-- A change that keeps the core of its issue keeps its identifier fit. -/
theorem fits (h : ChangedAt index R s t) {fit : String → Prop} (hs : s.Fits fit)
    (hR : ∀ i j, R i j → j.core = i.core) : t.Fits fit := by
  refine h.forall_mem hs fun i j hi hij => ?_
  have hid : j.id = i.id := congrArg Core.id (hR i j hij)
  exact hid ▸ hi

/-- A change that keeps the core of its issue keeps all cores. -/
theorem sameCores (h : ChangedAt index R s t) (hR : ∀ i j, R i j → j.core = i.core) :
    SameCores s t := by
  refine ⟨h.repository, h.slug, List.ext_getElem? fun k => ?_⟩
  rw [List.getElem?_map, List.getElem?_map]
  by_cases hk : k = index
  · subst hk
    cases hi : s.issues[k]? with
    | none =>
      have hj : t.issues[k]? = none := by
        rw [List.getElem?_eq_none_iff, h.length]
        exact List.getElem?_eq_none_iff.mp hi
      rw [hj]
    | some i =>
      obtain ⟨j, hj, hij⟩ := h.exists_after hi
      rw [hj]
      exact congrArg some (hR i j hij)
  · rw [h.others k hk]

end ChangedAt

/-- Two snapshots are of one repository and have the same issues. -/
structure SameIssues (s t : Snapshot) : Prop where
  /-- The repositories agree. -/
  repository : t.repository = s.repository
  /-- The directories in the store agree. -/
  slug : t.slug = s.slug
  /-- The issues agree. -/
  issues : t.issues = s.issues

namespace SameIssues

variable {s t u : Snapshot}

theorem refl (s : Snapshot) : SameIssues s s := ⟨rfl, rfl, rfl⟩

theorem trans (h : SameIssues s t) (h' : SameIssues t u) : SameIssues s u :=
  ⟨h'.repository.trans h.repository, h'.slug.trans h.slug, h'.issues.trans h.issues⟩

theorem identity_eq (h : SameIssues s t) : t.identity = s.identity :=
  Prod.ext h.repository h.slug

theorem sameCores (h : SameIssues s t) : SameCores s t :=
  ⟨h.repository, h.slug, congrArg _ h.issues⟩

theorem forall_mem (h : SameIssues s t) {P : Issue → Prop} (hs : ∀ i ∈ s.issues, P i) :
    ∀ i ∈ t.issues, P i := by
  rw [h.issues]
  exact hs

theorem sound (h : SameIssues s t) (hs : s.Sound) : t.Sound :=
  ⟨h.sameCores.ordered hs.toOrdered, h.forall_mem hs.settled⟩

end SameIssues

/-- The same issues afterwards. -/
theorem ChangedAt.andSame {index : Nat} {R : Issue → Issue → Prop} {s t u : Snapshot}
    (h : ChangedAt index R s t) (h' : SameIssues t u) : ChangedAt index R s u where
  repository := h'.repository.trans h.repository
  slug := h'.slug.trans h.slug
  length := (congrArg List.length h'.issues).trans h.length
  others := fun k hk => by
    rw [h'.issues]
    exact h.others k hk
  changed := fun i j hi hj => by
    rw [h'.issues] at hj
    exact h.changed i j hi hj

theorem identity_track {now : Instant} {f : Finding} {s s' : Snapshot} {t t' : Tally}
    (h : s.track now f t = .ok (s', t')) : s'.identity = s.identity := by
  rw [track] at h
  split at h
  · cases h
    rfl
  · dsimp only at h
    split at h
    · cases h
      rfl
    · cases h

/-- Tracking findings keeps the identity of a snapshot. -/
theorem identity_ingest {findings : List (Instant × Finding)} {s s' : Snapshot} {t : Tally}
    (h : s.ingest findings = .ok (s', t)) : s'.identity = s.identity :=
  ingest_induction (R := fun s s' => s'.identity = s.identity) (fun _ => rfl)
    (fun _ _ _ h h' => h'.trans h) (fun _ _ _ _ _ _ => identity_track) h

@[simp] theorem identity_prioritize (s : Snapshot) : s.prioritize.identity = s.identity := rfl

end RepoAudit.Snapshot
