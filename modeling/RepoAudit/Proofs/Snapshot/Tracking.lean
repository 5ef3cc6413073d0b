import Mathlib.Data.List.Sort
import RepoAudit.Tracking
import RepoAudit.Proofs.Snapshot.Sound

/-!
# Tracking keeps snapshots tracked

A finding that is tracked already changes no core; any other becomes an issue with the next number.
Either way the issues stay numbered without gaps and track distinct findings. Putting them in order
of priority changes neither.

## Main definitions

- `Issue.Untouched` — an issue for which nothing has been done yet
- `Snapshot.SettledOr` — every issue is settled or has another property

## Main statements

- `Issue.mergeSort_precedes` — the order of priority can be computed by insertion
- `Snapshot.Tracked.largestNumber_eq` — the largest number is the number of issues
- `Snapshot.Tracked.ingest` — what tracking some findings gives
- `Snapshot.Tracked.prioritize`, `Snapshot.Tracked.ordered_prioritize` — what sorting gives
-/

namespace RepoAudit

/-- An issue at a stage for which nothing has been done yet. -/
structure Issue.Untouched (stage : Stage) (i : Issue) : Prop where
  /-- It stands at the stage. -/
  stage : i.stage = stage
  /-- Nothing is planned against it. -/
  plan : i.plan = none
  /-- It has no diff. -/
  artifact : i.artifact = none
  /-- It has no notes. -/
  notes : i.notes = none

namespace Issue

theorem precedes_iff (i j : Issue) :
    i.precedes j = true ↔ j.severity.rank < i.severity.rank ∨ i.severity.rank = j.severity.rank ∧
      (i.orderNumber < j.orderNumber ∨ i.orderNumber = j.orderNumber ∧ i.id ≤ j.id) := by
  rw [precedes]
  split
  · next hrank => simp [hrank]
  · next hrank =>
    split
    · next horder => simp [not_not.mp hrank, horder]
    · next horder => simp [not_not.mp hrank, not_not.mp horder]

theorem precedes_trans (i j k : Issue) (hij : i.precedes j = true) (hjk : j.precedes k = true) :
    i.precedes k = true := by
  rw [precedes_iff] at *
  rcases hij with hij | ⟨hij, hij' | ⟨hij', hid⟩⟩
  · rcases hjk with hjk | ⟨hjk, -⟩ <;> exact .inl (by omega)
  · rcases hjk with hjk | ⟨hjk, hjk' | ⟨hjk', -⟩⟩
    · exact .inl (by omega)
    · exact .inr ⟨by omega, .inl (by omega)⟩
    · exact .inr ⟨by omega, .inl (by omega)⟩
  · rcases hjk with hjk | ⟨hjk, hjk' | ⟨hjk', hid'⟩⟩
    · exact .inl (by omega)
    · exact .inr ⟨by omega, .inl (by omega)⟩
    · exact .inr ⟨by omega, .inr ⟨by omega, String.le_trans hid hid'⟩⟩

theorem precedes_total (i j : Issue) : (i.precedes j || j.precedes i) = true := by
  rw [Bool.or_eq_true, precedes_iff, precedes_iff]
  rcases Nat.lt_trichotomy i.severity.rank j.severity.rank with hrank | hrank | hrank
  · exact .inr (.inl hrank)
  · rcases Nat.lt_trichotomy i.orderNumber j.orderNumber with horder | horder | horder
    · exact .inl (.inr ⟨hrank, .inl horder⟩)
    · rcases String.le_total i.id j.id with hid | hid
      · exact .inl (.inr ⟨hrank, .inr ⟨horder, hid⟩⟩)
      · exact .inr (.inr ⟨hrank.symm, .inr ⟨horder.symm, hid⟩⟩)
    · exact .inr (.inr ⟨hrank.symm, .inl horder⟩)
  · exact .inl (.inl hrank)

/-- Inserting an issue stops where it is inserted by a sort that keeps the order of equals. -/
theorem orderedInsert_eq {i : Issue} {before after : List Issue}
    (hbefore : ∀ j ∈ before, i.precedes j = false)
    (hsorted : (before ++ i :: after).Pairwise fun i j => i.precedes j = true) :
    (before ++ after).orderedInsert (fun i j => i.precedes j = true) i =
      before ++ i :: after := by
  induction before with
  | nil =>
    cases after with
    | nil => rfl
    | cons j after =>
      exact List.orderedInsert_cons_of_le _ _
        ((List.pairwise_cons.mp hsorted).1 j List.mem_cons_self)
  | cons j before ih =>
    rw [List.cons_append, List.cons_append, List.orderedInsert_of_not_le,
      ih (fun k hk => hbefore k (List.mem_cons_of_mem _ hk)) (List.pairwise_cons.mp hsorted).2]
    simpa using hbefore j List.mem_cons_self

/-- The order of priority can be reached by inserting one issue after the other. -/
theorem mergeSort_precedes (l : List Issue) :
    l.mergeSort precedes = l.insertionSort fun i j => i.precedes j = true := by
  induction l with
  | nil => rw [List.mergeSort_nil, List.insertionSort_nil]
  | cons i l ih =>
    obtain ⟨before, after, hcons, hrest, hbefore⟩ :=
      List.mergeSort_cons precedes_trans precedes_total i l
    have hsorted := List.pairwise_mergeSort precedes_trans precedes_total (i :: l)
    rw [hcons] at hsorted
    rw [List.insertionSort_cons, ← ih, hrest, hcons,
      orderedInsert_eq (fun j hj => by simpa using hbefore j hj) hsorted]

end Issue

namespace Snapshot

open Issue

/-- Every issue is settled or has another property. -/
def SettledOr (P : Issue → Prop) (s : Snapshot) : Prop :=
  ∀ i ∈ s.issues, i.Settled ∨ P i

/-- An issue of a changed snapshot is an issue of the snapshot, which may be changed. -/
theorem exists_of_mem_modifyIssue {s : Snapshot} {index : Nat} {f : Issue → Issue} {j : Issue}
    (h : j ∈ (s.modifyIssue index f).issues) : ∃ i ∈ s.issues, j = i ∨ j = f i := by
  obtain ⟨k, hk⟩ := List.mem_iff_getElem?.mp h
  rw [modifyIssue, List.getElem?_modify] at hk
  obtain ⟨i, hi, hij⟩ := Option.map_eq_some_iff.mp hk
  refine ⟨i, List.mem_of_getElem? hi, ?_⟩
  by_cases hindex : index = k
  · right
    simpa [hindex] using hij.symm
  · left
    simpa [hindex] using hij.symm

/-- What no change of an issue changes is the same for all issues of a changed snapshot. -/
theorem map_modifyIssue {β : Type} {g : Issue → β} {f : Issue → Issue} (hf : ∀ i, g (f i) = g i)
    (s : Snapshot) (index : Nat) : (s.modifyIssue index f).issues.map g = s.issues.map g := by
  refine List.ext_getElem? fun k => ?_
  rw [modifyIssue, List.getElem?_map, List.getElem?_map, List.getElem?_modify]
  cases s.issues[k]? with
  | none => rfl
  | some i =>
    by_cases hindex : index = k
    · simp [hindex, hf]
    · simp [hindex]

/-- A change of one issue relates all issues as it relates that one, if each is related to itself. -/
theorem forall₂_modifyIssue {R : Issue → Issue → Prop} (hrefl : ∀ i, R i i) {s : Snapshot}
    {index : Nat} {f : Issue → Issue} (hat : ∀ i, s.issues[index]? = some i → R i (f i)) :
    List.Forall₂ R s.issues (s.modifyIssue index f).issues := by
  refine List.forall₂_iff_get.mpr ⟨(List.length_modify ..).symm, fun k hk hk' => ?_⟩
  simp only [modifyIssue, List.get_eq_getElem, List.getElem_modify]
  split
  · next hplace =>
    subst hplace
    exact hat _ (List.getElem?_eq_getElem hk)
  · exact hrefl _

/-- A change of an issue that keeps its core keeps all cores. -/
theorem SameCores.modifyIssue (s : Snapshot) (index : Nat) {f : Issue → Issue}
    (hf : ∀ i, (f i).core = i.core) : SameCores s (s.modifyIssue index f) :=
  ⟨rfl, rfl, map_modifyIssue hf s index⟩

/-- The largest of some numbers is as large as each of them. -/
theorem le_foldl_max {n a : Nat} {l : List Nat} (h : n ≤ a ∨ n ∈ l) : n ≤ l.foldl max a := by
  induction l generalizing a with
  | nil => exact h.resolve_right List.not_mem_nil
  | cons m l ih =>
    refine ih ?_
    rcases h with h | h
    · exact .inl (Nat.le_trans h (Nat.le_max_left _ _))
    · rcases List.mem_cons.mp h with rfl | h
      · exact .inl (Nat.le_max_right _ _)
      · exact .inr h

/-- A number beyond the largest one is the number of no issue, whatever the identifiers are. -/
theorem id_ne_idOf {s : Snapshot} {i : Issue} {n : Nat} (hi : i ∈ s.issues)
    (hlt : s.largestNumber < n) (hn : n ≤ Text.maxCounter) : i.id ≠ idOf n := by
  intro hid
  have hmem : n ∈ s.issues.filterMap Issue.number? :=
    List.mem_filterMap.mpr ⟨i, hi, number?_of_id hid hn⟩
  have hle : n ≤ s.largestNumber := le_foldl_max (.inr hmem)
  omega

/-- What one finding does to a snapshot when it is tracked, some findings do one after the other. -/
theorem ingest_induction {R : Snapshot → Snapshot → Prop} {findings : List (Instant × Finding)}
    (hrefl : ∀ s, R s s) (htrans : ∀ s t u, R s t → R t u → R s u)
    (htrack : ∀ f ∈ findings, ∀ (s s' : Snapshot) (t t' : Tally),
      s.track f.1 f.2 t = .ok (s', t') → R s s')
    {s s' : Snapshot} {t : Tally} (h : s.ingest findings = .ok (s', t)) : R s s' := by
  rw [ingest] at h
  -- The findings are counted on from any tally.
  generalize Tally.zero = t₀ at h
  induction findings generalizing s t₀ with
  | nil =>
    cases h
    exact hrefl _
  | cons f rest ih =>
    rw [trackAll] at h
    split at h
    · next s₁ t₁ hfirst =>
      have hrest := ih (fun g hg => htrack g (List.mem_cons_of_mem f hg)) t₁ h
      exact htrans _ _ _ (htrack f List.mem_cons_self _ _ _ _ hfirst) hrest
    · cases h

namespace Tracked

variable {s : Snapshot}

/-- The largest number is the number of issues. -/
theorem largestNumber_eq (h : s.Tracked) : s.largestNumber = s.issues.length := by
  have hnumbers : (s.issues.filterMap Issue.number?).Perm (List.range' 1 s.issues.length) := by
    have hmap := h.numbered.filterMap fun id : String => Text.readCounter? id.toList
    rw [List.filterMap_map, List.filterMap_map] at hmap
    have hrange : (List.range' 1 s.issues.length).filterMap
        ((fun id : String => Text.readCounter? id.toList) ∘ idOf) =
        List.range' 1 s.issues.length := by
      rw [List.filterMap_congr (g := some), List.filterMap_some]
      intro n hn
      rw [List.mem_range'_1] at hn
      have := h.bounded
      rw [Function.comp_apply, idOf, String.toList_ofList]
      exact Text.readCounter?_padded (by omega) 3
    rwa [hrange] at hmap
  have hmax : ∀ n, (List.range' 1 n).foldl max 0 = n := by
    intro n
    induction n with
    | zero => rfl
    | succ n ih =>
      rw [List.range'_1_concat, List.foldl_append, ih, List.foldl_cons, List.foldl_nil]
      omega
  rw [largestNumber, hnumbers.foldl_eq' (fun x _ y _ z => by omega), hmax]

/-- A new issue with the next number, of a finding that no issue tracks, keeps a snapshot
tracked. -/
theorem append (h : s.Tracked) {new : Issue} (hid : new.id = idOf (s.issues.length + 1))
    (hbound : s.issues.length + 1 ≤ Text.maxCounter) (hnew : ∀ i ∈ s.issues, ¬i.SameFinding new)
    (hnormal : ∀ w, new.weakness = some w → w.IsNormal) :
    ({ s with issues := s.issues ++ [new] } : Snapshot).Tracked where
  named := h.named
  numbered := by
    dsimp only
    rw [List.map_append, List.length_append, List.length_singleton, List.range'_1_concat,
      List.map_append, List.map_singleton, List.map_singleton, hid, Nat.add_comm 1]
    exact h.numbered.append_right _
  bounded := by
    dsimp only
    rwa [List.length_append, List.length_singleton]
  distinct := by
    refine List.pairwise_append.mpr ⟨h.distinct, List.pairwise_singleton _ _, fun i hi j hj => ?_⟩
    rw [List.mem_singleton.mp hj]
    exact hnew i hi
  normal := by
    intro i hi
    rcases List.mem_append.mp hi with hi | hi
    · exact h.normal i hi
    · rw [List.mem_singleton.mp hi]
      exact hnormal

/-- What tracking one finding gives: a tracked snapshot, with no more than the new issue of the
finding. -/
theorem track (h : s.Tracked) {now : Instant} {f : Finding} {t t' : Tally} {s' : Snapshot}
    (hf : ∀ w, f.weakness = some w → w.IsNormal)
    (htrack : Snapshot.track now f s t = .ok (s', t')) (hs : s.SettledOr (Untouched .submitted)) :
    s'.Tracked ∧ s'.SettledOr (Untouched .submitted) := by
  rw [Snapshot.track] at htrack
  split at htrack
  · next index hindex =>
    obtain ⟨rfl, -⟩ := Prod.mk.inj (Except.ok.inj htrack)
    refine ⟨(SameCores.modifyIssue s index (f := touch now) fun _ => rfl).tracked h, fun j hj => ?_⟩
    obtain ⟨i, hi, rfl | rfl⟩ := exists_of_mem_modifyIssue hj
    · exact hs _ hi
    · rcases hs i hi with hsettled | huntouched
      · exact .inl (hsettled.congr rfl rfl rfl rfl rfl)
      · exact .inr ⟨huntouched.stage, huntouched.plan, huntouched.artifact, huntouched.notes⟩
  · next hindex =>
    dsimp only at htrack
    split at htrack
    · next hbound =>
      obtain ⟨rfl, -⟩ := Prod.mk.inj (Except.ok.inj htrack)
      rw [h.largestNumber_eq] at hbound ⊢
      refine ⟨h.append rfl hbound (fun i hi hsame => ?_) hf, fun j hj => ?_⟩
      · have htracks := List.findIdx?_eq_none_iff.mp hindex i hi
        obtain ⟨hdescription, hfile⟩ := hsame
        cases hp : i.file with
        | none => simp [hp, ofFinding] at hfile
        | some p =>
          have hcomponents : p.components = f.file.components := by
            simpa [hp, ofFinding] using hfile
          simp only [tracks, hp, Option.any_some, Path.same, hcomponents, beq_self_eq_true,
            Bool.and_true, beq_eq_false_iff_ne] at htracks
          exact htracks hdescription
      · rcases List.mem_append.mp hj with hj | hj
        · exact hs j hj
        · rw [List.mem_singleton.mp hj]
          exact .inr ⟨rfl, rfl, rfl, rfl⟩
    · cases htrack

/-- What tracking some findings gives. -/
theorem ingest (h : s.Tracked) {findings : List (Instant × Finding)} {t : Tally} {s' : Snapshot}
    (hf : ∀ f ∈ findings, ∀ w, f.2.weakness = some w → w.IsNormal)
    (hs : s.SettledOr (Untouched .submitted)) (hingest : s.ingest findings = .ok (s', t)) :
    s'.Tracked ∧ s'.SettledOr (Untouched .submitted) := by
  refine ingest_induction
    (R := fun s s' => s.Tracked ∧ s.SettledOr (Untouched .submitted) →
      s'.Tracked ∧ s'.SettledOr (Untouched .submitted))
    (fun _ h => h) (fun _ _ _ h h' hs => h' (h hs)) ?_ hingest ⟨h, hs⟩
  rintro f hmem s s' t t' htrack ⟨h, hs⟩
  exact h.track (hf f hmem) htrack hs

theorem sameFinding_comm {i j : Issue} (h : i.SameFinding j) : j.SameFinding i :=
  ⟨h.1.symm, h.2.symm⟩

theorem prioritize_perm (s : Snapshot) : s.prioritize.issues.Perm s.issues :=
  List.mergeSort_perm _ _

/-- Putting the issues in order keeps a snapshot tracked. -/
theorem prioritize (h : s.Tracked) : s.prioritize.Tracked where
  named := h.named
  numbered := by
    rw [(prioritize_perm s).length_eq]
    exact ((prioritize_perm s).map _).trans h.numbered
  bounded := by
    rw [(prioritize_perm s).length_eq]
    exact h.bounded
  distinct := by
    refine (List.Perm.pairwise_iff (fun hij hji => hij ?_) (prioritize_perm s)).mpr h.distinct
    exact sameFinding_comm hji
  normal := by
    intro i hi
    exact h.normal i ((prioritize_perm s).mem_iff.mp hi)

/-- The issues of a tracked snapshot are put in order of priority. -/
theorem ordered_prioritize (h : s.Tracked) : s.prioritize.Ordered := by
  refine ⟨h.prioritize, ?_⟩
  have hsorted : s.prioritize.issues.Pairwise fun i j => i.precedes j = true :=
    List.pairwise_mergeSort precedes_trans precedes_total s.issues
  have hids : s.prioritize.issues.Pairwise fun i j => i.id ≠ j.id :=
    List.pairwise_map.mp h.prioritize.nodup_ids
  refine (hsorted.and hids).imp_of_mem fun {i j} hi hj hij => ?_
  obtain ⟨hprecedes, hne⟩ := hij
  obtain ⟨m, -, -, hidi, horderi⟩ := h.prioritize.exists_number hi
  obtain ⟨n, -, -, hidj, horderj⟩ := h.prioritize.exists_number hj
  rcases (precedes_iff i j).mp hprecedes with hrank | ⟨hrank, horder | ⟨horder, -⟩⟩
  · exact .inl hrank
  · exact .inr ⟨hrank, horder⟩
  · rw [horderi, horderj] at horder
    exact (hne (by rw [hidi, hidj, horder])).elim

end Tracked

theorem SettledOr.prioritize {s : Snapshot} {P : Issue → Prop} (h : s.SettledOr P) :
    s.prioritize.SettledOr P :=
  fun i hi => h i ((Tracked.prioritize_perm s).mem_iff.mp hi)

end Snapshot

end RepoAudit
