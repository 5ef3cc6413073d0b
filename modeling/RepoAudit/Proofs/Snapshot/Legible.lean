import RepoAudit.Proofs.Snapshot.Sound
import RepoAudit.Proofs.Store.Reload

/-!
# What is read can be stored

Whatever text a snapshot is read from, the snapshot is one that its record keeps in full: reading
refuses lines that are no counters and instants that are no days of the calendar, and takes every
weakness from a tag.

## Main statements

- `Snapshot.isStorable_of_read?` — a snapshot that was read can be stored in full
- `Store.isStorable_of_load` — so can one that was loaded
-/

namespace RepoAudit

open Act

theorem Instant.isValid_of_readChars? {cs : List Char} {t : Instant}
    (h : Instant.readChars? cs = some t) : t.isValid := by
  obtain ⟨_, -, h⟩ := Option.bind_eq_some_iff.mp h
  obtain ⟨_, -, h⟩ := Option.bind_eq_some_iff.mp h
  obtain ⟨_, -, h⟩ := Option.bind_eq_some_iff.mp h
  obtain ⟨_, -, h⟩ := Option.bind_eq_some_iff.mp h
  obtain ⟨_, -, h⟩ := Option.bind_eq_some_iff.mp h
  dsimp only at h
  split at h
  · split at h
    · -- The last thing that reading does is to look whether the instant is valid.
      obtain ⟨_, -, h⟩ := Option.bind_eq_some_iff.mp h
      obtain ⟨_, -, h⟩ := Option.bind_eq_some_iff.mp h
      obtain ⟨_, -, h⟩ := Option.bind_eq_some_iff.mp h
      obtain ⟨_, -, h⟩ := Option.bind_eq_some_iff.mp h
      obtain ⟨_, -, h⟩ := Option.bind_eq_some_iff.mp h
      obtain ⟨_, -, h⟩ := Option.bind_eq_some_iff.mp h
      obtain ⟨_, -, h⟩ := Option.bind_eq_some_iff.mp h
      obtain ⟨_, -, h⟩ := Option.bind_eq_some_iff.mp h
      split at h
      · cases h
      split at h
      · cases h
      split at h
      · next hvalid =>
        cases h
        exact hvalid
      · cases h
    · cases h
  · cases h

namespace Json

variable {α : Type} {decode : Json → Option α} {P : α → Prop}

/-- A field that was decoded has what every decoded value has. -/
theorem forall_of_required (hdecode : ∀ j a, decode j = some a → P a) {field : Option Json} {a : α}
    (h : required decode field = some a) : P a := by
  cases field with
  | none => cases h
  | some j => exact hdecode j a h

theorem forall_of_optional (hdecode : ∀ j a, decode j = some a → P a) {field : Option Json}
    {a? : Option α} (h : optional decode field = some a?) : ∀ a, a? = some a → P a := by
  rintro a rfl
  rw [optional.eq_def] at h
  split at h
  · cases h
  · next j _ =>
    obtain ⟨b, hb, heq⟩ := Option.map_eq_some_iff.mp h
    obtain rfl := Option.some.inj heq
    exact hdecode j b hb
  · cases h

theorem forall_of_list? (hdecode : ∀ j a, decode j = some a → P a) {j : Json} {as : List α}
    (h : list? decode j = some as) : ∀ a ∈ as, P a := by
  cases j with
  | array items =>
    rw [list?] at h
    intro a ha
    obtain ⟨item, -, hitem⟩ := Snapshot.exists_of_forall₂ (forall₂_of_mapM_eq_some h) ha
    exact hdecode item a hitem
  | _ => cases h

end Json

open Json

theorem isNormal_of_weaknessOfJson? {j : Json} {w : Weakness} (h : weaknessOfJson? j = some w) :
    w.IsNormal := by
  obtain ⟨tag, -, rfl⟩ := Option.map_eq_some_iff.mp h
  exact Weakness.isNormal_ofTag tag

theorem isValid_of_instantOfJson? {j : Json} {t : Instant} (h : instantOfJson? j = some t) :
    t.isValid := by
  obtain ⟨text, -, htext⟩ := Option.bind_eq_some_iff.mp h
  exact Instant.isValid_of_readChars? htext

theorem Json.le_of_counter? {j : Json} {n : Nat} (h : counter? j = some n) :
    n ≤ Text.maxCounter := by
  cases j with
  | number digits =>
    rw [counter?] at h
    split at h
    · next hdigits =>
      cases h
      simpa using (Bool.and_eq_true_iff.mp hdigits).2
    · cases h
  | _ => cases h

/-- An issue that was read can be stored in full. -/
theorem Issue.isStorable_of_ofJson? {j : Json} {i : Issue} (h : Issue.ofJson? j = some i) :
    i.IsStorable := by
  obtain ⟨fields, -, h⟩ := Option.bind_eq_some_iff.mp h
  obtain ⟨id, -, h⟩ := Option.bind_eq_some_iff.mp h
  obtain ⟨repository, -, h⟩ := Option.bind_eq_some_iff.mp h
  obtain ⟨description, -, h⟩ := Option.bind_eq_some_iff.mp h
  obtain ⟨file, -, h⟩ := Option.bind_eq_some_iff.mp h
  obtain ⟨line, hline, h⟩ := Option.bind_eq_some_iff.mp h
  obtain ⟨weakness, hweakness, h⟩ := Option.bind_eq_some_iff.mp h
  obtain ⟨severity, -, h⟩ := Option.bind_eq_some_iff.mp h
  obtain ⟨score, -, h⟩ := Option.bind_eq_some_iff.mp h
  obtain ⟨stage, -, h⟩ := Option.bind_eq_some_iff.mp h
  obtain ⟨domain, -, h⟩ := Option.bind_eq_some_iff.mp h
  obtain ⟨ecosystems, -, h⟩ := Option.bind_eq_some_iff.mp h
  obtain ⟨createdAt, hcreated, h⟩ := Option.bind_eq_some_iff.mp h
  obtain ⟨updatedAt, hupdated, h⟩ := Option.bind_eq_some_iff.mp h
  obtain ⟨plan, -, h⟩ := Option.bind_eq_some_iff.mp h
  obtain ⟨artifact, -, h⟩ := Option.bind_eq_some_iff.mp h
  obtain ⟨notes, -, h⟩ := Option.bind_eq_some_iff.mp h
  cases h
  exact {
    weakness := fun w hw => ⟨w.tag,
      forall_of_optional (fun _ _ => isNormal_of_weaknessOfJson?) hweakness w hw⟩
    line := forall_of_optional (fun _ _ => Json.le_of_counter?) hline
    createdAt := forall_of_required (fun _ _ => isValid_of_instantOfJson?) hcreated
    updatedAt := forall_of_required (fun _ _ => isValid_of_instantOfJson?) hupdated }

/-- A snapshot that was read can be stored in full. -/
theorem Snapshot.isStorable_of_read? {text : String} {s : Snapshot}
    (h : Snapshot.read? text = some s) : s.IsStorable := by
  obtain ⟨j, -, h⟩ := Option.bind_eq_some_iff.mp h
  obtain ⟨fields, -, h⟩ := Option.bind_eq_some_iff.mp h
  obtain ⟨repository, -, h⟩ := Option.bind_eq_some_iff.mp h
  obtain ⟨slug, -, h⟩ := Option.bind_eq_some_iff.mp h
  obtain ⟨workingCopy, -, h⟩ := Option.bind_eq_some_iff.mp h
  obtain ⟨domain, -, h⟩ := Option.bind_eq_some_iff.mp h
  obtain ⟨ecosystems, -, h⟩ := Option.bind_eq_some_iff.mp h
  obtain ⟨issues, hissues, h⟩ := Option.bind_eq_some_iff.mp h
  obtain ⟨log, -, h⟩ := Option.bind_eq_some_iff.mp h
  obtain ⟨lastRunAt, hlast, h⟩ := Option.bind_eq_some_iff.mp h
  obtain ⟨lastProfile, -, h⟩ := Option.bind_eq_some_iff.mp h
  cases h
  refine ⟨?_, forall_of_optional (fun _ _ => isValid_of_instantOfJson?) hlast⟩
  cases hfield : fieldAt fields 5 with
  | none =>
    rw [hfield] at hissues
    cases hissues
    exact fun i hi => absurd hi List.not_mem_nil
  | some field =>
    rw [hfield] at hissues
    exact forall_of_list? (fun _ _ => Issue.isStorable_of_ofJson?) hissues

/-- A snapshot that was loaded can be stored in full. -/
theorem Store.isStorable_of_load {st : Store} {repository : String} {w : World} {s : Snapshot}
    (h : (st.load repository w).1 = .ok s) : s.IsStorable := by
  obtain ⟨-, rfl⟩ | ⟨content, text, -, -, hread⟩ := load_eq_ok h
  · exact ⟨fun i hi => absurd hi List.not_mem_nil, fun t ht => by cases ht⟩
  · exact Snapshot.isStorable_of_read? hread

end RepoAudit
