import Mathlib.Data.List.Forall2
import RepoAudit.Proofs.Json.Record

/-!
# Reading stored snapshots

What reading the stored text of a snapshot gives. Every field comes back as it was, except that a
weakness is read from its tag and an instant from its written form, and that a line beyond the
bound of counters cannot be read at all.

## Main statements

- `Issue.ofJson?_toJson` — what an issue's record is read as
- `Snapshot.read?_write` — what a stored text is read as
- `Snapshot.issues_of_read?_write` — the issues of a stored text, one by one
-/

namespace RepoAudit

open Json Text

theorem Severity.ofName?_name (s : Severity) : Severity.ofName? s.name = some s := by
  cases s <;> rfl

theorem Stage.ofName?_name (s : Stage) : Stage.ofName? s.name = some s := by
  cases s <;> rfl

theorem Domain.ofName?_name (d : Domain) : Domain.ofName? d.name = some d := by
  cases d <;> rfl

theorem Ecosystem.ofName?_name (e : Ecosystem) : Ecosystem.ofName? e.name = some e := by
  cases e <;> rfl

theorem Profile.ofName?_name (p : Profile) : Profile.ofName? p.name = some p := by
  cases p <;> decide

theorem forall₂_of_mapM_eq_some {α β : Type} {f : α → Option β} {as : List α} {bs : List β}
    (h : as.mapM f = some bs) : List.Forall₂ (fun a b => f a = some b) as bs := by
  induction as generalizing bs with
  | nil =>
    obtain rfl : [] = bs := by simpa using h
    exact .nil
  | cons a as ih =>
    rw [List.mapM_cons] at h
    simp only [Option.bind_eq_bind, Option.bind_eq_some_iff, Option.pure_def,
      Option.some.injEq] at h
    obtain ⟨b, hb, bs', hbs, rfl⟩ := h
    exact .cons hb (ih hbs)

/-- An instant is read from its written form. -/
theorem required_instant {field : Option Json} {written : String}
    (hfield : field = some (Json.text written)) :
    required instantOfJson? field = Instant.read? written := by
  rw [hfield, required, instantOfJson?, Json.text, string?, Option.bind_some]

theorem memberOfJson?_text {α : Type} (ofName? : String → Option α) (name : String) :
    memberOfJson? ofName? (Json.text name) = ofName? name := rfl

namespace Issue

/-- The values of an issue's fields, in order. -/
def fieldValues (i : Issue) : List (Option Json) :=
  [some (Json.text i.id), some (Json.text i.repository), some (Json.text i.description),
    i.file.map fun p => Json.text p.text, i.line.map Json.nat,
    i.weakness.map fun w => Json.text w.tag, some (Json.text i.severity.name),
    i.score.map Json.text, some (Json.text i.stage.name),
    i.domain.map fun d => Json.text d.name,
    i.ecosystems.map (listJson fun e => Json.text e.name), some (Json.text i.createdAt.write),
    some (Json.text i.updatedAt.write), i.plan.map Json.text,
    i.artifact.map fun p => Json.text p.text, i.notes.map Json.text]

theorem toJson_eq (i : Issue) : i.toJson = Json.record (entriesOf fieldNames i.fieldValues) := by
  simp [toJson, entriesOf, fieldNames, fieldValues, entryIfAny_eq, Json.record]

theorem isWritten_toJson (i : Issue) : i.toJson.IsWritten := by
  rw [toJson_eq]
  apply isWritten_record
  have htext : ∀ s, (Json.text s).IsWritten := fun _ => rfl
  have hlist : ∀ es : List Ecosystem, (listJson (fun e => Json.text e.name) es).IsWritten :=
    isWritten_listJson fun _ => rfl
  have hnat : ∀ n, (Json.nat n).IsWritten := fun n => ⟨n, rfl⟩
  simp only [fieldValues, List.forall_mem_cons, Option.mem_def, Option.some.injEq, forall_eq',
    Option.map_eq_some_iff, forall_exists_index, and_imp, List.not_mem_nil, false_implies,
    implies_true, and_true]
  simp [htext, hlist, hnat]

/-- What the record of an issue is read as. -/
theorem ofJson?_toJson (i : Issue) :
    Issue.ofJson? i.toJson = (do
      let line ← optional counter? (i.line.map Json.nat)
      let createdAt ← Instant.read? i.createdAt.write
      let updatedAt ← Instant.read? i.updatedAt.write
      some { i with
        line := line
        weakness := i.weakness.map fun w => Weakness.ofTag w.tag
        createdAt := createdAt
        updatedAt := updatedAt }) := by
  have hfields : fields? fieldNames i.toJson = some i.fieldValues := by
    rw [toJson_eq]
    exact fields?_record (by decide) rfl
  have hpath := optional_map_self (d := pathOfJson?) (w := fun p : Path => Json.text p.text)
    (by simp [Json.text]) (fun _ => rfl)
  have hstring := optional_map_self (d := string?) (w := Json.text) (by simp [Json.text])
    (fun _ => rfl)
  have hweakness := optional_map (d := weaknessOfJson?)
    (w := fun w : Weakness => Json.text w.tag) (f := fun w => Weakness.ofTag w.tag)
    (by simp [Json.text]) (fun _ => rfl) i.weakness
  have hdomain := optional_map_self (d := memberOfJson? Domain.ofName?)
    (w := fun d : Domain => Json.text d.name) (by simp [Json.text]) (fun d => d.ofName?_name)
    i.domain
  have hecosystems := optional_map_self (d := list? (memberOfJson? Ecosystem.ofName?))
    (w := listJson fun e : Ecosystem => Json.text e.name) (by simp [listJson])
    (list?_listJson_of_eq fun e => e.ofName?_name) i.ecosystems
  have hseverity := required_of_eq (d := memberOfJson? Severity.ofName?)
    (show fieldAt i.fieldValues 6 = some (Json.text i.severity.name) from rfl)
    ((memberOfJson?_text _ _).trans i.severity.ofName?_name)
  have hstage := required_of_eq (d := memberOfJson? Stage.ofName?)
    (show fieldAt i.fieldValues 8 = some (Json.text i.stage.name) from rfl)
    ((memberOfJson?_text _ _).trans i.stage.ofName?_name)
  have htext : ∀ s, string? (Json.text s) = some s := fun _ => rfl
  have hcreated := required_instant
    (show fieldAt i.fieldValues 11 = some (Json.text i.createdAt.write) from rfl)
  have hupdated := required_instant
    (show fieldAt i.fieldValues 12 = some (Json.text i.updatedAt.write) from rfl)
  rw [ofJson?, ← hcreated, ← hupdated]
  refine bind_of_eq_some hfields (bind_of_eq_some (htext i.id)
    (bind_of_eq_some (htext i.repository) (bind_of_eq_some (htext i.description)
      (bind_of_eq_some (hpath i.file) (bind_congr fun line => ?_)))))
  refine bind_of_eq_some hweakness (bind_of_eq_some hseverity
    (bind_of_eq_some (hstring i.score) (bind_of_eq_some hstage
      (bind_of_eq_some hdomain (bind_of_eq_some hecosystems
        (bind_congr fun createdAt => bind_congr fun updatedAt => ?_))))))
  exact bind_of_eq_some (hstring i.plan) (bind_of_eq_some (hpath i.artifact)
    (bind_of_eq_some (hstring i.notes) rfl))

/-- An issue that is read from its record is as it was, its line, its category and its instants
apart. -/
theorem eq_of_ofJson?_toJson {i j : Issue} (h : Issue.ofJson? i.toJson = some j) :
    j = { i with
      line := j.line
      weakness := i.weakness.map fun w => Weakness.ofTag w.tag
      createdAt := j.createdAt
      updatedAt := j.updatedAt } := by
  rw [ofJson?_toJson] at h
  simp only [Option.bind_eq_bind, Option.bind_eq_some_iff, Option.some.injEq] at h
  obtain ⟨line, -, createdAt, -, updatedAt, -, rfl⟩ := h
  rfl

end Issue

namespace Snapshot

/-- The values of a snapshot's fields, in order. -/
def fieldValues (s : Snapshot) : List (Option Json) :=
  [some (Json.text s.repository), some (Json.text s.slug),
    s.workingCopy.map fun p => Json.text p.text, s.domain.map fun d => Json.text d.name,
    s.ecosystems.map (listJson fun e => Json.text e.name),
    some (listJson Issue.toJson s.issues), some (listJson Json.text s.log),
    s.lastRunAt.map fun t => Json.text t.write, s.lastProfile.map fun p => Json.text p.name]

theorem toJson_eq (s : Snapshot) : s.toJson = Json.record (entriesOf fieldNames s.fieldValues) := by
  simp [toJson, entriesOf, fieldNames, fieldValues, entryIfAny_eq, Json.record]

theorem isWritten_toJson (s : Snapshot) : s.toJson.IsWritten := by
  rw [toJson_eq]
  apply isWritten_record
  have htext : ∀ s, (Json.text s).IsWritten := fun _ => rfl
  have hlist : ∀ es : List Ecosystem, (listJson (fun e => Json.text e.name) es).IsWritten :=
    isWritten_listJson fun _ => rfl
  have hissues : (listJson Issue.toJson s.issues).IsWritten :=
    isWritten_listJson Issue.isWritten_toJson _
  have hlog : (listJson Json.text s.log).IsWritten := isWritten_listJson htext _
  simp only [fieldValues, List.forall_mem_cons, Option.mem_def, Option.some.injEq, forall_eq',
    Option.map_eq_some_iff, forall_exists_index, and_imp, List.not_mem_nil, false_implies,
    implies_true, and_true]
  simp [htext, hlist, hissues, hlog]

/-- What the record of a snapshot is read as. -/
theorem ofJson?_toJson (s : Snapshot) :
    Snapshot.ofJson? s.toJson = (do
      let issues ← s.issues.mapM fun i => Issue.ofJson? i.toJson
      let lastRunAt ← optional instantOfJson? (s.lastRunAt.map fun t => Json.text t.write)
      some { s with issues := issues, lastRunAt := lastRunAt }) := by
  have hfields : fields? fieldNames s.toJson = some s.fieldValues := by
    rw [toJson_eq]
    exact fields?_record (by decide) rfl
  have hcopy := optional_map_self (d := pathOfJson?) (w := fun p : Path => Json.text p.text)
    (by simp [Json.text]) (fun _ => rfl) s.workingCopy
  have hdomain := optional_map_self (d := memberOfJson? Domain.ofName?)
    (w := fun d : Domain => Json.text d.name) (by simp [Json.text]) (fun d => d.ofName?_name)
    s.domain
  have hecosystems := optional_map_self (d := list? (memberOfJson? Ecosystem.ofName?))
    (w := listJson fun e : Ecosystem => Json.text e.name) (by simp [listJson])
    (list?_listJson_of_eq fun e => e.ofName?_name) s.ecosystems
  have hprofile := optional_map_self (d := memberOfJson? Profile.ofName?)
    (w := fun p : Profile => Json.text p.name) (by simp [Json.text]) (fun p => p.ofName?_name)
    s.lastProfile
  have hlog : list? string? (listJson Json.text s.log) = some s.log :=
    list?_listJson_of_eq (w := Json.text) (fun _ => rfl) s.log
  have hissues : list? Issue.ofJson? (listJson Issue.toJson s.issues) =
      s.issues.mapM fun i => Issue.ofJson? i.toJson := list?_listJson _ _ _
  have htext : ∀ s, string? (Json.text s) = some s := fun _ => rfl
  rw [ofJson?, ← hissues]
  refine bind_of_eq_some hfields (bind_of_eq_some (htext s.repository)
    (bind_of_eq_some (htext s.slug) (bind_of_eq_some hcopy (bind_of_eq_some hdomain
      (bind_of_eq_some hecosystems (bind_congr fun issues => ?_))))))
  exact bind_of_eq_some hlog (bind_congr fun lastRunAt => bind_of_eq_some hprofile rfl)

/-- The stored text of a snapshot is read as its record. -/
theorem read?_write (s : Snapshot) : Snapshot.read? s.write = Snapshot.ofJson? s.toJson := by
  rw [Snapshot.read?, Snapshot.write, Json.read?_pretty _ s.isWritten_toJson, Option.bind_some]

theorem eq_of_read?_write {s t : Snapshot} (h : Snapshot.read? s.write = some t) :
    t = { s with issues := t.issues, lastRunAt := t.lastRunAt } := by
  rw [read?_write, ofJson?_toJson] at h
  simp only [Option.bind_eq_bind, Option.bind_eq_some_iff, Option.some.injEq] at h
  obtain ⟨issues, -, lastRunAt, -, rfl⟩ := h
  rfl

/-- The issues of a stored text, one by one. -/
theorem issues_of_read?_write {s t : Snapshot} (h : Snapshot.read? s.write = some t) :
    List.Forall₂ (fun i j => Issue.ofJson? i.toJson = some j) s.issues t.issues := by
  rw [read?_write, ofJson?_toJson] at h
  simp only [Option.bind_eq_bind, Option.bind_eq_some_iff, Option.some.injEq] at h
  obtain ⟨issues, hissues, lastRunAt, -, rfl⟩ := h
  exact forall₂_of_mapM_eq_some hissues

end Snapshot

end RepoAudit
