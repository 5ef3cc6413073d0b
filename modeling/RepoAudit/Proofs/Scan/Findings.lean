import RepoAudit.Scan.Check
import RepoAudit.Tool.Run
import RepoAudit.Proofs.Weakness

/-!
# The weaknesses of findings

Whatever the files of a repository and the reports of analyzers hold, every finding has a weakness
that is read back from its tag, or none.

## Main statements

- `Scan.isNormal_of_mem_findings` — the findings of the built-in checks
- `Tool.isNormal_of_mem_outcomeOf` — the findings of an analyzer
-/

namespace RepoAudit

/-- The weakness of a finding, if it has one, is read back from its tag. -/
def Finding.IsNormal (f : Finding) : Prop :=
  ∀ w, f.weakness = some w → w.IsNormal

theorem Finding.isNormal_of_eq_some {f : Finding} {w : Weakness} (h : f.weakness = some w)
    (hw : w.IsNormal) : f.IsNormal := by
  intro w' hw'
  rwa [Option.some.inj (hw'.symm.trans h)]

namespace SourceCheck

theorem isNormal_of_mem_findings {c : SourceCheck} (hc : c.weakness.IsNormal) {scan : Scan}
    {files : FileTree} {here : Route} {f : Finding} (h : f ∈ c.findings scan files here) :
    f.IsNormal := by
  rw [findings, List.mem_filterMap] at h
  obtain ⟨path, -, hfinding⟩ := h
  cases htext : files.readText here path with
  | error e =>
    simp only [htext] at hfinding
    cases hfinding
  | ok content =>
    simp only [htext] at hfinding
    rw [findingIn?, Option.map_eq_some_iff] at hfinding
    obtain ⟨line, -, hline⟩ := hfinding
    exact Finding.isNormal_of_eq_some (congrArg Finding.weakness hline.symm) hc

end SourceCheck

theorem Advisory.isNormal_of_finding? {a : Advisory} {root : Path} {files : FileTree}
    {here : Route} {f : Finding} (h : a.finding? root files here = some f) : f.IsNormal := by
  unfold finding? at h
  cases htext : files.readText here (root.join ⟨a.manifest⟩) with
  | error e =>
    simp only [htext] at h
    cases h
  | ok content =>
    simp only [htext] at h
    rw [findingIn?, Option.map_eq_some_iff] at h
    obtain ⟨lead, -, hlead⟩ := h
    exact Finding.isNormal_of_eq_some (congrArg Finding.weakness hlead.symm)
      Weakness.isNormal_missingAuthorization

/-- The findings of the built-in checks are normal. -/
theorem Scan.isNormal_of_mem_findings {s : Scan} {profile : Profile} {advisories : List Advisory}
    {files : FileTree} {here : Route} {f : Finding}
    (h : f ∈ s.findings profile advisories files here) : f.IsNormal := by
  have hsource : ∀ c : SourceCheck, c.weakness.IsNormal →
      f ∈ (if profile.covers c.profile then c.findings s files here else []) → f.IsNormal := by
    intro c hc hmem
    split at hmem
    · exact SourceCheck.isNormal_of_mem_findings hc hmem
    · cases hmem
  rw [findings] at h
  simp only [List.mem_append] at h
  rcases h with ((h | h) | h) | h
  · exact hsource .prompt rfl h
  · exact hsource .markup rfl h
  · split at h
    · obtain ⟨a, -, hfinding⟩ := List.mem_filterMap.mp h
      exact Advisory.isNormal_of_finding? hfinding
    · cases h
  · exact hsource .command rfl h

namespace Tool

theorem isNormal_of_mem_bandit {root : Path} {output : List Char} {findings : List Finding}
    (h : banditFindings? root output = some findings) : ∀ f ∈ findings, f.IsNormal := by
  simp only [banditFindings?, Option.bind_eq_bind, Option.bind_eq_some_iff, Option.some.injEq] at h
  obtain ⟨j, -, fields, -, results, -, rfl⟩ := h
  intro f hf
  obtain ⟨r, -, rfl⟩ := List.mem_map.mp hf
  intro w hw
  obtain ⟨n, -, rfl⟩ := Option.map_eq_some_iff.mp hw
  exact Weakness.isNormal_ofNumber n

theorem isNormal_of_mem_eslint {root : Path} {output : List Char} {findings : List Finding}
    (h : eslintFindings? root output = some findings) : ∀ f ∈ findings, f.IsNormal := by
  simp only [eslintFindings?, Option.bind_eq_bind, Option.bind_eq_some_iff, Option.some.injEq] at h
  obtain ⟨j, -, reported, -, rfl⟩ := h
  intro f hf
  obtain ⟨file, -, hf⟩ := List.mem_flatMap.mp hf
  obtain ⟨m, -, rfl⟩ := List.mem_map.mp hf
  exact Finding.isNormal_of_eq_some rfl Weakness.isNormal_crossSiteScripting

theorem isNormal_of_mem_brakeman {root : Path} {output : List Char} {findings : List Finding}
    (h : brakemanFindings? root output = some findings) : ∀ f ∈ findings, f.IsNormal := by
  simp only [brakemanFindings?, Option.bind_eq_bind, Option.bind_eq_some_iff,
    Option.some.injEq] at h
  obtain ⟨j, -, fields, -, warnings, -, rfl⟩ := h
  intro f hf
  obtain ⟨warning, -, rfl⟩ := List.mem_map.mp hf
  exact Finding.isNormal_of_eq_some rfl Weakness.isNormal_codeInjection

theorem isNormal_of_mem_pipAudit {root : Path} {output : List Char} {findings : List Finding}
    (h : pipAuditFindings? root output = some findings) : ∀ f ∈ findings, f.IsNormal := by
  simp only [pipAuditFindings?, Option.bind_eq_bind, Option.bind_eq_some_iff] at h
  obtain ⟨j, -, h⟩ := h
  split at h
  · cases h
  · have hflat : ∃ dependencies : List Dependency,
        findings = dependencies.flatMap (Dependency.findings root) := by
      split at h
      · next ds _ => exact ⟨ds, (Option.some.inj h).symm⟩
      · obtain ⟨ds, -, hds⟩ := Option.bind_eq_some_iff.mp h
        exact ⟨ds, (Option.some.inj hds).symm⟩
    obtain ⟨dependencies, rfl⟩ := hflat
    intro f hf
    obtain ⟨d, -, hf⟩ := List.mem_flatMap.mp hf
    obtain ⟨v, -, rfl⟩ := List.mem_map.mp hf
    exact Finding.isNormal_of_eq_some rfl Weakness.isNormal_vulnerableComponent

/-- The findings of an analyzer's report are normal. -/
theorem isNormal_of_mem_findings? {root : Path} {output : List Char} {t : Tool}
    {findings : List Finding} (h : t.findings? root output = some findings) :
    ∀ f ∈ findings, f.IsNormal := by
  cases t with
  | bandit => exact isNormal_of_mem_bandit h
  | eslint => exact isNormal_of_mem_eslint h
  | brakeman => exact isNormal_of_mem_brakeman h
  | pipAudit => exact isNormal_of_mem_pipAudit h

/-- Whatever an analyzer replies, the findings are normal. -/
theorem isNormal_of_mem_outcomeOf {root : Path} {reply : Reply} {t : Tool} {f : Finding}
    (h : f ∈ (t.outcomeOf root reply).findings) : f.IsNormal := by
  rw [outcomeOf] at h
  split at h
  · split at h <;> cases h
  · split at h
    · next findings hfindings => exact isNormal_of_mem_findings? hfindings f h
    · split at h <;> cases h

end Tool

end RepoAudit
