import RepoAudit.Proofs.FileTree.Frame
import RepoAudit.Proofs.Python.Prompt
import RepoAudit.Proofs.Remedy.Pin
import RepoAudit.Scan.Check

/-!
# Scans and acceptance checks agree

A scan and an acceptance check look at a file in different ways: one at its rows and at the pins of
each manifest, the other at its lines and at the pins of every advisory with the file's name. What
an acceptance check passes is still what the scan reports nothing about.

## Main statements

- `SourceCheck.mem_findings`, `Scan.exists_of_mem_findings` — where the findings of a scan come from
- `Scan.findings_agree` — a file that passes the check of a remedy has no finding that the remedy
  is for, and raw prompts are numbered as the check numbers them
-/

namespace RepoAudit

open RepoAudit.Text

namespace SourceCheck

variable {c : SourceCheck} {s : Scan} {files : FileTree} {here : Route} {f : Finding}

theorem mem_findings : f ∈ c.findings s files here ↔
    ∃ path ∈ s.filesWith c.extensions files here, ∃ text, files.readText here path = .ok text ∧
      c.findingIn? path text.toList = some f := by
  rw [findings, List.mem_filterMap]
  refine exists_congr fun path => and_congr_right fun _ => ?_
  cases files.readText here path with
  | error e => simp
  | ok text => simp

/-- The built-in checks of sources. -/
def IsBuiltIn (c : SourceCheck) : Prop :=
  c = prompt ∨ c = markup ∨ c = command

/-- A text that passes the acceptance check of a remedy has no line that is weak in the way that the
remedy is for. -/
theorem IsBuiltIn.weakLine?_eq_none (hc : c.IsBuiltIn) {r : Remedy}
    (hr : Remedy.for? c.weakness = some r) {advisories : List Advisory} {path : Path}
    {content : List Char} (h : r.verify advisories path content = .passed) :
    c.weakLine? content = none := by
  rcases hc with rfl | rfl | rfl <;> obtain rfl := Option.some.inj hr
  · -- The check of prompts goes by rows, the acceptance check by lines.
    show promptLine? content = none
    have hlines : Python.firstPromptLine? (splitLines content).1 = none := by
      rw [Remedy.verify, Remedy.Prompt.verify] at h
      split at h
      · cases h
      split at h
      · cases h
      dsimp only at h
      split at h
      · cases h
      · assumption
    rw [promptLine?, Python.firstPromptLine?_rows, hlines]
    exact ite_self none
  · show sinkLine? content = none
    rw [Remedy.verify, Remedy.Markup.verify] at h
    split at h
    · cases h
    · split at h
      · cases h
      · next hsink => rw [sinkLine?, hsink, Option.map_none]
  · show shellLine? content = none
    rw [Remedy.verify, Remedy.Command.verify] at h
    split at h
    · cases h
    split at h
    · cases h
    · split at h
      · cases h
      · next hsite => rw [shellLine?, hsite, Option.bind_none]

end SourceCheck

namespace Advisory

/-- A text that passes the acceptance check of pins has no finding of an advisory in whose manifest
it stands. -/
theorem findingIn?_eq_none {a : Advisory} {advisories : List Advisory} {path : Path}
    {content : List Char} (ha : a ∈ Remedy.Pin.advisoriesFor path advisories)
    (h : Remedy.verify advisories path content .pin = .passed) (place : Path) :
    a.findingIn? place content = none := by
  have hpins := (Remedy.Pin.verify_eq_passed_iff.mp h).1 a ha
  rw [findingIn?, beforeFirst?_eq_none_iff.mpr hpins, Option.map_none]

theorem finding?_eq_some {a : Advisory} {root : Path} {files : FileTree} {here : Route} {f : Finding}
    (h : a.finding? root files here = some f) :
    ∃ text, files.readText here (root.join ⟨a.manifest⟩) = .ok text ∧
      a.findingIn? (root.join ⟨a.manifest⟩) text.toList = some f := by
  unfold finding? at h
  cases htext : files.readText here (root.join ⟨a.manifest⟩) with
  | error e =>
    simp only [htext] at h
    cases h
  | ok text =>
    simp only [htext] at h
    exact ⟨text, rfl, h⟩

end Advisory

namespace Scan

open RepoAudit.FileTree

variable {s : Scan} {profile : Profile} {advisories : List Advisory} {files : FileTree}
  {here : Route} {f : Finding}

theorem exists_of_mem_findings (h : f ∈ s.findings profile advisories files here) :
    (∃ c : SourceCheck, c.IsBuiltIn ∧ profile.covers c.profile ∧ f ∈ c.findings s files here) ∨
      ∃ a ∈ advisories, a.finding? s.root files here = some f := by
  have hsource : ∀ c : SourceCheck,
      f ∈ (if profile.covers c.profile then c.findings s files here else []) →
        profile.covers c.profile ∧ f ∈ c.findings s files here := by
    intro c hmem
    split at hmem
    · next hcovers => exact ⟨hcovers, hmem⟩
    · cases hmem
  rw [findings] at h
  simp only [List.mem_append] at h
  obtain ((h | h) | h) | h := h
  · exact .inl ⟨.prompt, .inl rfl, hsource _ h⟩
  · exact .inl ⟨.markup, .inr (.inl rfl), hsource _ h⟩
  · split at h
    · obtain ⟨a, ha, hfinding⟩ := List.mem_filterMap.mp h
      exact .inr ⟨a, ha, hfinding⟩
    · cases h
  · exact .inl ⟨.command, .inr (.inr rfl), hsource _ h⟩

theorem mem_findings_prompt (h : profile.covers .prompt)
    (hf : f ∈ SourceCheck.prompt.findings s files here) :
    f ∈ s.findings profile advisories files here := by
  rw [findings]
  simp only [List.mem_append]
  refine .inl (.inl (.inl ?_))
  rwa [if_pos (show profile.covers SourceCheck.prompt.profile from h)]

/-- A finding that a remedy is for stands in no file that passes its acceptance check, under
whatever path the scan meets the file. -/
theorem routeFrom_ne_of_passed {path : Path} {text : String}
    (htext : files.readText here path = .ok text) {r : Remedy}
    (hpassed : r.verify advisories path text.toList = .passed)
    (hf : f ∈ s.findings profile advisories files here)
    (hr : f.weakness.bind Remedy.for? = some r) :
    f.file.routeFrom here ≠ path.routeFrom here := by
  intro hroute
  obtain ⟨c, hc, -, hmem⟩ | ⟨a, ha, hfinding⟩ := exists_of_mem_findings hf
  · obtain ⟨found, -, text', htext', hline⟩ := SourceCheck.mem_findings.mp hmem
    rw [SourceCheck.findingIn?, Option.map_eq_some_iff] at hline
    obtain ⟨line, hline, rfl⟩ := hline
    obtain rfl : text' = text := readText_eq_of_routeFrom hroute htext' htext
    rw [hc.weakLine?_eq_none hr hpassed] at hline
    cases hline
  · obtain ⟨text', htext', hpin⟩ := Advisory.finding?_eq_some hfinding
    have hpin' := hpin
    rw [Advisory.findingIn?, Option.map_eq_some_iff] at hpin'
    obtain ⟨lead, -, rfl⟩ := hpin'
    obtain rfl : text' = text := readText_eq_of_routeFrom hroute htext' htext
    obtain rfl : Remedy.pin = r := Option.some.inj hr
    -- Both paths name the entry, so the manifest has the file name that the remedy goes by.
    obtain ⟨parent, name, hplace⟩ := exists_place_of_readText htext'
    obtain ⟨parent', name', hplace'⟩ := exists_place_of_readText htext
    have hname : name = name' := by
      have hroutes := hroute
      rw [(place_entry hplace).1, (place_entry hplace').1] at hroutes
      exact List.singleton_inj.mp (List.append_inj' hroutes rfl).2
    have happlies : a ∈ Remedy.Pin.advisoriesFor path advisories := by
      rw [Remedy.Pin.advisoriesFor, (place_entry hplace').2, ← hname]
      dsimp only
      rw [List.mem_filter, fileName?_of_place_join hplace]
      exact ⟨ha, beq_self_eq_true _⟩
    rw [Advisory.findingIn?_eq_none happlies hpassed] at hpin
    cases hpin

/-- Scans and acceptance checks agree on every file that can be read: one that passes the check of a
remedy has no finding that the remedy is for, and in a file of Python that mentions a client of a
language model the scan reports the first raw prompt among the lines that the check goes by. -/
theorem findings_agree {path : Path} {text : String}
    (htext : files.readText here path = .ok text) :
    (∀ r : Remedy, r.verify advisories path text.toList = .passed →
      ∀ f ∈ s.findings profile advisories files here, f.weakness.bind Remedy.for? = some r →
        f.file.routeFrom here ≠ path.routeFrom here) ∧
    (path ∈ s.filesWith ["py"] files here → Python.mentionsClient text.toList →
      profile.covers .prompt → ∀ n,
        (∃ f ∈ s.findings profile advisories files here,
          f.weakness = some .promptInjection ∧ f.file = path ∧ f.line = some n) ↔
        (Python.firstPromptLine? (splitLines text.toList).1).map (· + 1) = some n) := by
  refine ⟨fun r hpassed f hf hr => routeFrom_ne_of_passed htext hpassed hf hr, ?_⟩
  intro hpath hclient hcovers n
  have hlines : SourceCheck.promptLine? text.toList =
      (Python.firstPromptLine? (splitLines text.toList).1).map (· + 1) := by
    rw [SourceCheck.promptLine?, if_pos hclient, Python.firstPromptLine?_rows]
  rw [← hlines]
  constructor
  · rintro ⟨f, hf, hweakness, hfile, hline⟩
    obtain ⟨c, hc, -, hmem⟩ | ⟨a, -, hfinding⟩ := exists_of_mem_findings hf
    · obtain ⟨found, -, text', htext', hfound⟩ := SourceCheck.mem_findings.mp hmem
      rw [SourceCheck.findingIn?, Option.map_eq_some_iff] at hfound
      obtain ⟨line, hfound, rfl⟩ := hfound
      obtain rfl : found = path := hfile
      obtain rfl : text' = text := Except.ok.inj (htext'.symm.trans htext)
      obtain rfl := Option.some.inj hline
      obtain rfl | rfl | rfl := hc
      · exact hfound
      · cases hweakness
      · cases hweakness
    · obtain ⟨text', -, hpin⟩ := Advisory.finding?_eq_some hfinding
      rw [Advisory.findingIn?, Option.map_eq_some_iff] at hpin
      obtain ⟨lead, -, rfl⟩ := hpin
      cases hweakness
  · intro hfirst
    obtain ⟨f, hfound, hweakness, hfile, hline⟩ :
        ∃ f, SourceCheck.prompt.findingIn? path text.toList = some f ∧
          f.weakness = some .promptInjection ∧ f.file = path ∧ f.line = some n := by
      rw [SourceCheck.findingIn?,
        show SourceCheck.prompt.weakLine? text.toList = some n from hfirst]
      exact ⟨_, rfl, rfl, rfl, rfl⟩
    exact ⟨f, mem_findings_prompt hcovers (SourceCheck.mem_findings.mpr
      ⟨path, hpath, text, htext, hfound⟩), hweakness, hfile, hline⟩

/-- A program whose second line builds a prompt and ends with a carriage return. -/
def promptText : String := "import openai\nprompt = \"Say: \" + user_input\r\n"

/-- A tree with a repository that holds the program. -/
def promptTree : FileTree :=
  ⟨[(["r"], .directory), (["r", "a.py"], .file promptText.toUTF8)]⟩

/-- An advisory on the program's own import, whose vulnerable form is not there. -/
def importAdvisory : Advisory := ⟨"a.py", "import oldai", "import openai", "old"⟩

theorem findings_agree_promptTree :
    let s : Scan := ⟨⟨"r"⟩, [], none⟩
    (∀ f ∈ s.findings .all [importAdvisory] promptTree [],
      f.weakness.bind Remedy.for? = some .pin →
        f.file.routeFrom [] ≠ (Path.mk "r/a.py").routeFrom []) ∧
    ∃ f ∈ s.findings .all [importAdvisory] promptTree [],
      f.weakness = some .promptInjection ∧ f.file = ⟨"r/a.py"⟩ ∧ f.line = some 2 := by
  intro s
  have htext : promptTree.readText [] ⟨"r/a.py"⟩ = .ok promptText := by decide +kernel
  have hagree := @findings_agree s .all [importAdvisory] promptTree [] ⟨"r/a.py"⟩ promptText htext
  refine ⟨hagree.1 .pin (by decide +kernel), ?_⟩
  refine (hagree.2 ?_ ?_ rfl 2).mpr ?_
  · decide +kernel
  · decide +kernel
  · decide +kernel

end Scan

end RepoAudit
