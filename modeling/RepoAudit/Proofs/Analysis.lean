import RepoAudit.Scan.Surroundings
import RepoAudit.Proofs.FileTree.Passage
import RepoAudit.Proofs.Succession

/-!
# What an analysis finds

The findings of an analysis are told by the snapshot's root and ecosystems, by what the files show
to the built-in checks, and by what the programs reply. The analyzers are asked in the root, which
is a directory whenever one of them is chosen: a manifest was found in it. So two analyses that are
shown the same find the same.

## Main definitions

- `World.Ahead` — a world that was reached from another one
- `Scan.SeesSame` — two trees of files show a scan the same
- `Session.SameRepository` — two worlds show the same repository
- `Session.findingsIn` — the findings of a repository

## Main statements

- `Session.findings_of_analyze` — an analysis has these findings
- `Session.findingsIn_congr` — the same repository has the same findings
-/

namespace RepoAudit

open Act FileTree

/-! ## Worlds that were reached -/

/-- A world was reached from another one: no directory is gone, and the programs are the same. -/
structure World.Ahead (start w : World) : Prop extends World.Follows start w where
  /-- The directories have stayed. -/
  grows : Grows start.files w.files
  /-- The clock is the same. -/
  clock : w.clock = start.clock

namespace World.Ahead

variable {w w₁ w₂ : World}

theorem trans (h : World.Ahead w w₁) (h' : World.Ahead w₁ w₂) : World.Ahead w w₂ :=
  ⟨h.toFollows.trans h'.toFollows, h.grows.trans h'.grows, h'.clock.trans h.clock⟩

theorem passes {p : Path} (h : World.Ahead w w₁) (hp : w.files.Passes w.here p) :
    w₁.files.Passes w₁.here p := by
  rw [h.here]
  exact hp.mono h.grows

end World.Ahead

namespace Session

/-- What is permitted under every watch that permits repairs leads to a world that was reached, and
its value is what it keeps. -/
theorem ahead_of_keeps (session : Session) {α : Type} {act : Act α} {Q : α → Prop} {w w' : World}
    {a : α} (hact : ∀ W, session.Permits (fun _ => True) W → Keeps W True act Q)
    (hrun : act w = (.ok a, w')) : World.Ahead w w' ∧ Q a := by
  obtain ⟨hfollows, hvalue⟩ := (hact (World.progress w) permitsRepairs_progress.toPermits).run hrun
    trivial ⟨rfl, rfl, Nat.le_refl _⟩ not_false
  obtain ⟨hgrows, hclock⟩ := (hact (World.course w) permitsRepairs_course.toPermits).kept hrun
    trivial ⟨.refl _, rfl⟩ not_false
  exact ⟨⟨hfollows, hgrows, hclock⟩, hvalue⟩

end Session

/-! ## Built-in checks -/

/-- Two trees of files show a scan the same. -/
structure Scan.SeesSame (scan : Scan) (advisories : List Advisory) (here : Route)
    (files files' : FileTree) : Prop where
  /-- The same files are looked at. -/
  listed : scan.files files' here = scan.files files here
  /-- They have the same texts. -/
  texts : ∀ p ∈ scan.files files here, files'.readText here p = files.readText here p
  /-- The manifests of the advisories have the same texts. -/
  manifests : ∀ a ∈ advisories, files'.readText here (scan.root.join ⟨a.manifest⟩) =
    files.readText here (scan.root.join ⟨a.manifest⟩)
  /-- The analyzers have the same inputs. -/
  inputs : ∀ t ∈ Tool.all, t.hasInput scan.root files' here = t.hasInput scan.root files here

namespace Scan.SeesSame

variable {scan : Scan} {advisories : List Advisory} {here : Route} {files files' : FileTree}

instance : Decidable (scan.SeesSame advisories here files files') :=
  decidable_of_iff
    (scan.files files' here = scan.files files here ∧
      (∀ p ∈ scan.files files here, files'.readText here p = files.readText here p) ∧
      (∀ a ∈ advisories, files'.readText here (scan.root.join ⟨a.manifest⟩) =
        files.readText here (scan.root.join ⟨a.manifest⟩)) ∧
      ∀ t ∈ Tool.all, t.hasInput scan.root files' here = t.hasInput scan.root files here)
    ⟨fun h => ⟨h.1, h.2.1, h.2.2.1, h.2.2.2⟩,
      fun h => ⟨h.listed, h.texts, h.manifests, h.inputs⟩⟩

theorem sourceFindings_eq (h : scan.SeesSame advisories here files files') (c : SourceCheck) :
    c.findings scan files' here = c.findings scan files here := by
  rw [SourceCheck.findings, SourceCheck.findings, filesWith, filesWith, h.listed]
  refine List.filterMap_congr fun p hp => ?_
  rw [h.texts p (List.mem_of_mem_filter hp)]

theorem findings_eq (h : scan.SeesSame advisories here files files') (profile : Profile) :
    scan.findings profile advisories files' here =
      scan.findings profile advisories files here := by
  have hpins : advisories.filterMap (Advisory.finding? scan.root files' here) =
      advisories.filterMap (Advisory.finding? scan.root files here) := by
    refine List.filterMap_congr fun a ha => ?_
    unfold Advisory.finding?
    dsimp only
    rw [h.manifests a ha]
  rw [Scan.findings, Scan.findings]
  dsimp only
  rw [h.sourceFindings_eq .prompt, h.sourceFindings_eq .markup, h.sourceFindings_eq .command, hpins]

theorem select_eq (h : scan.SeesSame advisories here files files') (profile : Profile)
    (ecosystems : List Ecosystem) (settings : Settings) :
    Tool.select profile ecosystems settings scan.root files' here =
      Tool.select profile ecosystems settings scan.root files here := by
  rw [Tool.select, Tool.select]
  refine List.filter_congr fun t ht => ?_
  rw [h.inputs t ht]

end Scan.SeesSame

/-- An ecosystem is detected in a directory alone. -/
theorem Ecosystem.passes_of_mem_detect {root : Path} {files : FileTree} {here : Route}
    {e : Ecosystem} (h : e ∈ Ecosystem.detect root files here) : files.Passes here root := by
  have hplain : ∀ e : Ecosystem, ∀ name ∈ e.manifests, '/' ∉ name.toList ∧ IsPlainSlug name := by
    intro e
    cases e <;> decide
  rw [detect, List.mem_filter, List.any_eq_true] at h
  obtain ⟨-, name, hname, hfile⟩ := h
  rw [FileTree.isFile] at hfile
  split at hfile
  · next hlookup => exact (Passes.of_lookup_entry (hplain e name hname).1 (hplain e name hname).2
      hlookup).2
  · cases hfile

/-! ## Analyzers -/

/-- What starting a program in a directory comes to. -/
def Act.answerIn (directory : Path) (arguments : List String) (program : Program) :
    Except FileError Reply :=
  if arguments.any fun a => a.toList.contains (Char.ofNat 0) then .error .nullInArgument
  else if directory.chars.contains (Char.ofNat 0) then .error .nullInArgument
  else if directory.chars = [] then .error .notFound
  else
    match program with
    | .missing => .error .notFound
    | .forbidden => .error .denied
    | .present reply => .ok (reply arguments)

/-- In a directory a program does what it would do in any other one. -/
theorem Act.start_of_passes {w : World} {p : Path} (h : w.files.Passes w.here p) (name : String)
    (arguments : List String) :
    (Act.start name arguments (some p) w).1 =
      .ok (answerIn p arguments (w.programs name)) := by
  have hget : (get : Act World) w = (.ok w, w) := rfl
  rw [Act.start, run_bind, hget]
  dsimp only [answerIn]
  split
  · rfl
  split
  · rfl
  next hnull =>
  by_cases hchars : p.chars = []
  · have hlookup : w.files.lookup w.here p = .error .notFound := by
      rw [lookup, place, hchars]
      rfl
    rw [hlookup, if_pos hchars]
    rfl
  · obtain ⟨d, hd⟩ := h.exists_lookup hchars (by simpa using hnull)
    rw [hd, if_neg hchars]
    dsimp only
    cases w.programs name <;> rfl

/-- What comes of asking an analyzer in a directory. -/
def Tool.outcomeIn (root : Path) (programs : String → Program) (t : Tool) : Outcome :=
  match answerIn root t.arguments (programs t.name) with
  | .ok reply => t.outcomeOf root reply
  | .error .notFound => .absent
  | .error cause => .failed ("could not start: " ++ cause.message)

theorem Tool.run_of_passes {w w' : World} {root : Path} {t : Tool} {outcome : Outcome}
    (hroot : w.files.Passes w.here root) (h : t.run root w = (.ok outcome, w')) :
    outcome = t.outcomeIn root w.programs := by
  obtain ⟨result, w₁, hstart, h⟩ := run_bind_eq_ok.mp h
  have hvalue := start_of_passes hroot t.name t.arguments
  rw [hstart] at hvalue
  obtain rfl := Except.ok.inj hvalue
  rw [outcomeIn]
  cases hanswer : answerIn root t.arguments (w.programs t.name) with
  | ok reply =>
    rw [hanswer] at h
    cases h
    rfl
  | error e =>
    rw [hanswer] at h
    cases e <;>
    · cases h
      rfl

namespace Session

variable {session : Session} {profile : Profile} {s s' t : Snapshot} {w w' : World}
  {found : List Finding}

/-- The findings of the analyzers that are asked in a directory. -/
theorem findings_of_askTools {tools : List Tool} (hroot : w.files.Passes w.here s.root)
    (h : session.askTools tools s w = (.ok (t, found), w')) :
    found = tools.flatMap fun tool => (tool.outcomeIn s.root w.programs).findings := by
  induction tools generalizing s w found with
  | nil =>
    cases h
    rfl
  | cons tool tools ih =>
    obtain ⟨outcome, w₁, hrun, h⟩ := run_bind_eq_ok.mp h
    obtain ⟨s₁, w₂, hlog, h⟩ := run_bind_eq_ok.mp h
    obtain ⟨⟨s₂, rest⟩, w₃, hrest, h⟩ := run_bind_eq_ok.mp h
    cases h
    have hrunAhead :=
      (session.ahead_of_keeps (fun W hW => keeps_toolRun hW.letsStart _ _) hrun).1
    obtain ⟨hlogAhead, log, rfl⟩ :=
      session.ahead_of_keeps (fun W hW => hW.log _ fun _ => trivial) hlog
    -- The log is no part of the root, and the world before the rest is one that was reached.
    have hahead := hrunAhead.trans hlogAhead
    have hfound := ih (s := { s with log := log }) (hahead.passes hroot) hrest
    rw [List.flatMap_cons, Tool.run_of_passes hroot hrun, hfound, hahead.programs]
    rfl

/-- The findings of a repository: those of the built-in checks and those of the analyzers. -/
def findingsIn (session : Session) (profile : Profile) (s : Snapshot) (w : World) :
    List Finding :=
  (session.scanOf s).findings profile session.settings.advisories w.files w.here ++
    (Tool.select profile (s.ecosystems.getD []) session.settings s.root w.files w.here).flatMap
      fun t => (t.outcomeIn s.root w.programs).findings

/-- An analysis has the findings of the repository, if its root is a directory whenever it has an
ecosystem. -/
theorem findings_of_analyze
    (hroot : ∀ e ∈ s.ecosystems.getD [], w.files.Passes w.here s.root)
    (h : session.analyze profile s w = (.ok (t, found), w')) :
    found = session.findingsIn profile s w := by
  obtain ⟨built, w₁, hbuilt, h⟩ := run_bind_eq_ok.mp h
  obtain ⟨tools, w₂, htools, h⟩ := run_bind_eq_ok.mp h
  obtain ⟨⟨s₁, asked⟩, w₃, hasked, h⟩ := run_bind_eq_ok.mp h
  obtain ⟨s₂, w₄, -, hend⟩ := run_bind_eq_ok.mp h
  rw [run_look] at hbuilt htools
  obtain ⟨hfirst, rfl⟩ := Prod.mk.inj hbuilt
  obtain rfl := Except.ok.inj hfirst
  obtain ⟨hsecond, rfl⟩ := Prod.mk.inj htools
  obtain rfl := Except.ok.inj hsecond
  obtain ⟨hlast, -⟩ := Prod.mk.inj hend
  obtain ⟨-, rfl⟩ := Prod.mk.inj (Except.ok.inj hlast)
  rw [findingsIn]
  congr 1
  cases hselect : Tool.select profile (s.ecosystems.getD []) session.settings s.root w.files w.here
    with
  | nil =>
    rw [hselect] at hasked
    cases hasked
    rfl
  | cons tool tools =>
    -- The first analyzer was chosen for an ecosystem.
    have hmem : tool ∈ Tool.select profile (s.ecosystems.getD []) session.settings s.root w.files
        w.here := hselect ▸ List.mem_cons_self
    have hecosystem : tool.ecosystem ∈ s.ecosystems.getD [] := by
      have hchosen := (List.mem_filter.mp hmem).2
      simp only [Bool.and_eq_true, List.contains_iff_mem] at hchosen
      exact hchosen.1.1.2
    rw [hselect] at hasked
    exact findings_of_askTools (hroot _ hecosystem) hasked

/-- Two worlds show the same repository, as two snapshots know it. -/
structure SameRepository (session : Session) (s s' : Snapshot) (w w' : World) : Prop where
  /-- The root is the same. -/
  root : s'.root = s.root
  /-- The ecosystems are the same. -/
  ecosystems : s'.ecosystems = s.ecosystems
  /-- The files are the same. -/
  files : (session.scanOf s).SeesSame session.settings.advisories w.here w.files w'.files

instance (session : Session) (s s' : Snapshot) (w w' : World) :
    Decidable (session.SameRepository s s' w w') :=
  decidable_of_iff
    (s'.root = s.root ∧ s'.ecosystems = s.ecosystems ∧
      (session.scanOf s).SeesSame session.settings.advisories w.here w.files w'.files)
    ⟨fun h => ⟨h.1, h.2.1, h.2.2⟩, fun h => ⟨h.root, h.ecosystems, h.files⟩⟩

/-- The same repository has the same findings, where the programs are the same. -/
theorem findingsIn_congr (h : session.SameRepository s s' w w') (hhere : w'.here = w.here)
    (hprograms : w'.programs = w.programs) :
    session.findingsIn profile s' w' = session.findingsIn profile s w := by
  have hscan : session.scanOf s' = session.scanOf s := by rw [scanOf, scanOf, h.root]
  have hselect := h.files.select_eq profile (s.ecosystems.getD []) session.settings
  rw [show (session.scanOf s).root = s.root from rfl] at hselect
  rw [findingsIn, findingsIn, hscan, h.root, h.ecosystems, hhere, hprograms, h.files.findings_eq,
    hselect]

end Session

end RepoAudit
