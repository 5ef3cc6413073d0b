import RepoAudit.Proofs.Checkout
import RepoAudit.Proofs.Path.Below
import RepoAudit.Proofs.Rescan

/-!
# What is staged for an issue

To commit an issue, version control is asked for the checkout around the repository and is then
started to stage and to commit. Both commands are limited to the file of the issue by what is left
of its path below the checkout. Nothing is left when the file is the checkout itself, which an
analyzer may report, and then everything is staged and committed.

## Main definitions

- `Call.IsStaging` — version control was started to stage or to commit
- `Call.IsLimitedTo` — a command is limited to a file that it names
- `World.record` — the watch over the programs that are started

## Main statements

- `calls_commitIssue` — the programs that are started to commit an issue
- `isLimitedTo_commitIssue_iff` — when the commands are limited to the file of the issue
-/

namespace RepoAudit

open Act

/-- Version control was started to stage or to commit. -/
def Call.IsStaging (c : Call) : Prop :=
  c.name = Checkout.program ∧
    (c.arguments.head? = some "add" ∨ c.arguments.head? = some "commit")

/-- A command in a directory is limited to a file, which it names by some text. -/
def Call.IsLimitedTo (directory file : Path) (c : Call) : Prop :=
  ∃ spec : Path, spec.text ≠ "" ∧ ["--", spec.text] <:+ c.arguments ∧
    (directory.join spec).same file = true

/-! ## The record of programs -/

/-- The watch over the programs that are started after another world: they have a property. -/
def World.record (P : Call → Prop) (start : World) : Act.Watch where
  holds := fun w => ∃ new, w.calls = start.calls ++ new ∧ ∀ c ∈ new, P c
  excuses := fun _ => False
  excuses_append := fun _ _ h => h

variable {P : Call → Prop} {start w : World}

/-- The programs that a step starts have the property that it keeps to. -/
theorem Act.Keeps.calls_eq {α : Type} {act : Act α} {Q : α → Prop}
    (h : Keeps (World.record P w) True act Q) :
    ∃ new, (act w).2.calls = w.calls ++ new ∧ ∀ c ∈ new, P c := by
  have hstart : (World.record P w).holds w :=
    ⟨[], (List.append_nil _).symm, fun c hc => absurd hc List.not_mem_nil⟩
  exact (((h w).2 trivial hstart).resolve_left id).1

/-- A step takes nothing off the record. -/
theorem Act.calls_isPrefix_of_keeps {α : Type} {act : Act α}
    (h : Keeps (World.record (fun _ => True) w) True act fun _ => True) :
    w.calls <+: (act w).2.calls := by
  obtain ⟨new, hnew, -⟩ := h.calls_eq
  exact ⟨new, hnew.symm⟩

namespace Checkout

theorem lets_record {arguments : List String} (h : ∀ directory, P ⟨program, directory, arguments⟩) :
    Lets (World.record P start) arguments := by
  intro p directory? w
  rcases run_start program arguments directory? w with ⟨result, hrun⟩ | ⟨reply, route, -, hrun⟩
  · rw [hrun]
    exact ⟨id, fun _ hw => .inr ⟨hw, fun _ _ => trivial⟩⟩
  · rw [hrun]
    refine ⟨id, fun _ ⟨new, hnew, hP⟩ => .inr ⟨?_, fun _ _ => trivial⟩⟩
    refine ⟨new ++ [⟨program, FileTree.pathOf route, arguments⟩], ?_, ?_⟩
    · rw [← List.append_assoc, ← hnew]
    · rw [List.forall_mem_append]
      exact ⟨hP, fun c hc => List.mem_singleton.mp hc ▸ h _⟩

/-! ## The arguments -/

theorem pair_suffix_iff (front : List String) {a b c d : String} :
    [a, b] <:+ front ++ [c, d] ↔ a = c ∧ b = d := by
  refine ⟨fun h => ?_, ?_⟩
  · have hsuffix := List.suffix_of_suffix_length_le h (List.suffix_append front [c, d]) (by simp)
    have heq := hsuffix.eq_of_length rfl
    exact ⟨List.head_eq_of_cons_eq heq, List.head_eq_of_cons_eq (List.tail_eq_of_cons_eq heq)⟩
  · rintro ⟨rfl, rfl⟩
    exact List.suffix_append _ _

theorem limit_suffix_iff (front : List String) {p q : Path} :
    ["--", q.text] <:+ front ++ limitedTo (some p) ↔ some p = some q := by
  rw [limitedTo, pair_suffix_iff, Option.some.injEq]
  cases p
  cases q
  simp [eq_comm]

/-- Staging is limited to the path that is given to it. -/
theorem suffix_addArguments_iff {spec : Option Path} {q : Path} :
    ["--", q.text] <:+ addArguments spec ↔ spec = some q := by
  cases spec with
  | none =>
    refine iff_of_false (fun h => ?_) (by simp)
    exact absurd ((pair_suffix_iff []).mp h).1 (by decide)
  | some p => exact limit_suffix_iff ["add"]

/-- Committing is limited to the path that is given to it. -/
theorem suffix_commitArguments_iff {spec : Option Path} {message : CommitMessage} {q : Path} :
    ["--", q.text] <:+ commitArguments spec message ↔ spec = some q := by
  rw [commitArguments]
  cases spec with
  | none =>
    refine iff_of_false (fun h => ?_) (by simp)
    rw [limitedTo, List.append_nil] at h
    split at h
    · rw [List.append_nil] at h
      exact absurd ((pair_suffix_iff ["commit"]).mp h).1 (by decide)
    · exact absurd ((pair_suffix_iff _).mp h).1 (by decide)
  | some p => exact limit_suffix_iff _

theorem pathspec?_eq_some_iff {root file q : Path} :
    pathspec? root (some file) = some q ↔ q = file.below root ∧ q.text ≠ "" := by
  rw [pathspec?, Option.map_some, Option.filter_eq_some_iff, Option.some.injEq, Bool.not_eq_true',
    String.isEmpty_eq_false_iff, eq_comm]

end Checkout

/-! ## Committing an issue -/

open Checkout

/-- The programs that are started to commit a file: one to stage it and one to commit it. -/
theorem calls_commit (root : Path) (file : Option Path) (message : CommitMessage) (w : World) :
    ∃ new, (commit root file message w).2.calls = w.calls ++ new ∧ ∀ c ∈ new,
      c.arguments = addArguments (pathspec? root file) ∨
        c.arguments = commitArguments (pathspec? root file) message :=
  (keeps_commit (lets_record fun _ => .inl rfl) (lets_record fun _ => .inr rfl)).calls_eq

/-- Whatever the commit of an issue comes to, its outcome is a value, and nothing else is done. -/
theorem commitIssue_world {s : Snapshot} {w w' : World} {root : Path}
    (hroot : root? s.root w = (.ok (some root), w')) (i : Issue) :
    (s.commitIssue i w).2 = (commit root i.file (.ofIssue i) w').2 := by
  rw [Snapshot.commitIssue, run_bind, hroot]
  show ((Act.outcome (commit root i.file (.ofIssue i)) >>= _) w').2 = _
  rw [run_bind, Act.outcome]
  generalize commit root i.file (.ofIssue i) w' = run
  obtain ⟨result, w''⟩ := run
  rcases result with e | _ | _ <;> rfl

/-- To commit an issue, version control is asked for a checkout. If there is one, it is started to
stage and to commit what is left of the file below the root of the checkout. -/
theorem calls_commitIssue (s : Snapshot) (i : Issue) (w : World) :
    ∃ new, (s.commitIssue i w).2.calls = w.calls ++ new ∧ ∀ c ∈ new,
      c.arguments = askingArguments ∨
        ∃ root, (root? s.root w).1 = .ok (some root) ∧
          (c.arguments = addArguments (pathspec? root i.file) ∨
            c.arguments = commitArguments (pathspec? root i.file) (.ofIssue i)) := by
  obtain ⟨asked, hasked, hasking⟩ := (keeps_root? (W := World.record _ w) (p := True)
    (lets_record (P := fun c => c.arguments = askingArguments) fun _ => rfl) s.root).calls_eq
  cases hrun : root? s.root w with
  | mk result w' =>
    rw [hrun] at hasked
    by_cases hfound : ∃ root, result = .ok (some root)
    · obtain ⟨root, rfl⟩ := hfound
      obtain ⟨staged, hstaged, hstaging⟩ := calls_commit root i.file (.ofIssue i) w'
      refine ⟨asked ++ staged, ?_, ?_⟩
      · rw [commitIssue_world hrun, hstaged, hasked, List.append_assoc]
      · rw [List.forall_mem_append]
        exact ⟨fun c hc => .inl (hasking c hc), fun c hc => .inr ⟨root, rfl, hstaging c hc⟩⟩
    · refine ⟨asked, ?_, fun c hc => .inl (hasking c hc)⟩
      rw [Snapshot.commitIssue, run_bind, hrun, ← hasked]
      rcases result with e | _ | root
      · rfl
      · rfl
      · exact absurd ⟨root, rfl⟩ hfound

/-- In a checkout, what is started to stage is on record once the issue has been committed. -/
theorem calls_isPrefix_commitIssue {s : Snapshot} {i : Issue} {w : World} {c : Call}
    (hcheckout : w.files.isPresent w.here (mark s.root) = true)
    (hstart : (Act.start program (addArguments (pathspec? s.root i.file)) (some s.root) w).2.calls =
      w.calls ++ [c]) :
    w.calls ++ [c] <+: (s.commitIssue i w).2.calls := by
  have hisAt : isAt s.root w = (.ok true, w) := by
    rw [isAt, Act.isPresent, run_look, hcheckout]
  have hroot : root? s.root w = (.ok (some s.root), w) := by
    rw [root?, run_bind, hisAt]
    rfl
  have hrequire : require s.root w = (.ok (), w) := by
    rw [require, run_bind, hisAt]
    rfl
  rw [commitIssue_world hroot, commit, run_bind, hrequire]
  show _ <+: ((command .add (addArguments (pathspec? s.root i.file)) (some s.root) >>= _) w).2.calls
  rcases run_start program (addArguments (pathspec? s.root i.file)) (some s.root) w with
    ⟨result, hrun⟩ | ⟨reply, route, -, hrun⟩
  · -- Without a reply nothing would be on record.
    rw [hrun] at hstart
    simp at hstart
  · rw [← hstart, hrun, run_bind, command, run_bind, hrun]
    exact calls_isPrefix_of_keeps
      (keeps_commitStaged (lets_record fun _ => trivial) s.root (reply _))

/-- Every command that stages or commits for an issue with a file is limited to that file, exactly
if the file is not the checkout itself and its path can be read from there: it is absolute, or
written like the path of the checkout. -/
theorem isLimitedTo_commitIssue_iff {i : Issue} {file : Path} (hfile : i.file = some file)
    (s : Snapshot) (w : World) :
    ∃ new, (s.commitIssue i w).2.calls = w.calls ++ new ∧ ∀ c ∈ new, c.IsStaging →
      ∃ root, (root? s.root w).1 = .ok (some root) ∧
        (c.IsLimitedTo root file ↔ file.same root = false ∧
          (file.isAbsolute = true ∨ root.components <+: file.components)) := by
  obtain ⟨new, hnew, harguments⟩ := calls_commitIssue s i w
  refine ⟨new, hnew, fun c hc ⟨_, hstaging⟩ => ?_⟩
  rcases harguments c hc with hasking | ⟨root, hroot, hspec⟩
  · -- To ask for a checkout is neither to stage nor to commit.
    rw [hasking] at hstaging
    exact absurd hstaging (by decide)
  rw [hfile] at hspec
  refine ⟨root, hroot, ?_⟩
  have hsuffix : ∀ q : Path,
      ["--", q.text] <:+ c.arguments ↔ q = file.below root ∧ q.text ≠ "" := by
    intro q
    rw [← pathspec?_eq_some_iff]
    rcases hspec with h | h
    · rw [h, suffix_addArguments_iff]
    · rw [h, suffix_commitArguments_iff]
  rw [← Path.names_below_iff]
  constructor
  · rintro ⟨q, hempty, hq, hsame⟩
    obtain ⟨rfl, -⟩ := (hsuffix q).mp hq
    exact ⟨hempty, hsame⟩
  · rintro ⟨hempty, hsame⟩
    exact ⟨_, hempty, (hsuffix _).mpr ⟨rfl, hempty⟩, hsame⟩

/-! ## A reported checkout -/

open Store Session

/-- A repository under version control, and an analyzer that reports injected markup in a file. -/
def reportingWorld (file : String) : World where
  files := ⟨[(["r"], .directory), (["r", ".git"], .directory),
    (["r", "package.json"], .file "\x7b\x7d".toUTF8)]⟩
  here := []
  home := ⟨"/"⟩
  programs := fun name =>
    if name = Checkout.program then .present fun _ => ⟨.empty, .empty, 0, []⟩
    else if name = Tool.eslint.name then
      .present fun _ => ⟨("[\x7b\"filePath\":\"" ++ file ++
        "\",\"messages\":[\x7b\"message\":\"innerHTML\"\x7d]\x7d]").toUTF8, .empty, 1, []⟩
    else .missing
  calls := []
  clock := fun _ => ⟨2024, 1, 1, 0, 0, 0, 0⟩
  ticks := 0

/-- The world after a scan for injected markup. -/
def reportedWorld (file : String) : World :=
  (pinnedSession.perform (.scan "r" (some .markup)) (reportingWorld file)).2

theorem fileAt_reportingWorld (file repository : String) :
    (reportingWorld file).files.fileAt (snapshotRoute ["s"] repository) = none := by
  refine fileAt_snapshotRoute_eq_none (fun e he => ?_) _ _
  simp only [reportingWorld, List.mem_cons, List.not_mem_nil, or_false] at he
  rcases he with rfl | rfl | rfl <;> decide

theorem made_reportingWorld {file name : String} {reply : List String → Reply}
    (h : (reportingWorld file).programs name = .present reply) (arguments : List String) :
    (reply arguments).made = [] := by
  simp only [reportingWorld] at h
  split at h
  · cases h
    rfl
  · split at h
    · cases h
      rfl
    · cases h

theorem reachable_reportedWorld (file : String) : Reachable ["s"] (reportedWorld file) := by
  refine .command (.empty _ (fileAt_reportingWorld file)) pinnedSession _ rfl ⟨by decide, ?_⟩
  intro call _ reply hreply target _ route _ entry hentry
  rw [made_reportingWorld hreply] at hentry
  cases hentry

/-- What a scan of the reporting world finds is loaded back, if no issue tells its line. -/
theorem load_reportedWorld {file : String} {s : Snapshot} {report : ScanReport} {w : World}
    (hscan : pinnedSession.scan "r" (some .markup) (reportingWorld file) = (.ok (s, report), w))
    (hlines : s.issues.all (fun i => i.line.isNone) = true) :
    reportedWorld file = w ∧
      pinnedSession.loadSnapshot "r" (reportedWorld file) = (.ok s, reportedWorld file) := by
  have hworld : reportedWorld file = w := by
    show ((pinnedSession.scan "r" (some .markup) >>= _) (reportingWorld file)).2 = w
    rw [run_bind, hscan]
    rfl
  have hown : pinnedSession.store.CarriesOwnSlug (pinnedSession.resolve "r")
      (reportingWorld file) := by
    intro content text t hcontent
    have hbase : pinnedSession.store.routeIn [] = ["s"] := rfl
    rw [show (reportingWorld file).here = [] from rfl, hbase, fileAt_reportingWorld] at hcontent
    cases hcontent
  have hdays : (reportingWorld file).ShowsDays := by
    intro n
    show Instant.isValid ⟨2024, 1, 1, 0, 0, 0, 0⟩
    decide
  obtain ⟨-, hload⟩ := load_of_scan hscan hown hdays fun i hi n hn => by
    have hline := List.all_eq_true.mp hlines i hi
    rw [hn] at hline
    cases hline
  exact ⟨hworld, hworld ▸ hload⟩

/-- An issue in a file of the repository. -/
def namedIssue : Issue where
  id := "001"
  repository := "/r"
  description := ""
  file := some ⟨"/r/a.js"⟩
  line := none
  weakness := some .crossSiteScripting
  severity := .medium
  score := none
  stage := .planning
  domain := none
  ecosystems := none
  createdAt := ⟨2024, 1, 1, 0, 0, 0, 0⟩
  updatedAt := ⟨2024, 1, 1, 0, 0, 0, 0⟩
  plan := none
  artifact := none
  notes := none

theorem isLimitedTo_commitIssue_namedIssue :
    namedIssue.file = some ⟨"/r/a.js"⟩ ∧
      ∃ c ∈ ((Snapshot.new "/r").commitIssue namedIssue (reportingWorld "a.js")).2.calls,
        c.IsStaging ∧ c.IsLimitedTo ⟨"/r"⟩ ⟨"/r/a.js"⟩ := by
  have hfile : namedIssue.file = some ⟨"/r/a.js"⟩ := rfl
  obtain ⟨new, hnew, hlimited⟩ := isLimitedTo_commitIssue_iff hfile (.new "/r")
    (reportingWorld "a.js")
  have hadd := calls_isPrefix_commitIssue (s := .new "/r") (i := namedIssue)
    (w := reportingWorld "a.js") (c := ⟨program, ⟨"/r"⟩, ["add", "--", "a.js"]⟩)
    (by decide) (by decide)
  have hmem := hadd.subset List.mem_cons_self
  rw [hnew] at hmem
  obtain ⟨root, hroot, hiff⟩ := hlimited _ hmem ⟨rfl, .inl rfl⟩
  have hfound : (root? (Snapshot.new "/r").root (reportingWorld "a.js")).1 = .ok (some ⟨"/r"⟩) :=
    rfl
  obtain rfl : root = ⟨"/r"⟩ := by simpa [hfound] using hroot.symm
  rw [← hnew] at hmem
  exact ⟨rfl, _, hmem, ⟨rfl, .inl rfl⟩, hiff.mpr ⟨by decide, .inl (by decide)⟩⟩

/-- The scan of the reporting world, evaluated but for the snapshot that it stores. -/
theorem scan_reportingWorld : comesTo (pinnedSession.scan "r" (some .markup)) (reportingWorld "")
    (fun r w => decide (r.1.issues.map Issue.file = [some ⟨"/r/"⟩]) &&
      (r.1.issues.all (fun i => i.line.isNone) && (decide (r.1.root = ⟨"/r"⟩) &&
      (w.files.isPresent w.here (mark ⟨"/r"⟩) &&
      decide ((Act.start program ["add", "-A"] (some ⟨"/r"⟩) w).2.calls =
        w.calls ++ [⟨program, ⟨"/r"⟩, ["add", "-A"]⟩]))))) = true := by
  decide +kernel

/-- An analyzer reports an empty path. The issue that it leads to is in the checkout itself, and
everything is staged for it. -/
theorem not_isLimitedTo_reportedWorld :
    Reachable ["s"] (reportedWorld "") ∧ ∃ (s : Snapshot) (i : Issue) (c : Call),
      pinnedSession.loadSnapshot "r" (reportedWorld "") = (.ok s, reportedWorld "") ∧
      i ∈ s.issues ∧ i.file = some ⟨"/r/"⟩ ∧
      (reportedWorld "").calls ++ [c] <+: (s.commitIssue i (reportedWorld "")).2.calls ∧
      c.IsStaging ∧ c.arguments = ["add", "-A"] ∧ ∀ file : Path, ¬c.IsLimitedTo ⟨"/r"⟩ file := by
  refine ⟨reachable_reportedWorld "", ?_⟩
  obtain ⟨⟨s, report⟩, w, hscan, hruns⟩ := exists_of_comesTo scan_reportingWorld
  obtain ⟨hfiles, hruns⟩ := Bool.and_eq_true_iff.mp hruns
  obtain ⟨hlines, hruns⟩ := Bool.and_eq_true_iff.mp hruns
  obtain ⟨hroot, hruns⟩ := Bool.and_eq_true_iff.mp hruns
  obtain ⟨hcheckout, hcalls⟩ := Bool.and_eq_true_iff.mp hruns
  replace hroot : s.root = ⟨"/r"⟩ := of_decide_eq_true hroot
  replace hcalls := of_decide_eq_true hcalls
  obtain ⟨hworld, hload⟩ := load_reportedWorld hscan hlines
  obtain ⟨i, hissues, hfile⟩ := List.map_eq_singleton_iff.mp (of_decide_eq_true hfiles)
  have hspec : addArguments (pathspec? s.root i.file) = ["add", "-A"] := by
    rw [hroot, hfile]
    decide
  rw [hworld] at hload ⊢
  refine ⟨s, i, ⟨program, ⟨"/r"⟩, ["add", "-A"]⟩, hload, hissues ▸ List.mem_cons_self, hfile,
    calls_isPrefix_commitIssue (hroot ▸ hcheckout) (by rw [hspec, hroot, hcalls]), ⟨rfl, .inl rfl⟩,
    rfl, ?_⟩
  rintro file ⟨spec, -, hsuffix, -⟩
  exact absurd ((pair_suffix_iff []).mp hsuffix).1 (by decide)

end RepoAudit
