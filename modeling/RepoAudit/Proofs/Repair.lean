import RepoAudit.Proofs.Abandonment
import RepoAudit.Proofs.Remedy.Markup
import RepoAudit.Proofs.Remedy.Prompt

/-!
# Repairs that fail

A repair writes the changed file first and its diff afterwards, so a diff that cannot be stored
leaves the file changed. The only other failure is a change that would have cut inside a character,
and that one leaves everything as it was.

## Main definitions

- `Issue.Rewritten` — the file of an issue was rewritten, and nothing else
- `Session.prepare` — what fixing an issue does before the repair

## Main statements

- `Remedy.ne_of_transform` — a remedy that gives a text has changed it
- `Session.besides_prepare` — up to the repair, a command writes its log file alone
- `Session.rewritten_of_error` — repairs that fail, and the commands that fail with them
- `Session.spent_blockedWorld` — a repair that fails and cannot be tried again
-/

namespace RepoAudit

open Act FileTree Text Store

/-- A changed prompt text differs: none of its lines is a raw prompt, and one of the lines before
was. -/
theorem Remedy.Prompt.ne_of_transform {content text : List Char}
    (h : transform content = some text) : text ≠ content := by
  rintro rfl
  obtain ⟨⟨index, hindex⟩, -⟩ := transform_eq_some h
  rw [Python.promptLines, List.mem_filter, List.mem_range] at hindex
  obtain ⟨hlt, hraw⟩ := hindex
  rw [List.getD_eq_getElem _ _ hlt] at hraw
  have hmem := List.getElem_mem hlt
  have hlines := congrArg Prod.fst (splitLines_transform h)
  generalize (splitLines text).1[index] = line at hraw hmem
  rw [hlines] at hmem
  rw [isRawPrompt_of_mem_insertPreambles (fun _ _ => isBlank_of_indentationAt?) hmem] at hraw
  cases hraw

theorem Remedy.ne_of_transform {advisories : List Advisory} {file : Path} {content text : List Char}
    {r : Remedy} (h : r.transform advisories file content = .ok (some text)) : text ≠ content := by
  cases r with
  | prompt => exact Prompt.ne_of_transform (Except.ok.inj h)
  | markup => exact (Markup.transform_eq_some_iff.mp h).2.1
  | pin =>
    have hpin := Except.ok.inj h
    rw [Pin.transform] at hpin
    split at hpin
    · cases hpin
    · next hne =>
      cases hpin
      exact hne
  | command =>
    have hcommand := Except.ok.inj h
    rw [Command.transform] at hcommand
    split at hcommand
    · cases hcommand
    · next site _ =>
      generalize (if contains content Ruby.allowList then some content
        else Command.insertGuard? content site) = guarded? at hcommand
      cases guarded? with
      | none => cases hcommand
      | some guarded =>
        dsimp only at hcommand
        split at hcommand
        · cases hcommand
        · next hne =>
          cases hcommand
          exact hne

namespace Issue

/-- The file of an issue was rewritten with what its remedy made of it, and no other file was
touched. -/
structure Rewritten (advisories : List Advisory) (i : Issue) (remedy : Remedy) (file : Path)
    (text changed : List Char) (w w' : World) : Prop where
  /-- The remedy and the file of the issue. -/
  target : i.remedyAndFile = .ok (remedy, file)
  /-- The remedy applies to the file. -/
  applies : remedy.appliesTo advisories file = true
  /-- The working directory is the same. -/
  here : w'.here = w.here
  /-- No program was started. -/
  calls : w'.calls = w.calls
  /-- What was read. -/
  read : w.files.readText w.here file = .ok (String.ofList text)
  /-- What the remedy made of it. -/
  transform : remedy.transform advisories file text = .ok (some changed)
  /-- It is another text. -/
  differs : changed ≠ text
  /-- It is what can be read now. -/
  reread : w'.files.readText w'.here file = .ok (String.ofList changed)
  /-- The other files are as they were. -/
  others : ∀ r, r ≠ file.routeFrom w.here → w'.files.fileAt r = w.files.fileAt r

/-- A repair that fails has left everything as it was, or has rewritten the file of its issue: the
text was written, and the diff could not be stored. -/
theorem rewritten_or_unchanged_of_error {st : Store} {advisories : List Advisory}
    {s : Snapshot} {i : Issue} {w w' : World} {e : Failure}
    (h : i.repair st advisories s w = (.error e, w')) :
    (e = .misplacedCut ∧ w' = w) ∨
      ∃ remedy file text changed task path cause,
        i.Rewritten advisories remedy file text changed w w' ∧
        e = .refused task path cause ∧ (task = .makeStateDirectory ∨ task = .writeArtifact) := by
  rcases Session.repair_cases h with ⟨⟨_, hresult⟩ | hresult, hsame⟩ | ⟨remedy, file, text, changed,
    files, diff, htarget, happlies, htext, htransform, hwrite, hstored⟩
  · cases hresult
  · exact .inl ⟨Except.error.inj hresult, hsame⟩
  obtain ⟨task, path, cause, htask, rfl, rfl⟩ := writeArtifact_of_error (error_of_answer hstored)
  -- Making the directory of the store is all that came after the write.
  have hmade : ∀ r, (files.makeDirectories w.here (st.directory s.slug)).1.fileAt r =
      files.fileAt r := fun r => fileAt_makeDirectories _ _ _ _
  refine .inr ⟨remedy, file, text.toList, changed, task, path, cause, ?_, rfl, htask⟩
  refine ⟨htarget, happlies, rfl, rfl, ?_, htransform, Remedy.ne_of_transform htransform, ?_,
    fun r hr => ?_⟩
  · rw [String.ofList_toList]
    exact htext
  · refine ((Grows.of_change hwrite).trans (.of_makeDirectories _ _ _)).readText_eq_ok htext ?_
    exact (hmade _).trans (fileAt_change hwrite)
  · exact (hmade r).trans (fileAt_change_of_ne hwrite hr)

/-- A repair of a file that its remedy does not change any more says so. -/
theorem repair_of_nothingToChange {st : Store} {advisories : List Advisory} {s : Snapshot}
    {i : Issue} {remedy : Remedy} {file : Path} {text : List Char} {w : World}
    (htarget : i.remedyAndFile = .ok (remedy, file))
    (happlies : remedy.appliesTo advisories file = true)
    (hread : w.files.readText w.here file = .ok (String.ofList text))
    (hnone : remedy.transform advisories file text = .ok none) :
    i.repair st advisories s w = (.ok (.notApplicable nothingToChange), w) := by
  rw [repair, htarget]
  dsimp only
  rw [happlies, if_neg (by decide), run_bind, Act.readText, run_look, hread]
  dsimp only
  rw [String.toList_ofList, hnone]
  rfl

/-- The file that was rewritten holds other bytes. -/
theorem Rewritten.fileAt_ne {advisories : List Advisory} {i : Issue} {remedy : Remedy}
    {file : Path} {text changed : List Char} {w w' : World}
    (h : i.Rewritten advisories remedy file text changed w w') :
    w'.files.fileAt (file.routeFrom w.here) ≠ w.files.fileAt (file.routeFrom w.here) := by
  obtain ⟨before, hbefore, htext⟩ := readText_eq_ok h.read
  obtain ⟨after, hafter, hchanged⟩ := readText_eq_ok h.reread
  rw [h.here] at hafter
  rw [hbefore, hafter]
  intro heq
  rw [Option.some.inj heq, htext] at hchanged
  exact h.differs (String.ofList_injective (Option.some.inj hchanged)).symm

end Issue

/-! ## Commands that repair -/

/-- The watch over all files but one. -/
def World.besides (exempt : Route) (start : World) : Act.Watch where
  holds := fun w => w.here = start.here ∧ w.calls = start.calls ∧
    ∀ r, r ≠ exempt → w.files.fileAt r = start.files.fileAt r
  excuses := fun _ => False
  excuses_append := fun _ _ h => h

namespace Session

variable {session : Session} {start : World} {p : Prop}

theorem besides_now {exempt : Route} :
    Keeps (World.besides exempt start) p Act.now fun _ => True :=
  fun _ => ⟨id, fun _ hw => .inr ⟨hw, fun _ _ => trivial⟩⟩

theorem besides_makeDirectories {exempt : Route} (path : Path) :
    Keeps (World.besides exempt start) p (Act.makeDirectories path) fun _ => True := by
  intro w
  have hmade : (Act.makeDirectories path w).2 =
      { w with files := (w.files.makeDirectories w.here path).1 } := rfl
  refine ⟨id, fun _ hw => .inr ⟨?_, fun _ _ => trivial⟩⟩
  rw [hmade]
  exact ⟨hw.1, hw.2.1, fun r hr => (fileAt_makeDirectories _ _ _ _).trans (hw.2.2 r hr)⟩

/-- Logging touches the log file alone. -/
theorem besides_log {slug : String} (message : String) {s : Snapshot} (hslug : p → s.slug = slug) :
    Keeps (World.besides (((session.store.directory slug).entry logName).routeFrom start.here) start)
      p (session.store.log message s) fun t => t.slug = s.slug := by
  refine besides_now.bind fun now => ?_
  refine Keeps.bind (Q := fun _ => True) ?_ fun _ => Keeps.pure fun _ => rfl
  refine (besides_makeDirectories _).bind fun made => ?_
  cases made with
  | error cause => exact Keeps.pure fun _ => trivial
  | ok _ =>
    refine Keeps.bind (Q := fun _ => True) (Keeps.change fun hp w files hw hfiles => ?_)
      fun _ => Keeps.pure fun _ => trivial
    refine ⟨hw.1, hw.2.1, fun r hr => (fileAt_change_of_ne hfiles ?_).trans (hw.2.2 r hr)⟩
    rw [hslug hp.1.1, hw.1]
    exact hr

theorem besides_advance {slug : String} (index : Nat) (next : Stage) {s : Snapshot}
    (hslug : p → s.slug = slug) :
    Keeps (World.besides (((session.store.directory slug).entry logName).routeFrom start.here) start)
      p (session.advance index next s) fun t => t.slug = s.slug := by
  rw [advance]
  cases s.issues[index]? with
  | none => exact Keeps.pure fun _ => rfl
  | some i =>
    dsimp only
    split
    · exact besides_now.bind fun now => besides_log _ fun hp => hslug hp.1
    · exact Keeps.fail _

/-- The snapshot with the issue at a place planned, unless it was. -/
def planUnlessPlanned (session : Session) (index : Nat) (i : Issue) (s : Snapshot) : Act Snapshot :=
  if i.stage.rank < Stage.planning.rank then session.planAt index s else pure s

/-- What fixing one issue does before its repair: the issue is planned if it was not, and is put at
the stage of repairs. -/
def prepare (session : Session) (name : String) (s : Snapshot) : Act (Nat × Snapshot) := do
  let index ← place name s
  match s.issues[index]? with
  | none => pure (index, s)
  | some i =>
    if i.stage.isFinal || Stage.verifying.rank ≤ i.stage.rank then
      Act.fail (.cannotMove name i.stage .fixing)
    else
      let s ← session.planUnlessPlanned index i s
      pure (index, ← session.advanceUnlessAt index .fixing s)

/-- Preparing a repair touches the log file alone. -/
theorem besides_prepare (name : String) (s : Snapshot) :
    Keeps (World.besides (((session.store.directory s.slug).entry logName).routeFrom start.here)
      start) p (session.prepare name s) fun _ => True := by
  refine Keeps.bind (Q := fun _ => True) ?_ fun index => ?_
  · rw [place]
    split
    · exact Keeps.pure fun _ => trivial
    · exact Keeps.fail _
  cases s.issues[index]? with
  | none => exact Keeps.pure fun _ => trivial
  | some i =>
    dsimp only
    split
    · exact Keeps.fail _
    refine Keeps.bind (Q := fun t : Snapshot => t.slug = s.slug) ?_ fun t => ?_
    · rw [planUnlessPlanned]
      split
      · exact besides_advance index .planning fun _ => rfl
      · exact Keeps.pure fun _ => rfl
    · refine Keeps.bind (Q := fun _ => True) ?_ fun _ => Keeps.pure fun _ => trivial
      rw [advanceUnlessAt]
      cases t.issues[index]? with
      | none => exact Keeps.pure fun _ => trivial
      | some j =>
        dsimp only
        split
        · exact Keeps.pure fun _ => trivial
        · exact (besides_advance index .fixing fun hp => hp.2).weaken id fun _ _ _ => trivial

theorem fixAt_of_repair {s₀ s : Snapshot} {index : Nat} {i : Issue} {w₀ w w' : World} {e : Failure}
    (hadvance : session.advanceUnlessAt index .fixing s₀ w₀ = (.ok s, w))
    (hi : s.issues[index]? = some i)
    (h : i.repair session.store session.settings.advisories s w = (.error e, w')) :
    session.fixAt index s₀ w₀ = (.error e, w') := by
  rw [fixAt, run_bind, hadvance]
  dsimp only
  rw [hi]
  dsimp only
  rw [run_bind, h]

/-- Fixing an issue fails when the repair that it comes to fails. -/
theorem fixIssue_of_prepare {name : String} {s₀ s : Snapshot} {index : Nat} {i : Issue}
    {w₀ w w' : World} {e : Failure} (hprepare : session.prepare name s₀ w₀ = (.ok (index, s), w))
    (hi : s.issues[index]? = some i)
    (h : i.repair session.store session.settings.advisories s w = (.error e, w')) :
    session.fixIssue name s₀ w₀ = (.error e, w') := by
  obtain ⟨place, w₁, hplace, hprepare⟩ := run_bind_eq_ok.mp hprepare
  rw [fixIssue, run_bind, hplace]
  dsimp only
  cases hissue : s₀.issues[place]? with
  | none =>
    rw [hissue] at hprepare
    cases hprepare
    rw [hissue] at hi
    cases hi
  | some j =>
    rw [hissue] at hprepare
    dsimp only at hprepare ⊢
    split at hprepare
    · cases hprepare
    · next hstage =>
      rw [if_neg hstage]
      obtain ⟨t, w₂, hplan, hprepare⟩ := run_bind_eq_ok.mp hprepare
      obtain ⟨s', w₃, hadvance, hprepare⟩ := run_bind_eq_ok.mp hprepare
      cases hprepare
      rw [planUnlessPlanned] at hplan
      split at hplan
      · next hrank =>
        rw [if_pos hrank, run_bind, hplan]
        exact fixAt_of_repair hadvance hi h
      · next hrank =>
        rw [if_neg hrank]
        cases hplan
        exact fixAt_of_repair hadvance hi h

theorem perform_fix_of_error {repository name : String} {s : Snapshot} {w w' : World} {e : Failure}
    (hload : session.store.load (session.resolve repository) w = (.ok s, w))
    (hfix : session.fixIssue name s w = (.error e, w')) :
    session.perform (.fix repository name) w = (.error e, w') := by
  rw [perform, run_bind, fix, run_bind, onSnapshot, run_bind, loadSnapshot, hload]
  dsimp only
  rw [run_bind, hfix]

/-- A repair that would have cut inside a character leaves the world as it was. -/
theorem world_of_misplacedCut {s : Snapshot} {i : Issue} {w w' : World}
    (h : i.repair session.store session.settings.advisories s w = (.error .misplacedCut, w')) :
    w' = w := by
  obtain ⟨-, hsame⟩ | ⟨_, _, _, _, _, _, _, -, he, -⟩ := Issue.rewritten_or_unchanged_of_error h
  · exact hsame
  · cases he

/-- The command that comes to a repair which fails fails with it. It touches no snapshot, and up to
the repair it writes to the log alone. -/
theorem perform_fix_of_prepare {repository name : String} {s₀ s : Snapshot} {index : Nat}
    {i : Issue} {w₀ w w' : World} {e : Failure}
    (hload : (session.store.load (session.resolve repository) w₀).1 = .ok s₀)
    (hprepare : session.prepare name s₀ w₀ = (.ok (index, s), w)) (hi : s.issues[index]? = some i)
    (h : i.repair session.store session.settings.advisories s w = (.error e, w'))
    (houtside : s₀.TracksOutside (session.store.routeIn w₀.here) w₀.here) :
    session.perform (.fix repository name) w₀ = (.error e, w') ∧
      (∀ q, session.store.Untouched q w₀ w') ∧
      ∀ r, r ≠ ((session.store.directory s₀.slug).entry logName).routeFrom w₀.here →
        w.files.fileAt r = w₀.files.fileAt r := by
  have hperform : session.perform (.fix repository name) w₀ = (.error e, w') := by
    refine perform_fix_of_error ?_ (fixIssue_of_prepare hprepare hi h)
    rw [run_eq_of_fst hload, session.store.load_world]
  obtain ⟨hhere, hcalls, hfiles⟩ := (besides_prepare (p := True) name s₀).kept hprepare trivial
    ⟨rfl, rfl, fun _ _ => rfl⟩ id
  refine ⟨hperform, fun q => untouched_of_passWatch (passWatch_perform_of_error ?_ ?_ ?_ hperform)
    q, hfiles⟩
  · intro repositories profile? hrun
    cases hrun
  · intro s₁ hs₁
    obtain rfl := Except.ok.inj (hload.symm.trans hs₁)
    exact houtside
  · -- No program is started on the way.
    have hsame : w'.calls = w₀.calls := by
      obtain ⟨-, rfl⟩ | ⟨_, _, _, _, _, _, _, hrewritten, -, -⟩ :=
        Issue.rewritten_or_unchanged_of_error h
      · exact hcalls
      · exact hrewritten.calls.trans hcalls
    intro call hcall
    rw [hsame, List.drop_length] at hcall
    cases hcall

/-- A repair whose diff cannot be stored leaves the file rewritten; only one that would have cut
inside a character leaves everything as it was. The command that comes to the repair fails with it
and touches no snapshot, but the file stays rewritten, and another attempt finds nothing to do when
the remedy has nothing more to change. -/
theorem rewritten_of_error {s : Snapshot} {i : Issue} {w w' : World} {e : Failure}
    (h : i.repair session.store session.settings.advisories s w = (.error e, w')) :
    ((∀ r, w'.files.fileAt r = w.files.fileAt r) ↔ e = .misplacedCut) ∧
    (e = .misplacedCut → w' = w) ∧
    (e ≠ .misplacedCut → ∃ remedy file text changed,
      i.Rewritten session.settings.advisories remedy file text changed w w' ∧
      (remedy.transform session.settings.advisories file changed = .ok none →
        i.repair session.store session.settings.advisories s w' =
          (.ok (.notApplicable Issue.nothingToChange), w'))) ∧
    ∀ repository name s₀ index w₀,
      (session.store.load (session.resolve repository) w₀).1 = .ok s₀ →
      session.prepare name s₀ w₀ = (.ok (index, s), w) → s.issues[index]? = some i →
      s₀.TracksOutside (session.store.routeIn w₀.here) w₀.here →
      session.perform (.fix repository name) w₀ = (.error e, w') ∧
      (∀ q, session.store.Untouched q w₀ w') ∧
      ∀ r, r ≠ ((session.store.directory s₀.slug).entry logName).routeFrom w₀.here →
        w.files.fileAt r = w₀.files.fileAt r := by
  have hends := Issue.rewritten_or_unchanged_of_error h
  refine ⟨⟨fun hsame => ?_, ?_⟩, ?_, fun he => ?_, fun repository name s₀ index w₀ hload hprepare
    hi houtside => perform_fix_of_prepare hload hprepare hi h houtside⟩
  · obtain ⟨he, -⟩ | ⟨remedy, file, text, changed, task, path, cause, hrewritten, -, -⟩ := hends
    · exact he
    · exact absurd (hsame _) hrewritten.fileAt_ne
  · rintro rfl r
    rw [world_of_misplacedCut h]
  · rintro rfl
    exact world_of_misplacedCut h
  · obtain ⟨he', -⟩ | ⟨remedy, file, text, changed, _, _, _, hrewritten, -, -⟩ := hends
    · exact absurd he' he
    · exact ⟨remedy, file, text, changed, hrewritten, Issue.repair_of_nothingToChange
        hrewritten.target hrewritten.applies hrewritten.reread⟩

/-- A snapshot of the pinned repository whose only issue waits for its repair. -/
def plannedSnapshot : Snapshot :=
  { Snapshot.new "/r" with
    issues := [{ Issue.ofFinding (.new "/r") 1 ⟨2024, 1, 1, 0, 0, 0, 0⟩
      ⟨"pinned", ⟨"/r/requirements.txt"⟩, none, some .missingAuthorization, .high, none, "pins"⟩ with
      stage := .planning }] }

/-- The pinned world with that snapshot in its store, and a directory where the diff would be. -/
def blockedWorld : World :=
  { pinnedWorld with
    files := ⟨pinnedWorld.files.entries ++ [(["s"], .directory), (["s", "r"], .directory),
      (["s", "r", "issues.json"], .file plannedSnapshot.write.toUTF8),
      (["s", "r", "fix-001.diff"], .directory)]⟩ }

theorem load_blockedWorld : pinnedSession.store.load (pinnedSession.resolve "r") blockedWorld =
    (.ok plannedSnapshot, blockedWorld) :=
  load_of_lookup (r := ["s", "r", "issues.json"]) (by decide) rfl

/-- Where the diff of a repair cannot be stored, the pin has changed and the snapshot has not. -/
theorem rewritten_blockedWorld :
    ∃ index s i w e w',
      pinnedSession.prepare "001" plannedSnapshot blockedWorld = (.ok (index, s), w) ∧
      s.issues[index]? = some i ∧
      i.repair pinnedSession.store pinnedSession.settings.advisories s w = (.error e, w') ∧
      (∃ remedy file text changed,
        i.Rewritten pinnedSession.settings.advisories remedy file text changed w w') ∧
      pinnedSession.perform (.fix "r" "001") blockedWorld = (.error e, w') ∧
      ∀ q, pinnedSession.store.Untouched q blockedWorld w' := by
  have hcomes : comesTo (pinnedSession.prepare "001" plannedSnapshot) blockedWorld (fun r w =>
      r.2.issues[r.1]?.any fun i =>
        failsWith (i.repair pinnedSession.store pinnedSession.settings.advisories r.2) w fun w' =>
          w'.files.fileAt ["r", "requirements.txt"] ≠
            w.files.fileAt ["r", "requirements.txt"]) = true := by
    decide +kernel
  obtain ⟨⟨index, s⟩, w, hprepare, hs⟩ := exists_of_comesTo hcomes
  obtain ⟨i, hi, hfails⟩ := (Option.any_eq_true _ _).mp hs
  obtain ⟨e, w', h, hends⟩ := exists_of_failsWith hfails
  obtain ⟨hiff, -, hrewritten, hcommand⟩ := rewritten_of_error h
  have houtside : plannedSnapshot.TracksOutside ["s"] [] := by
    intro j hj file hfile
    obtain rfl := List.mem_singleton.mp hj
    obtain rfl := Option.some.inj hfile
    rintro ⟨q, hq⟩
    -- The pin is in a file with another name.
    have hlast := congrArg List.getLast? hq
    rw [snapshotRoute, List.getLast?_concat] at hlast
    exact absurd hlast (by decide)
  obtain ⟨hperform, huntouched, -⟩ := hcommand "r" "001" plannedSnapshot index blockedWorld
    (congrArg Prod.fst load_blockedWorld) hprepare hi houtside
  have hne : e ≠ .misplacedCut := fun he => of_decide_eq_true hends (hiff.mpr he _)
  obtain ⟨remedy, file, text, changed, hfile, -⟩ := hrewritten hne
  exact ⟨index, s, i, w, e, w', hprepare, hi, h, ⟨remedy, file, text, changed, hfile⟩, hperform,
    huntouched⟩

/-- A fix command that fails has changed the file of the issue. When the diff can be stored and the
issue is fixed again from the snapshot as it is stored, there is nothing left to change. -/
theorem spent_blockedWorld :
    ∃ e w', pinnedSession.perform (.fix "r" "001") blockedWorld = (.error e, w') ∧
      w'.files.fileAt ["r", "requirements.txt"] ≠
        blockedWorld.files.fileAt ["r", "requirements.txt"] ∧
      ∃ t w'', pinnedSession.fixIssue "001" plannedSnapshot
          { w' with files := w'.files.unset ["s", "r", "fix-001.diff"] } =
        (.ok (t, .notApplicable Issue.nothingToChange), w'') := by
  have hfails : failsWith (pinnedSession.fixIssue "001" plannedSnapshot) blockedWorld (fun w' =>
      w'.files.fileAt ["r", "requirements.txt"] ≠
          blockedWorld.files.fileAt ["r", "requirements.txt"] &&
        comesTo (pinnedSession.fixIssue "001" plannedSnapshot)
          { w' with files := w'.files.unset ["s", "r", "fix-001.diff"] }
          fun r _ => r.2 = .notApplicable Issue.nothingToChange) = true := by
    decide +kernel
  obtain ⟨e, w', h, hends⟩ := exists_of_failsWith hfails
  rw [Bool.and_eq_true] at hends
  obtain ⟨⟨t, outcome⟩, w'', hretry, hspent⟩ := exists_of_comesTo hends.2
  obtain rfl : outcome = _ := of_decide_eq_true hspent
  exact ⟨e, w', perform_fix_of_error load_blockedWorld h, of_decide_eq_true hends.1, t, w'', hretry⟩

end Session

end RepoAudit
