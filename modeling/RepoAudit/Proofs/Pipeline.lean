import RepoAudit.Proofs.Session.Commands

/-!
# Every stored snapshot is sound

The commands work on one store in any order, over any repositories, with any settings, and may fail
at any point. Between commands everything may change but the snapshot files, which only saving
writes. Whatever happens, each snapshot file holds a sound snapshot.

## Main definitions

- `Session.LeavesSnapshots` — saving alone writes the snapshot files of a command
- `Store.Reachable` — the worlds that the commands reach from an empty store

## Main statements

- `Session.sound_perform` — a command keeps a store sound
- `Store.Reachable.snapshot_sound` — every snapshot in the store is sound
-/

namespace RepoAudit

open Act Snapshot

namespace Session

variable {session : Session} {start : World} {p : Prop}

/-- The watch over a sound store permits every command. -/
theorem permitsCommands_watch (hspares : session.settings.SparesSnapshots) :
    session.PermitsCommands (fun _ => True) (fun _ => True) (fun _ => True) (session.watch start) where
  toPermitsRepairs := permitsRepairs_guard hspares
  load := fun _ repository _ => (Store.sound_load repository).weaken id fun _ _ hs => ⟨trivial, hs⟩
  save := fun _ s hs => (Store.sound_save s).given fun h => (hs h).2

/-- A command keeps a store sound. -/
theorem sound_perform (hspares : session.settings.SparesSnapshots) (c : Command) :
    Keeps (session.watch start) True (session.perform c) fun _ => True :=
  keeps_perform (permitsCommands_watch hspares) fun _ _ => trivial

/-- A command writes the snapshot files by saving alone: no advisory lets a repair rewrite one, and
no program that it starts makes one. -/
structure LeavesSnapshots (session : Session) (c : Command) (w : World) : Prop where
  /-- No advisory concerns a file that has the name of a snapshot. -/
  settings : session.settings.SparesSnapshots
  /-- The programs that are started make no snapshot file. -/
  programs : ∀ call ∈ (session.perform c w).2.calls.drop w.calls.length,
    call.Spares (Store.IsSnapshotRoute (session.store.routeIn w.here)) w.programs

variable {c : Command} {w : World}

theorem LeavesSnapshots.of_isIdle (hspares : session.settings.SparesSnapshots) (h : w.IsIdle) :
    session.LeavesSnapshots c w :=
  ⟨hspares, fun call _ => h.spares _ call⟩

theorem LeavesSnapshots.not_breached (h : session.LeavesSnapshots c w) :
    ¬World.Breached (Store.IsSnapshotRoute (session.store.routeIn w.here)) w
      (session.perform c w).2.calls :=
  fun ⟨call, hcall, hspares⟩ => hspares (h.programs call hcall)

/-- The snapshot files stay good under such a command when its steps keep them good. -/
theorem LeavesSnapshots.guards {good : Route → Option ByteArray → Prop}
    (h : session.LeavesSnapshots c w)
    (hkeeps : Keeps (session.store.guard good w) True (session.perform c) fun _ => True)
    (hgood : ∀ repository, good (Store.snapshotRoute (session.store.routeIn w.here) repository)
      (w.files.fileAt (Store.snapshotRoute (session.store.routeIn w.here) repository))) :
    World.Guards (Store.IsSnapshotRoute (session.store.routeIn w.here)) good w
      (session.perform c w).2 :=
  hkeeps.kept Prod.mk.eta.symm trivial (Store.guard_holds hgood) h.not_breached

end Session

namespace Store

open Session

/-- The worlds that the commands on the store at a route reach from those in which it is empty.
Everything but the snapshot files may change between the commands. -/
inductive Reachable (base : Route) : World → Prop
  /-- The store is empty. -/
  | empty (w : World)
      (h : ∀ repository, w.files.fileAt (snapshotRoute base repository) = none) : Reachable base w
  /-- A command was carried out, with a failure or without. -/
  | command {w : World} (h : Reachable base w) (session : Session) (c : Command)
      (hbase : session.store.routeIn w.here = base) (halone : session.LeavesSnapshots c w) :
      Reachable base (session.perform c w).2
  /-- Everything but the snapshot files has changed, and some of those were removed. -/
  | change {w : World} (h : Reachable base w) (w' : World)
      (hfiles : ∀ repository content,
        w'.files.fileAt (snapshotRoute base repository) = some content →
          w.files.fileAt (snapshotRoute base repository) = some content) : Reachable base w'

/-- Every snapshot file in a reachable world holds the text of a sound snapshot. -/
theorem Reachable.holdsSound {base : Route} {w : World} (h : Reachable base w)
    (repository : String) : HoldsSound (w.files.fileAt (snapshotRoute base repository)) := by
  induction h generalizing repository with
  | empty w hempty =>
    intro content hcontent
    rw [hempty repository] at hcontent
    cases hcontent
  | @command w _ session c hbase halone ih =>
    subst hbase
    exact (halone.guards (sound_perform halone.settings c) ih).good _ ⟨repository, rfl⟩
  | @change w _ w' hfiles ih =>
    intro content hcontent
    exact ih repository content (hfiles repository content hcontent)

/-- Every snapshot in a reachable store is sound, as it was saved and as it is read. -/
theorem Reachable.snapshot_sound {base : Route} {w : World} (h : Reachable base w)
    {repository : String} {content : ByteArray}
    (hcontent : w.files.fileAt (snapshotRoute base repository) = some content) :
    ∃ s : Snapshot, s.Sound ∧ content = s.write.toUTF8 ∧
      ∀ t, Snapshot.read? s.write = some t → t.Sound := by
  obtain ⟨s, hs, hwrite⟩ := h.holdsSound repository content hcontent
  exact ⟨s, hs, hwrite, fun t ht => hs.of_read? ht⟩

/-- A world without a store, in which one repository has a vulnerable pin. -/
def pinnedWorld : World where
  files := ⟨[(["r"], .directory), (["r", "requirements.txt"], .file "shopify-sdk==1.2.3".toUTF8)]⟩
  here := []
  home := ⟨"/"⟩
  programs := fun _ => .missing
  calls := []
  clock := fun _ => ⟨2024, 1, 1, 0, 0, 0, 0⟩
  ticks := 0

/-- A session with a store in the pinned world. -/
def pinnedSession : Session := ⟨⟨"/"⟩, .default, ⟨⟨"/s"⟩⟩⟩

/-- The pinned world after a scan of its repository. -/
def scannedWorld : World :=
  (pinnedSession.perform (.scan "r" (some .dependency)) pinnedWorld).2

/-- Where no entry is named like a snapshot, a store is empty. -/
theorem fileAt_snapshotRoute_eq_none {files : FileTree}
    (h : ∀ e ∈ files.entries, e.1.getLast? ≠ some snapshotName) (base : Route)
    (repository : String) : files.fileAt (snapshotRoute base repository) = none := by
  have hlast : (snapshotRoute base repository).getLast? = some snapshotName :=
    List.getLast?_concat
  generalize snapshotRoute base repository = r at hlast
  cases r with
  | nil => cases hlast
  | cons name rest =>
    have hnode : files.node? (name :: rest) = none := by
      rw [FileTree.node?_cons, Option.map_eq_none_iff, List.find?_eq_none]
      intro e he heq
      rw [← beq_iff_eq.mp heq] at hlast
      exact h e he hlast
    rw [FileTree.fileAt, hnode]

theorem fileAt_pinnedWorld (repository : String) :
    pinnedWorld.files.fileAt (snapshotRoute ["s"] repository) = none := by
  refine fileAt_snapshotRoute_eq_none (fun e he => ?_) _ _
  simp only [pinnedWorld, List.mem_cons, List.not_mem_nil, or_false] at he
  rcases he with rfl | rfl <;> decide

theorem isIdle_pinnedWorld : pinnedWorld.IsIdle :=
  fun _ _ => nofun

theorem leavesSnapshots_pinnedWorld (c : Command) : pinnedSession.LeavesSnapshots c pinnedWorld :=
  .of_isIdle (by decide) isIdle_pinnedWorld

theorem guards_pinnedWorld (c : Command) :
    World.Guards (IsSnapshotRoute ["s"]) (fun _ => HoldsSound) pinnedWorld
      (pinnedSession.perform c pinnedWorld).2 := by
  have halone := leavesSnapshots_pinnedWorld c
  refine halone.guards (sound_perform halone.settings c) fun repository content hcontent => ?_
  cases (fileAt_pinnedWorld repository).symm.trans hcontent

theorem reachable_scannedWorld : Reachable ["s"] scannedWorld := by
  rw [scannedWorld]
  exact .command (.empty pinnedWorld fileAt_pinnedWorld) _ _ rfl (leavesSnapshots_pinnedWorld _)

theorem guards_scannedWorld :
    World.Guards (IsSnapshotRoute ["s"]) (fun _ => HoldsSound) pinnedWorld scannedWorld := by
  rw [scannedWorld]
  exact guards_pinnedWorld _

theorem isSome_scannedWorld :
    (scannedWorld.files.fileAt (snapshotRoute ["s"] "/r")).isSome = true := by
  decide +kernel

/-- A scan of the pinned world stores a sound snapshot. -/
theorem snapshot_sound_scannedWorld :
    ∃ content, scannedWorld.files.fileAt (snapshotRoute ["s"] "/r") = some content ∧
      ∃ s : Snapshot, s.Sound ∧ content = s.write.toUTF8 ∧
        ∀ t, Snapshot.read? s.write = some t → t.Sound := by
  obtain ⟨content, hcontent⟩ := Option.isSome_iff_exists.mp isSome_scannedWorld
  exact ⟨content, hcontent, Reachable.snapshot_sound reachable_scannedWorld hcontent⟩

end Store

end RepoAudit
