import RepoAudit.Proofs.Succession

/-!
# Passes that keep to their snapshot

Whatever is stored, sound or not, a pass works on the snapshot that it was given: its repository and
its directory stay the same. The snapshot files of the store stay the same, too, as long as the files
that repairs change lie outside it.

## Main definitions

- `Snapshot.TracksOutside` — no issue is about a snapshot file

## Main statements

- `Session.outside_fixAll`, `Session.outside_fixIssue` — repairs
-/

namespace RepoAudit

open Act Snapshot FileTree Store

/-- No issue of a snapshot is about a snapshot file of the store at a route. -/
def Snapshot.TracksOutside (base here : Route) (s : Snapshot) : Prop :=
  ∀ i ∈ s.issues, ∀ file, i.file = some file → ¬IsSnapshotRoute base (file.routeFrom here)

/-- What the issues of a snapshot are about is told by their cores. -/
theorem Snapshot.TracksOutside.of_sameCores {base here : Route} {s t : Snapshot}
    (hs : s.TracksOutside base here) (h : SameCores s t) : t.TracksOutside base here := by
  intro j hj file hfile
  have hcore : j.core ∈ s.issues.map Issue.core := by
    rw [← h.cores]
    exact List.mem_map_of_mem hj
  obtain ⟨i, hi, heq⟩ := List.mem_map.mp hcore
  exact hs i hi file ((congrArg Issue.Core.file heq).trans hfile)

namespace Session

variable {session : Session} {start : World} {W : Watch} {p : Prop}

/-! ## Repairs outside the store -/

theorem permits_passWatch : session.Permits (fun _ => True) (session.passWatch start) :=
  permits_guard.inter permitsRepairs_course.toPermits

theorem writeText_passWatch {path : Path} (text : String)
    (hpath : p → IsUnguarded (IsSnapshotRoute (session.store.routeIn start.here)) start.here path) :
    Keeps (session.passWatch start) p (Act.writeText path text) fun _ => True :=
  ((keeps_writeText hpath text).inter (course_change fun _ _ _ => Grows.of_change)).weaken id
    fun _ _ _ => trivial

/-- A repair leaves the snapshot files alone when its issue is about no such file. -/
theorem outside_repair {i : Issue} {s : Snapshot}
    (hi : p → ∀ file, i.file = some file →
      ¬IsSnapshotRoute (session.store.routeIn start.here) (file.routeFrom start.here)) :
    Keeps (session.passWatch start) p (i.repair session.store session.settings.advisories s)
      fun _ => True := by
  refine keeps_repair_of (fun remedy file text htarget _ => writeText_passWatch text ?_) fun diff => ?_
  · rintro hp parent name hroute - hsnapshot
    exact hi hp file (Issue.file_eq_of_remedyAndFile htarget) (hroute ▸ hsnapshot)
  -- The diff is written beside the snapshot, under another name.
  · refine (Keeps.orRefused _ _ (permits_passWatch.makeDirectory _ s.identity
      fun _ => trivial)).bind fun _ => ?_
    exact (Keeps.orRefused _ _ (writeText_passWatch _ fun _ =>
      isUnguarded_artifactPath _ _ _)).bind fun _ => Keeps.pure fun _ => trivial

theorem outside_fixAt (index : Nat) {s : Snapshot}
    (hs : p → s.TracksOutside (session.store.routeIn start.here) start.here) :
    Keeps (session.passWatch start) p (session.fixAt index s)
      fun r => s.ChangedAt index Issue.FixTried r.1 := by
  refine (fixedAt_fixAt_of permits_passWatch index (fun _ => trivial) fun t j => ?_).weaken id
    fun _ _ h => h.mono fun _ _ => Issue.Fixed.fixTried
  refine outside_repair ?_
  rintro ⟨hp, -, i, hi, hcore⟩ file hfile
  have hsame : j.file = i.file := congrArg Issue.Core.file hcore
  exact hs hp i (List.mem_of_getElem? hi) file (hsame.symm.trans hfile)

/-- Repairing every planned issue leaves the snapshot files alone. -/
theorem outside_fixAll {s : Snapshot}
    (hs : p → s.TracksOutside (session.store.routeIn start.here) start.here) :
    Keeps (session.passWatch start) p (session.fixAll s) fun r => r.1.identity = s.identity := by
  refine (keeps_countSteps (P := fun _ t => t.identity = s.identity ∧
    t.TracksOutside (session.store.routeIn start.here) start.here) (fun index _ t => ?_) _ s).weaken
      (fun hp => ⟨rfl, hs hp⟩) fun _ _ h => h.1
  refine (outside_fixAt index And.right).bind fun r => Keeps.pure ?_
  rintro ⟨⟨hidentity, houtside⟩, hchanged⟩
  exact ⟨hchanged.identity_eq.trans hidentity,
    houtside.of_sameCores (hchanged.sameCores fun _ _ => Issue.FixTried.core_eq)⟩

/-- Repairing one issue leaves the snapshot files alone. -/
theorem outside_fixIssue (name : String) {s : Snapshot}
    (hs : p → s.TracksOutside (session.store.routeIn start.here) start.here) :
    Keeps (session.passWatch start) p (session.fixIssue name s) fun _ => True := by
  refine (keeps_place name s).bind fun index => ?_
  cases s.issues[index]? with
  | none => exact Keeps.pure fun _ => trivial
  | some i =>
    dsimp only
    split
    · exact Keeps.fail _
    · split
      · refine (changedAt_planAt permits_passWatch index fun _ => trivial).bind fun t => ?_
        refine (outside_fixAt index ?_).weaken id fun _ _ _ => trivial
        rintro ⟨⟨hp, -⟩, ht⟩
        exact (hs hp).of_sameCores (ht.sameCores fun _ _ => Issue.Planned.core_eq)
      · exact (outside_fixAt index fun h => hs h.1).weaken id fun _ _ _ => trivial

end Session

end RepoAudit
