import RepoAudit.Proofs.Snapshot.Sound
import RepoAudit.Proofs.Store.Load

/-!
# Stores of sound snapshots

The snapshot files of a store are guarded: what is known about each of them is to stay known. Only
saving writes one, and what is loaded is what the file of the repository spells. A store is sound
when every snapshot file in it holds the text of a sound snapshot.

## Main definitions

- `Store.guard` — the watch over what the snapshot files of a store hold
- `Store.HoldsSound` — what a snapshot file holds, if there is one
- `Store.watch` — the watch over a sound store

## Main statements

- `Store.keeps_load`, `Store.keeps_save` — loading and saving under a guard
- `Store.keeps_appendLog`, `Store.keeps_writeArtifact` — the other files of a store
- `Store.sound_load`, `Store.sound_save` — loading and saving in a sound store
-/

namespace RepoAudit

namespace Store

open FileTree Path Act World

/-! ## Operations -/

/-- The watch over what the snapshot files of a store hold. -/
def guard (st : Store) (good : Route → Option ByteArray → Prop) (start : World) : Watch :=
  World.watch (IsSnapshotRoute (st.routeIn start.here)) good start

variable {st : Store} {good : Route → Option ByteArray → Prop} {start : World} {p : Prop}

/-- Where all snapshot files are good, they are guarded. -/
theorem guard_holds (h : ∀ repository, good (snapshotRoute (st.routeIn start.here) repository)
    (start.files.fileAt (snapshotRoute (st.routeIn start.here) repository))) :
    (st.guard good start).holds start :=
  Guards.refl fun _ ⟨repository, hr⟩ => hr ▸ h repository

/-- What is loaded is new, or what the snapshot file of the repository spells. -/
theorem keeps_load (repository : String) :
    Keeps (st.guard good start) p (st.load repository) fun s =>
      s = Snapshot.new repository ∨ ∃ content text,
        good (snapshotRoute (st.routeIn start.here) repository) (some content) ∧
          String.fromUTF8? content = some text ∧ Snapshot.read? text = some s := by
  intro w
  rw [load_world]
  refine ⟨id, fun _ hw => .inr ⟨hw, fun s hload => ?_⟩⟩
  rcases load_eq_ok hload with ⟨-, rfl⟩ | ⟨content, text, hcontent, htext, hread⟩
  · exact .inl rfl
  · have hgood := World.Guards.good hw _ ⟨repository, rfl⟩
    rw [hw.here] at hcontent
    rw [hcontent] at hgood
    exact .inr ⟨content, text, hgood, htext, hread⟩

/-- Adding to the log file of a repository keeps the snapshots. -/
theorem keeps_appendLog (slug line : String) :
    Keeps (st.guard good start) p (Act.appendText ((st.directory slug).entry logName) line)
      fun _ => True :=
  keeps_appendText (fun _ => isUnguarded_logPath st slug) _

/-- Writing a diff keeps the snapshots. -/
theorem keeps_writeArtifact (slug id diff : String) :
    Keeps (st.guard good start) p (Act.writeText (st.artifactPath slug id) diff) fun _ => True :=
  keeps_writeText (fun _ => isUnguarded_artifactPath st slug id) _

/-- What is moved to another path is what was written before. -/
theorem keeps_writeAndMove (task task' : Task) {newPath path : Path} (text : String)
    (hnew : ∀ r, IsSnapshotRoute (st.routeIn start.here) r → r ≠ newPath.routeFrom start.here)
    (hgood : p → good (path.routeFrom start.here) (some text.toUTF8)) :
    Keeps (st.guard good start) p
      (do
        Act.orRefused task newPath (Act.writeText newPath text)
        Act.orRefused task' path (Act.rename newPath path)) fun _ => True := by
  intro w
  rw [run_bind, writeText, run_orRefused_change]
  cases hwrite : w.files.write w.here newPath text.toUTF8 with
  | error cause => exact ⟨id, fun _ hw => .inr ⟨hw, fun _ _ => trivial⟩⟩
  | ok files =>
    have hfiles : w.here = start.here → ∀ r, IsSnapshotRoute (st.routeIn start.here) r →
        files.fileAt r = w.files.fileAt r := by
      intro hhere r hr
      apply fileAt_change_of_ne hwrite
      rw [hhere]
      exact hnew r hr
    dsimp only
    rw [Act.rename, run_orRefused_change]
    dsimp only
    cases hrename : files.rename w.here newPath path with
    | error cause =>
      exact ⟨id, fun _ hw => .inr ⟨hw.withFiles (hfiles hw.here), fun _ _ => trivial⟩⟩
    | ok moved =>
      refine ⟨id, fun hp hw => .inr ⟨⟨hw.here, hw.programs, hw.spared, hw.recorded, ?_⟩,
        fun _ _ => trivial⟩⟩
      intro r hr
      obtain ⟨htarget, hothers⟩ := fileAt_rename hrename
      dsimp only
      by_cases hroute : r = path.routeFrom w.here
      · rw [hroute, htarget, fileAt_change hwrite, hw.here]
        exact hgood hp
      · rw [hothers r (by rw [hw.here]; exact hnew r hr) hroute, hfiles hw.here r hr]
        exact hw.good r hr

/-- Saving a snapshot keeps the guard when its text is good where its file is. -/
theorem keeps_save (s : Snapshot)
    (hgood : p → good ((st.snapshotPath s.slug).routeFrom start.here) (some s.write.toUTF8)) :
    Keeps (st.guard good start) p (st.save s) fun _ => True := by
  refine (Keeps.orRefused _ _ (keeps_makeDirectories _)).bind fun _ => ?_
  refine Keeps.bind
    (Keeps.orRefused _ _ (keeps_writeText (fun _ => isUnguarded_lockPath _) _)) fun _ => ?_
  exact (keeps_writeAndMove _ _ _ (fun r hr => hr.ne_newPath _) hgood).given fun h => h.1.1

/-! ## Sound stores -/

/-- What a snapshot file holds, if there is one: the text of a sound snapshot. -/
def HoldsSound (content? : Option ByteArray) : Prop :=
  ∀ content, content? = some content → ∃ s : Snapshot, s.Sound ∧ content = s.write.toUTF8

/-- The watch over the snapshot files of a store. -/
def watch (st : Store) (start : World) : Watch :=
  st.guard (fun _ => HoldsSound) start

/-- A snapshot that is loaded from a sound store is sound. -/
theorem sound_load (repository : String) :
    Keeps (st.watch start) p (st.load repository) Snapshot.Sound := by
  refine (keeps_load repository).weaken id ?_
  rintro s - (rfl | ⟨content, text, hgood, htext, hread⟩)
  · exact Snapshot.sound_new repository
  · obtain ⟨t, ht, hwrite⟩ := hgood content rfl
    rw [hwrite, fromUTF8?_toUTF8] at htext
    rw [← Option.some.inj htext] at hread
    exact ht.of_read? hread

/-- Saving a sound snapshot keeps the store sound. -/
theorem sound_save (s : Snapshot) :
    Keeps (st.watch start) s.Sound (st.save s) fun _ => True :=
  keeps_save s fun hs _ hcontent =>
    ⟨s, hs, (Option.some.inj hcontent).symm⟩

end Store

end RepoAudit
