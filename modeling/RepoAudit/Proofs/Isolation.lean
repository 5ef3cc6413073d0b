import RepoAudit.Proofs.Pipeline
import RepoAudit.Proofs.Store.Sight

/-!
# Repositories with different slugs

Everything that is kept for a repository is kept under its slug. So the commands on repositories
with other slugs leave alone what is loaded for it, and what is loaded for it is its own as long as
no other repository with its slug is used with the store. A slug does not tell all repositories
apart, and neither does the name of a local copy.

## Main definitions

- `Store.HoldsOwn` — a snapshot file holds a sound snapshot that belongs there
- `Store.UsedBy` — the worlds that commands on some repositories reach from an empty store

## Main statements

- `Session.permitsCommands_own` — the commands keep every snapshot where it belongs
- `Store.UsedBy.isolated` — repositories with different slugs are kept apart
-/

namespace RepoAudit

open Act Snapshot

namespace Store

/-- What a snapshot file holds, if there is one: the text of a sound snapshot of one of some
repositories, whose file it is. -/
def HoldsOwn (base : Route) (names : String → Prop) (r : Route) (content? : Option ByteArray) :
    Prop :=
  ∀ content, content? = some content → ∃ s : Snapshot, s.Sound ∧ names s.repository ∧
    s.slug = slugOf s.repository ∧ snapshotRoute base s.repository = r ∧ content = s.write.toUTF8

end Store

namespace Session

open Store

variable {session : Session} {start : World}

/-- The identity of a snapshot of one of some repositories. -/
def IsOwnIdentity (ok : String → Prop) (identity : String × String) : Prop :=
  ok identity.1 ∧ identity.2 = slugOf identity.1

/-- Commands on some of the repositories keep every snapshot where it belongs. A snapshot that
belongs where one of these repositories has its own must be of these repositories, too. -/
theorem permitsCommands_own (names ok : String → Prop) (hspares : session.settings.SparesSnapshots)
    (hok : ∀ r, ok r → names r)
    (hroute : ∀ r r', ok r → names r' →
      snapshotRoute (session.store.routeIn start.here) r' =
        snapshotRoute (session.store.routeIn start.here) r → ok r') :
    session.PermitsCommands (IsOwnIdentity ok) (fun _ => True) ok
      (session.store.guard (HoldsOwn (session.store.routeIn start.here) names) start) where
  toPermitsRepairs := permitsRepairs_guard hspares
  load := by
    intro p repository hrepository
    refine (keeps_load repository).weaken id ?_
    rintro s - (rfl | ⟨content, text, hgood, htext, hread⟩)
    · exact ⟨⟨hrepository, rfl⟩, Snapshot.sound_new repository⟩
    · obtain ⟨t, ht, hname, hslug, hplace, hwrite⟩ := hgood content rfl
      rw [hwrite, FileTree.fromUTF8?_toUTF8] at htext
      rw [← Option.some.inj htext] at hread
      refine ⟨?_, ht.of_read? hread⟩
      rw [identity_of_read?_write hread]
      exact ⟨hroute _ _ hrepository hname hplace, hslug⟩
  save := by
    intro p s hs
    refine keeps_save s fun hp content hcontent => ?_
    obtain ⟨⟨hname, hslug⟩, hsound⟩ := hs hp
    have hslug : s.slug = slugOf s.repository := hslug
    refine ⟨s, hsound, hok _ hname, hslug, ?_, (Option.some.inj hcontent).symm⟩
    rw [hslug, routeFrom_snapshotPath]

/-- The sight of a snapshot permits repairs for repositories whose snapshots are elsewhere. -/
theorem permitsRepairs_snapshot (ok : String → Prop) {q : String} {K : FileTree → Prop}
    (hspares : session.settings.SparesSnapshots) (hq : IsPlainSlug (slugOf q))
    (hroot : session.store.root.Avoids start.here
      (snapshotRoute (session.store.routeIn start.here) q))
    (hK : FileTree.RestsOn (snapshotRoute (session.store.routeIn start.here) q) K) :
    session.PermitsRepairs (IsOwnIdentity ok) (fun _ => True)
      (World.sight (snapshotRoute (session.store.routeIn start.here) q) K start) where
  numbers := fun _ => trivial
  letsStart := fun _ => sees_start hK
  now := fun _ => sees_now
  makeDirectory := fun _ identity h =>
    sees_makeDirectory hq hroot hK fun hp => ⟨identity.1, (h hp).2⟩
  appendLog := fun _ _ _ _ =>
    sees_change hK (fun _ => .inl (isUnguarded_snapshotRoute (isUnguarded_logPath _ _))) _
  makeCopies := fun _ _ _ hparent => sees_makeCopies hq hroot hK hparent
  writeSource := fun _ _ _ _ happlies => sees_change hK (fun _ => .inl <| isUnguarded_snapshotRoute
    (isUnguarded_of_fileName? (Remedy.fileName?_ne_of_appliesTo hspares happlies))) _
  writeArtifact := fun _ _ _ _ _ _ =>
    sees_change hK (fun _ => .inl (isUnguarded_snapshotRoute (isUnguarded_artifactPath _ _ _))) _

end Session

namespace Store

open Session

/-- The worlds that commands on some repositories reach from those in which the store at a route is
empty. Everything but the snapshot files may change between the commands. -/
inductive UsedBy (names : String → Prop) (base : Route) : World → Prop
  /-- The store is empty. -/
  | empty (w : World)
      (h : ∀ repository, w.files.fileAt (snapshotRoute base repository) = none) :
        UsedBy names base w
  /-- A command on some of the repositories was carried out, with a failure or without. -/
  | command {w : World} (h : UsedBy names base w) (session : Session) (c : Command)
      (hbase : session.store.routeIn w.here = base) (hnamed : ∀ r ∈ session.namedBy c, names r)
      (halone : session.LeavesSnapshots c w) : UsedBy names base (session.perform c w).2
  /-- Everything but the snapshot files has changed, and some of those were removed. -/
  | change {w : World} (h : UsedBy names base w) (w' : World)
      (hfiles : ∀ repository content,
        w'.files.fileAt (snapshotRoute base repository) = some content →
          w.files.fileAt (snapshotRoute base repository) = some content) : UsedBy names base w'

variable {names : String → Prop} {base : Route} {w : World}

/-- Every snapshot in the store belongs where it is. -/
theorem UsedBy.holdsOwn (h : UsedBy names base w) (repository : String) :
    HoldsOwn base names (snapshotRoute base repository)
      (w.files.fileAt (snapshotRoute base repository)) := by
  induction h generalizing repository with
  | empty w hempty =>
    intro content hcontent
    rw [hempty repository] at hcontent
    cases hcontent
  | @command w _ session c hbase hnamed halone ih =>
    subst hbase
    have hcommands : session.PermitsCommands (IsOwnIdentity names) (fun _ => True) names
        (session.store.guard (HoldsOwn (session.store.routeIn w.here) names) w) :=
      permitsCommands_own names names halone.settings (fun _ hr => hr) fun _ _ _ hr' _ => hr'
    exact (halone.guards (keeps_perform hcommands hnamed) ih).good _ ⟨repository, rfl⟩
  | @change w _ w' hfiles ih =>
    intro content hcontent
    exact ih repository content (hfiles repository content hcontent)

/-- What is loaded for a repository is of a repository that has its snapshot there, or new. -/
theorem UsedBy.load_own (h : UsedBy names base w) {st : Store} (hbase : st.routeIn w.here = base)
    {repository : String} {s : Snapshot} (hload : (st.load repository w).1 = .ok s) :
    (¬w.files.isPresent w.here (st.snapshotPath (slugOf repository)) ∧
      s.repository = repository) ∨
      names s.repository ∧ snapshotRoute base s.repository = snapshotRoute base repository := by
  subst hbase
  rcases load_eq_ok hload with ⟨habsent, rfl⟩ | ⟨content, text, hcontent, htext, hread⟩
  · exact .inl ⟨habsent, rfl⟩
  · obtain ⟨t, -, hname, -, hplace, hwrite⟩ := h.holdsOwn repository content hcontent
    rw [hwrite, FileTree.fromUTF8?_toUTF8] at htext
    rw [← Option.some.inj htext] at hread
    have hrepository : s.repository = t.repository :=
      congrArg Prod.fst (identity_of_read?_write hread)
    rw [hrepository]
    exact .inr ⟨hname, hplace⟩

/-- Commands on repositories with other slugs leave alone what is loaded for a repository. -/
theorem UsedBy.load_perform (h : UsedBy names base w) {session : Session} {c : Command}
    {q : String} (hbase : session.store.routeIn w.here = base)
    (hnamed : ∀ r ∈ session.namedBy c, names r ∧ slugOf r ≠ slugOf q)
    (hq : IsPlainSlug (slugOf q)) (halone : session.LeavesSnapshots c w)
    (hcalls : ∀ call ∈ (session.perform c w).2.calls.drop w.calls.length,
      call.LeavesAlone (snapshotRoute base q) w.programs)
    (hroot : session.store.root.Avoids w.here (snapshotRoute base q))
    (hfinds : session.store.Finds q w) :
    (session.store.load q (session.perform c w).2).1 = (session.store.load q w).1 := by
  subst hbase
  have hown : session.PermitsCommands
      (IsOwnIdentity fun r => names r ∧ snapshotRoute (session.store.routeIn w.here) r ≠
        snapshotRoute (session.store.routeIn w.here) q) (fun _ => True)
      (fun r => names r ∧ snapshotRoute (session.store.routeIn w.here) r ≠
        snapshotRoute (session.store.routeIn w.here) q)
      (session.store.guard (HoldsOwn (session.store.routeIn w.here) names) w) :=
    permitsCommands_own names _ halone.settings (fun r hr => hr.1)
      fun r r' hr hr' hroute => ⟨hr', fun heq => hr.2 (hroute.symm.trans heq)⟩
  have hrests := FileTree.restsOn_sameAt (snapshotRoute (session.store.routeIn w.here) q) w.files
  have hboth := hown.inter (permitsRepairs_snapshot _ halone.settings hq hroot hrests)
    fun p s hs => sees_saveElsewhere hq hroot hrests fun hp => ⟨(hs hp).1.2, (hs hp).1.1.2⟩
  have hkeep := (keeps_perform (p := True) hboth
    (fun r hr => ⟨(hnamed r hr).1, snapshotRoute_ne _ (hnamed r hr).2 hq⟩) w).2 trivial
      ⟨guard_holds h.holdsOwn, .refl (.refl _ _)⟩
  rcases hkeep with (hbreached | ⟨call, hcall, hleaves⟩) | ⟨⟨-, hsees⟩, -⟩
  · exact (halone.not_breached hbreached).elim
  · exact (hleaves (hcalls call hcall)).elim
  · exact load_of_sees hsees hfinds

/-! ## Local copies -/

theorem copyName_ne_nil (address : List Char) : copyName address ≠ [] := by
  rw [copyName]
  split
  · split
    · decide
    · next h => simpa using h
  · split
    · decide
    · next h => simpa using h

/-- A local copy is one step below the copies, which are below the store. -/
theorem routeFrom_copyPath (st : Store) (here : Route) (address : String) :
    (copyPath st.copies address).routeFrom here =
      Path.stepRoute (st.routeIn here ++ ["repos"]) (copyName address.toList) := by
  have hname : '/' ∉ (String.ofList (copyName address.toList)).toList := by
    rw [String.toList_ofList]
    exact notMem_copyName _
  rw [copyPath, Path.routeFrom_entry_of_notMem hname, copies,
    Path.routeFrom_entry rfl fun _ => rfl, String.toList_ofList]
  rfl

/-- Two remote repositories share a local copy exactly when it has one name for both. -/
theorem routeFrom_copyPath_eq_iff (st : Store) (here : Route) (p q : String) :
    (copyPath st.copies p).routeFrom here = (copyPath st.copies q).routeFrom here ↔
      copyName p.toList = copyName q.toList := by
  rw [routeFrom_copyPath, routeFrom_copyPath]
  exact Path.stepRoute_inj (by simp) (copyName_ne_nil _) (copyName_ne_nil _)

/-! ## Isolation -/

/-- Two repositories whose slugs differ are kept apart: their directories differ, what is loaded
for the one is its own unless another repository with its slug is used, and no command on
repositories with other slugs than the other's changes what is loaded for that. Their local copies
differ exactly when the last parts of their addresses do. -/
theorem UsedBy.isolated (h : UsedBy names base w) {p q : String} (hslug : slugOf p ≠ slugOf q)
    (hp : IsPlainSlug (slugOf p)) (hq : IsPlainSlug (slugOf q)) (st : Store)
    (hbase : st.routeIn w.here = base) :
    (st.directory (slugOf p)).routeFrom w.here ≠ (st.directory (slugOf q)).routeFrom w.here ∧
      ((∀ r, names r → slugOf r = slugOf p → r = p) →
        ∀ s, (st.load p w).1 = .ok s → s.repository = p) ∧
      (∀ (session : Session) (c : Command), session.store = st →
        (∀ r ∈ session.namedBy c, names r ∧ slugOf r ≠ slugOf q) →
        session.LeavesSnapshots c w →
        (∀ call ∈ (session.perform c w).2.calls.drop w.calls.length,
          call.LeavesAlone (snapshotRoute base q) w.programs) →
        st.root.Avoids w.here (snapshotRoute base q) → st.Finds q w →
          (st.load q (session.perform c w).2).1 = (st.load q w).1) ∧
      ((copyPath st.copies p).routeFrom w.here = (copyPath st.copies q).routeFrom w.here ↔
        copyName p.toList = copyName q.toList) := by
  refine ⟨?_, fun hown s hload => ?_, fun session c hstore hnamed halone hcalls hroot hfinds => ?_,
    routeFrom_copyPath_eq_iff st w.here p q⟩
  · rw [directory, directory, Path.routeFrom_entry_of_notMem (notMem_slugOf p),
      Path.routeFrom_entry_of_notMem (notMem_slugOf q)]
    exact stepRoute_slugOf_ne _ hslug hq
  · rcases h.load_own hbase hload with ⟨-, hsame⟩ | ⟨hname, hroute⟩
    · exact hsame
    · refine hown _ hname ?_
      by_contra hne
      exact snapshotRoute_ne base hne hp hroute
  · subst hstore
    exact h.load_perform hbase hnamed hq halone hcalls hroot hfinds

theorem usedBy_scannedWorld : UsedBy (· ∈ ["/r", "/t"]) ["s"] scannedWorld := by
  rw [scannedWorld]
  exact .command (.empty pinnedWorld fileAt_pinnedWorld) pinnedSession _ rfl (by decide)
    (leavesSnapshots_pinnedWorld _)

theorem isIdle_scannedWorld : scannedWorld.IsIdle := by
  intro name reply
  rw [guards_scannedWorld.programs]
  exact isIdle_pinnedWorld name reply

/-- A scan of a second repository leaves alone what is loaded for the first one, and what is loaded
for the second one is its own. -/
theorem isolated_scannedWorld :
    (pinnedSession.store.load "/r"
        (pinnedSession.perform (.scan "/t" (some .dependency)) scannedWorld).2).1 =
      (pinnedSession.store.load "/r" scannedWorld).1 ∧
    ∀ s, (pinnedSession.store.load "/t" scannedWorld).1 = .ok s → s.repository = "/t" := by
  have hhere : scannedWorld.here = [] := guards_scannedWorld.here
  obtain ⟨-, hload, hperform, -⟩ := UsedBy.isolated usedBy_scannedWorld (p := "/t") (q := "/r")
    (by decide) (by decide) (by decide) pinnedSession.store (by rw [hhere]; rfl)
  refine ⟨hperform _ _ rfl ?_ (.of_isIdle (by decide) isIdle_scannedWorld) ?_ ?_ ?_, hload ?_⟩
  · decide
  · exact fun call _ => isIdle_scannedWorld.leavesAlone _ call
  · rw [hhere]
    decide
  · decide +kernel
  · decide

/-- The pinned world after a scan of a repository whose slug is that of another one. -/
def sharedWorld : World :=
  (pinnedSession.perform (.scan "/a/b" (some .dependency)) pinnedWorld).2

theorem usedBy_sharedWorld : UsedBy (· = "/a/b") ["s"] sharedWorld := by
  rw [sharedWorld]
  exact .command (.empty pinnedWorld fileAt_pinnedWorld) pinnedSession _ rfl (by decide)
    (leavesSnapshots_pinnedWorld _)

theorem repository_of_load_sharedWorld {s : Snapshot}
    (h : (pinnedSession.store.load "/a_b" sharedWorld).1 = .ok s) : s.repository = "/a/b" := by
  have hbase : pinnedSession.store.routeIn sharedWorld.here = ["s"] := by
    rw [sharedWorld, (guards_pinnedWorld _).here]
    rfl
  have hpresent : sharedWorld.files.isPresent sharedWorld.here
      (pinnedSession.store.snapshotPath (slugOf "/a_b")) := by
    decide +kernel
  rcases usedBy_sharedWorld.load_own hbase h with ⟨habsent, -⟩ | ⟨hname, -⟩
  · exact (habsent hpresent).elim
  · exact hname

theorem load_pinnedWorld :
    (pinnedSession.store.load "/a_b" pinnedWorld).1 = .ok (Snapshot.new "/a_b") := by
  have habsent : ¬pinnedWorld.files.isPresent pinnedWorld.here
      (pinnedSession.store.snapshotPath (slugOf "/a_b")) := by
    decide
  rw [run_load, if_neg habsent]

/-- The slug of a path with a slash is that of a path with an underscore in its place: after a scan
of the one repository, what was new for the other is of the first one. Two remote repositories can
share a local copy. -/
theorem shared_slug :
    pinnedSession.resolve "/a/b" = "/a/b" ∧ pinnedSession.resolve "/a_b" = "/a_b" ∧
      pinnedSession.store.directory (slugOf "/a/b") =
        pinnedSession.store.directory (slugOf "/a_b") ∧
      (pinnedSession.store.load "/a_b" pinnedWorld).1 = .ok (Snapshot.new "/a_b") ∧
      (∀ s, (pinnedSession.store.load "/a_b" sharedWorld).1 = .ok s → s.repository = "/a/b") ∧
      copyPath pinnedSession.store.copies "https://x/a/shop" =
        copyPath pinnedSession.store.copies "https://x/b/shop" :=
  ⟨by decide +kernel, by decide +kernel, by decide +kernel, load_pinnedWorld,
    fun _ h => repository_of_load_sharedWorld h, by decide +kernel⟩

end Store

end RepoAudit
