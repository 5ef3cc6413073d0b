import RepoAudit.Proofs.Checkout
import RepoAudit.Proofs.Snapshot.Change
import RepoAudit.Proofs.Store.Sound
import RepoAudit.Proofs.World.Sight
import RepoAudit.Repair

/-!
# What commands may do under a watch

All that a command does to the world is to look at the clock, to start programs, to make the
directories of the store, to log, to write repaired files and their diffs, and to save. A watch
permits a session when each of these keeps what it sees. The store is worked on at the directory of
the snapshot at hand, so what is permitted may depend on the identity of that snapshot.

## Main definitions

- `Session.Permits` — what all passes but repairs are made of is permitted
- `Session.PermitsRepairs` — repairs are permitted, too
- `Settings.SparesSnapshots` — no advisory concerns a file with the name of a snapshot

## Main statements

- `Session.Permits.log` — logging changes the log alone
- `Session.PermitsRepairs.inter` — what two watches permit both permit
- `Session.permits_guard`, `Session.permitsRepairs_guard` — the guard of a store permits its sessions
- `Session.permits_sight`, `Session.permitsRepairs_sight` — so does a property of the files at a
  route
-/

namespace RepoAudit

/-- No advisory concerns a file that has the name of a snapshot. -/
def Settings.SparesSnapshots (settings : Settings) : Prop :=
  ∀ a ∈ settings.advisories, (Path.mk a.manifest).fileName? ≠ some Store.snapshotName.toList

instance : DecidablePred Settings.SparesSnapshots :=
  fun settings => inferInstanceAs (Decidable (∀ a ∈ settings.advisories, _))

/-- A file name with an extension that some remedy works on. -/
def Remedy.isSourceName (name : List Char) : Bool :=
  (Path.extensionOf? name).any fun e =>
    (["py", "rb"] ++ scriptExtensions).any fun x => Text.sameIgnoringCase x.toList e

/-- A remedy applies to files with certain extensions, and to those that some advisory concerns. -/
theorem Remedy.exists_of_appliesTo {advisories : List Advisory} {path : Path} {r : Remedy}
    (happlies : r.appliesTo advisories path = true) :
    ∃ name, path.fileName? = some name ∧
      (isSourceName name = true ∨ ∃ a ∈ advisories, (Path.mk a.manifest).fileName? = some name) := by
  have hsource : ∀ extensions, hasExtension extensions path = true →
      extensions ⊆ ["py", "rb"] ++ scriptExtensions →
        ∃ name, path.fileName? = some name ∧ isSourceName name = true := by
    intro extensions hextension hsubset
    rw [hasExtension, Path.extension?] at hextension
    cases hname : path.fileName? with
    | none => simp [hname] at hextension
    | some name =>
      refine ⟨name, rfl, ?_⟩
      rw [hname, Option.bind_some] at hextension
      rw [isSourceName]
      cases he : Path.extensionOf? name with
      | none => simp [he] at hextension
      | some e =>
        rw [he] at hextension
        obtain ⟨x, hx, hsame⟩ := List.any_eq_true.mp hextension
        exact List.any_eq_true.mpr ⟨x, hsubset hx, hsame⟩
  have hleft : (∃ name, path.fileName? = some name ∧ isSourceName name = true) →
      ∃ name, path.fileName? = some name ∧
        (isSourceName name = true ∨
          ∃ a ∈ advisories, (Path.mk a.manifest).fileName? = some name) :=
    fun ⟨name, hname, h⟩ => ⟨name, hname, .inl h⟩
  cases r with
  | prompt => exact hleft (hsource _ happlies (by decide))
  | markup => exact hleft (hsource _ happlies (by decide))
  | command => exact hleft (hsource _ happlies (by decide))
  | pin =>
    rw [appliesTo, Pin.advisoriesFor] at happlies
    cases hname : path.fileName? with
    | none => simp [hname] at happlies
    | some name =>
      rw [hname] at happlies
      exact ⟨name, rfl, .inr (by simpa using happlies)⟩

/-- No remedy applies to a file that has the name of a snapshot. -/
theorem Remedy.fileName?_ne_of_appliesTo {settings : Settings} (h : settings.SparesSnapshots)
    {path : Path} {r : Remedy} (happlies : r.appliesTo settings.advisories path = true) :
    path.fileName? ≠ some Store.snapshotName.toList := by
  intro hsnapshot
  obtain ⟨name, hname, hsource | ⟨a, ha, hmanifest⟩⟩ := exists_of_appliesTo happlies
  · obtain rfl := Option.some.inj (hsnapshot.symm.trans hname)
    revert hsource
    decide
  · exact h a ha (hmanifest.trans (hname.symm.trans hsnapshot))

namespace Session

open Act

/-- What the commands of a session are made of keeps what is watched, apart from repairs, loading
and saving. The store is worked on for snapshots whose identity is lawful. -/
structure Permits (session : Session) (lawful : String × String → Prop) (W : Watch) : Prop where
  /-- Every program may be started. -/
  letsStart : W.LetsStart
  /-- The clock may be looked at. -/
  now : ∀ p : Prop, Keeps W p Act.now fun _ => True
  /-- The directory of a snapshot may be made. -/
  makeDirectory : ∀ (p : Prop) (identity : String × String), (p → lawful identity) →
    Keeps W p (Act.makeDirectories (session.store.directory identity.2)) fun _ => True
  /-- A line may be added to the log file of a snapshot. -/
  appendLog : ∀ (p : Prop) (identity : String × String) (line : String), (p → lawful identity) →
    Keeps W p
      (Act.appendText ((session.store.directory identity.2).entry Store.logName) line)
      fun _ => True
  /-- The directory of the local copies may be made. -/
  makeCopies : ∀ (p : Prop) (address : String) (parent : Path),
    (copyPath session.store.copies address).parent? = some parent →
      Keeps W p (Act.makeDirectories parent) fun _ => True

/-- What the commands of a session are made of keeps what is watched, apart from loading and
saving, when the diffs are stored for issues with fit identifiers. Numbers are fit. -/
structure PermitsRepairs (session : Session) (lawful : String × String → Prop)
    (fit : String → Prop) (W : Watch) : Prop extends session.Permits lawful W where
  /-- The identifier of a number is fit. -/
  numbers : ∀ n, fit (Issue.idOf n)
  /-- A file to which a remedy applies may be written. -/
  writeSource : ∀ (p : Prop) (r : Remedy) (file : Path) (text : String),
    r.appliesTo session.settings.advisories file = true →
      Keeps W p (Act.writeText file text) fun _ => True
  /-- The diff of a repair may be written. -/
  writeArtifact : ∀ (p : Prop) (identity : String × String) (id diff : String),
    (p → lawful identity) → (p → fit id) →
      Keeps W p (Act.writeText (session.store.artifactPath identity.2 id) diff) fun _ => True

variable {session : Session} {lawful : String × String → Prop} {fit : String → Prop} {W : Watch}
  {p : Prop}

/-- A message that is logged is added to the log. -/
theorem Permits.logLine (hW : session.Permits lawful W) (message : String) {s : Snapshot}
    (hs : p → lawful s.identity) :
    Keeps W p (session.store.log message s)
      fun t => ∃ now, t = { s with log := s.log ++ [Store.logLine now message] } := by
  refine (hW.now p).bind fun now => ?_
  refine Keeps.bind (Q := fun _ => True) ?_ fun _ => Keeps.pure fun _ => ⟨now, rfl⟩
  refine (hW.makeDirectory _ s.identity fun h => hs h.1).bind fun result => ?_
  cases result with
  | error e => exact Keeps.pure fun _ => trivial
  | ok _ =>
    exact (hW.appendLog _ s.identity _ fun h => hs h.1.1).bind fun _ => Keeps.pure fun _ => trivial

/-- Logging changes the log alone. -/
theorem Permits.log (hW : session.Permits lawful W) (message : String) {s : Snapshot}
    (hs : p → lawful s.identity) :
    Keeps W p (session.store.log message s) fun t => ∃ log, t = { s with log := log } :=
  (hW.logLine message hs).weaken id fun _ _ ⟨_, ht⟩ => ⟨_, ht⟩

/-- Storing a diff is permitted. -/
theorem PermitsRepairs.storeArtifact (hW : session.PermitsRepairs lawful fit W) {s : Snapshot}
    (id diff : String) (hs : p → lawful s.identity) (hid : p → fit id) :
    Keeps W p (session.store.writeArtifact s.slug id diff) fun _ => True := by
  refine (Keeps.orRefused _ _ (hW.makeDirectory p s.identity hs)).bind fun _ => ?_
  exact (Keeps.orRefused _ _ (hW.writeArtifact _ s.identity _ _ (fun h => hs h.1)
    fun h => hid h.1)).bind fun _ => Keeps.pure fun _ => trivial

/-- Repairs of issues with fewer identifiers are permitted as well. -/
theorem PermitsRepairs.restrict (hW : session.PermitsRepairs lawful (fun _ => True) W)
    (hnumbers : ∀ n, fit (Issue.idOf n)) : session.PermitsRepairs lawful fit W where
  toPermits := hW.toPermits
  numbers := hnumbers
  writeSource := hW.writeSource
  writeArtifact := fun p identity id diff h _ =>
    hW.writeArtifact p identity id diff h fun _ => trivial

/-- What each of two watches permits both permit. -/
theorem Permits.inter {W' : Watch} (hW : session.Permits lawful W)
    (hW' : session.Permits lawful W') : session.Permits lawful (W.inter W') where
  letsStart := fun p name arguments directory? =>
    ((hW.letsStart p name arguments directory?).inter
      (hW'.letsStart p name arguments directory?)).weaken id fun _ _ _ => trivial
  now := fun p => ((hW.now p).inter (hW'.now p)).weaken id fun _ _ _ => trivial
  makeDirectory := fun p identity h =>
    ((hW.makeDirectory p identity h).inter (hW'.makeDirectory p identity h)).weaken id
      fun _ _ _ => trivial
  appendLog := fun p identity line h =>
    ((hW.appendLog p identity line h).inter (hW'.appendLog p identity line h)).weaken id
      fun _ _ _ => trivial
  makeCopies := fun p address parent h =>
    ((hW.makeCopies p address parent h).inter (hW'.makeCopies p address parent h)).weaken id
      fun _ _ _ => trivial

theorem PermitsRepairs.inter {W' : Watch} (hW : session.PermitsRepairs lawful fit W)
    (hW' : session.PermitsRepairs lawful fit W') :
    session.PermitsRepairs lawful fit (W.inter W') where
  toPermits := hW.toPermits.inter hW'.toPermits
  numbers := hW.numbers
  writeSource := fun p r file text h =>
    ((hW.writeSource p r file text h).inter (hW'.writeSource p r file text h)).weaken id
      fun _ _ _ => trivial
  writeArtifact := fun p identity name diff h hid =>
    ((hW.writeArtifact p identity name diff h hid).inter
      (hW'.writeArtifact p identity name diff h hid)).weaken id fun _ _ _ => trivial

section Guard

variable {good : Route → Option ByteArray → Prop} {start : World}

/-- The guard over the snapshot files of a store permits what writes none of them. -/
theorem permits_guard : session.Permits lawful (session.store.guard good start) where
  letsStart := fun _ => keeps_start
  now := fun _ => keeps_now
  makeDirectory := fun _ _ _ => keeps_makeDirectories _
  appendLog := fun _ _ _ _ => Store.keeps_appendLog _ _
  makeCopies := fun _ _ _ _ => keeps_makeDirectories _

/-- It permits repairs when no advisory concerns a snapshot. -/
theorem permitsRepairs_guard (hspares : session.settings.SparesSnapshots) :
    session.PermitsRepairs lawful (fun _ => True) (session.store.guard good start) where
  toPermits := permits_guard
  numbers := fun _ => trivial
  writeSource := fun _ _ _ _ happlies => keeps_writeText
    (fun _ => Store.isUnguarded_of_fileName? (Remedy.fileName?_ne_of_appliesTo hspares happlies)) _
  writeArtifact := fun _ _ _ _ _ _ => Store.keeps_writeArtifact _ _ _

end Guard

section Sight

variable {r : Route} {K : FileTree → Prop} {start : World}

/-- A property of the files that lets directories be made permits what writes no file but the log,
if the log is elsewhere or any file will do. -/
theorem permits_sight (hnew : FileTree.TakesNew r K)
    (hlog : FileTree.TakesFiles r K ∨ ∀ identity, lawful identity → IsUnguarded (· = r) start.here
      ((session.store.directory identity.2).entry Store.logName)) :
    session.Permits lawful (World.sight r K start) where
  letsStart := fun _ => sees_start hnew.restsOn
  now := fun _ => sees_now
  makeDirectory := fun _ _ _ => sees_makeDirectories hnew.restsOn fun _ => .inl hnew
  appendLog := fun _ identity _ hidentity => sees_change hnew.restsOn
    (fun hp => hlog.symm.imp_left fun hpath => hpath identity (hidentity hp)) _
  makeCopies := fun _ _ _ _ => sees_makeDirectories hnew.restsOn fun _ => .inl hnew

/-- It permits repairs, too, when any file will do. -/
theorem permitsRepairs_sight (hnew : FileTree.TakesNew r K) (hfiles : FileTree.TakesFiles r K) :
    session.PermitsRepairs lawful (fun _ => True) (World.sight r K start) where
  toPermits := permits_sight hnew (.inl hfiles)
  numbers := fun _ => trivial
  writeSource := fun _ _ _ _ _ => sees_change hnew.restsOn (fun _ => .inr hfiles) _
  writeArtifact := fun _ _ _ _ _ _ => sees_change hnew.restsOn (fun _ => .inr hfiles) _

theorem permitsRepairs_progress :
    session.PermitsRepairs lawful (fun _ => True) (World.progress start) where
  numbers := fun _ => trivial
  letsStart := fun _ => follows_start
  now := fun _ => follows_now
  makeDirectory := fun _ _ _ => follows_makeDirectories _
  appendLog := fun _ _ _ _ => follows_change _
  makeCopies := fun _ _ _ _ => follows_makeDirectories _
  writeSource := fun _ _ _ _ _ => follows_change _
  writeArtifact := fun _ _ _ _ _ _ => follows_change _

end Sight

end Session

end RepoAudit
