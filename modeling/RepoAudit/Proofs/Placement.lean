import RepoAudit.Proofs.Isolation
import RepoAudit.Proofs.Settlement
import RepoAudit.Proofs.Store.Listing
import RepoAudit.Proofs.Store.Slug
import RepoAudit.Proofs.Succession

/-!
# Where commands write

Everything that is kept for a repository is in the directory of its slug, one step below the store,
unless the repository is nameless. Then a stored snapshot is listed, and a command writes outside
the store only to files to which a remedy applies. A nameless repository is kept in the store
itself or above it, where it is not listed, and the slug `repos` is that of the local copies.

## Main definitions

- `Session.IsOutside` — the files outside a store to which no remedy applies

## Main statements

- `Store.routeFrom_directory_eq_iff`, `Store.routeFrom_copyPath_eq_concat_iff` — the directories
- `Store.mem_repositories_of_holds` — a stored snapshot is listed
- `Session.fileAt_perform_outside` — a command leaves the files outside the store alone
- `Store.Leads.placed` — where the commands on a store write
-/

namespace RepoAudit

open Act Snapshot FileTree

/-- A step goes to a name below a directory exactly when it is the step with that plain name. -/
theorem Path.stepRoute_eq_concat_iff (r : Route) (name other : String) :
    stepRoute r name.toList = r ++ [other] ↔ IsPlainSlug name ∧ name = other := by
  constructor
  · intro heq
    have hlength := congrArg List.length heq
    rw [List.length_append, List.length_singleton] at hlength
    have hplain : IsPlainSlug name := by
      refine ⟨?_, ?_, ?_⟩ <;>
      · rintro rfl
        simp [stepRoute, isSilent] at hlength
    rw [hplain.stepRoute_eq] at heq
    exact ⟨hplain, List.singleton_inj.mp (List.append_cancel_left heq)⟩
  · rintro ⟨hplain, rfl⟩
    exact hplain.stepRoute_eq r

namespace Store

open World

variable {st : Store} {here : Route}

theorem routeFrom_directory (st : Store) (here : Route) {slug : String}
    (hslash : '/' ∉ slug.toList) :
    (st.directory slug).routeFrom here = Path.stepRoute (st.routeIn here) slug.toList :=
  Path.routeFrom_entry_of_notMem hslash here st.root

theorem routeFrom_copies (st : Store) (here : Route) :
    st.copies.routeFrom here = st.routeIn here ++ ["repos"] :=
  Path.routeFrom_entry rfl (fun _ => rfl) here st.root

/-- The directory of a repository is one step below the store unless the repository is nameless. -/
theorem routeFrom_directory_eq_iff (st : Store) (here : Route) (repository : String) :
    (st.directory (slugOf repository)).routeFrom here = st.routeIn here ++ [slugOf repository] ↔
      ¬IsNameless repository := by
  rw [routeFrom_directory st here (notMem_slugOf repository), Path.stepRoute_eq_concat_iff,
    isPlainSlug_slugOf_iff]
  exact ⟨And.left, fun h => ⟨h, rfl⟩⟩

/-- The directory of a repository is that of the local copies exactly when it has their name. -/
theorem routeFrom_directory_eq_copies_iff (st : Store) (here : Route) (repository : String) :
    (st.directory (slugOf repository)).routeFrom here = st.copies.routeFrom here ↔
      slugOf repository = "repos" := by
  rw [routeFrom_directory st here (notMem_slugOf repository), routeFrom_copies,
    Path.stepRoute_eq_concat_iff]
  refine ⟨And.right, fun h => ⟨?_, h⟩⟩
  rw [h]
  decide

/-- A local copy is one step below the local copies unless its name is a dot or a double dot. -/
theorem routeFrom_copyPath_eq_concat_iff (st : Store) (here : Route) (address : String) :
    (copyPath st.copies address).routeFrom here =
        st.copies.routeFrom here ++ [String.ofList (copyName address.toList)] ↔
      copyName address.toList ≠ ['.'] ∧ copyName address.toList ≠ ['.', '.'] := by
  have hname : ∀ name : String, String.ofList (copyName address.toList) ≠ name ↔
      copyName address.toList ≠ name.toList := fun name => by
    rw [ne_eq, ne_eq, ← String.toList_inj, String.toList_ofList]
  have hstep := Path.stepRoute_eq_concat_iff (st.routeIn here ++ ["repos"])
    (String.ofList (copyName address.toList)) (String.ofList (copyName address.toList))
  rw [String.toList_ofList] at hstep
  rw [routeFrom_copyPath, routeFrom_copies, hstep, IsPlainSlug, hname, hname, hname]
  exact ⟨fun h => h.1.2, fun h => ⟨⟨copyName_ne_nil _, h⟩, rfl⟩⟩

/-! ## Listing -/

theorem readText_of_fileAt {t : FileTree} {slug text : String}
    (hfile : t.fileAt ((st.snapshotPath slug).routeFrom here) = some text.toUTF8)
    (h : t.isPresent here (st.snapshotPath slug)) :
    t.readText here (st.snapshotPath slug) = .ok text := by
  obtain ⟨⟨r, n⟩, hfound⟩ := exists_lookup_of_isPresent h
  have hlast : (st.snapshotPath slug).chars.getLast? = some 'n' := getLast?_chars_entry _ rfl rfl
  have hnode := node?_of_lookup hlast (by decide) (by decide) hfound
  rw [node?_of_fileAt hfile] at hnode
  obtain rfl := Option.some.inj hnode
  rw [FileTree.readText, readBytes, hfound]
  dsimp only
  rw [fromUTF8?_toUTF8]

/-- A stored snapshot is listed if it is in a directory of its own and its record keeps it in
full. -/
theorem mem_repositories_of_holds {w : World} {q : String} {s : Snapshot}
    (hroot : st.root.chars ≠ []) (hplain : IsPlainSlug (slugOf q)) (hfinds : st.FindsAll w)
    (h : Holds (st.routeIn w.here) q s w) (hs : s.IsStorable) :
    ∃ listed, st.repositories w = (.ok listed, w) ∧ s.repository ∈ listed := by
  refine mem_repositories hroot (notMem_slugOf q) hplain (readText_of_fileAt ?_ (hfinds q _ h.file))
    (Snapshot.read?_write_of_isStorable hs)
  rw [routeFrom_snapshotPath]
  exact h.file

end Store

/-! ## Outside the store -/

namespace Session

open Store World

variable {session : Session} {start w : World} {here : Route} {p : Prop}

/-- A route outside the store that is not that of a file to which a remedy applies. -/
def IsOutside (session : Session) (here r : Route) : Prop :=
  ¬session.store.routeIn here <+: r ∧ ∀ (remedy : Remedy) (file : Path),
    remedy.appliesTo session.settings.advisories file = true → file.routeFrom here ≠ r

/-- The watch over the files outside the store. -/
def outside (session : Session) (start : World) : Watch :=
  World.watch (session.IsOutside start.here) (fun r content => content = start.files.fileAt r) start

theorem isUnguarded_of_isPrefix {path : Path}
    (h : session.store.routeIn here <+: path.routeFrom here) :
    IsUnguarded (session.IsOutside here) here path :=
  fun _ _ hroute _ houtside => houtside.1 (hroute ▸ h)

/-- A file in the directory of a repository is in the store. -/
theorem isPrefix_routeFrom_entry {slug name : String} (hslash : '/' ∉ slug.toList)
    (hslug : IsPlainSlug slug) (hname : '/' ∉ name.toList) (hplain : IsPlainSlug name) :
    session.store.routeIn here <+: ((session.store.directory slug).entry name).routeFrom here := by
  rw [Path.routeFrom_entry_of_notMem hname, routeFrom_directory _ _ hslash, hslug.stepRoute_eq,
    hplain.stepRoute_eq, List.append_assoc]
  exact List.prefix_append _ _

theorem isPlainSlug_artifactName (id : String) : IsPlainSlug ("fix-" ++ id ++ ".diff") := by
  have hlength : 4 ≤ ("fix-" ++ id ++ ".diff").toList.length := by
    simp only [String.toList_append, List.length_append]
    exact Nat.le_add_right_of_le (Nat.le_add_right _ _)
  refine ⟨?_, ?_, ?_⟩ <;>
  · intro heq
    rw [heq] at hlength
    revert hlength
    decide

/-- The identifier of a number holds no slash. -/
theorem notMem_idOf (n : Nat) : '/' ∉ (Issue.idOf n).toList := by
  intro hmem
  rw [Issue.idOf, String.toList_ofList] at hmem
  have hdigit := Text.isDigit_of_mem_padded hmem
  revert hdigit
  decide

/-- Commands on repositories that are not nameless write, outside the store, to files to which a
remedy applies. -/
theorem permitsRepairs_outside :
    session.PermitsRepairs (IsOwnIdentity fun r => IsPlainSlug (slugOf r))
      (fun id => '/' ∉ id.toList) (session.outside start) where
  letsStart := fun _ => keeps_start
  now := fun _ => keeps_now
  makeDirectory := fun _ _ _ => keeps_makeDirectories _
  appendLog := by
    rintro p ⟨r, slug⟩ line hs
    refine keeps_appendText (fun hp => ?_) _
    obtain ⟨hplain, hnamed⟩ := hs hp
    dsimp only at hplain hnamed ⊢
    subst hnamed
    exact isUnguarded_of_isPrefix
      (isPrefix_routeFrom_entry (notMem_slugOf r) hplain (by decide) (by decide))
  makeCopies := fun _ _ _ _ => keeps_makeDirectories _
  numbers := notMem_idOf
  writeSource := fun _ remedy file _ happlies => keeps_writeText
    (fun _ _ _ hroute _ houtside => houtside.2 remedy file happlies hroute) _
  writeArtifact := by
    rintro p ⟨r, slug⟩ id diff hs hid
    refine keeps_writeText (fun hp => ?_) _
    obtain ⟨hplain, hnamed⟩ := hs hp
    dsimp only at hplain hnamed ⊢
    subst hnamed
    have hname : '/' ∉ ("fix-" ++ id ++ ".diff").toList := by
      simpa [String.toList_append] using hid hp
    exact isUnguarded_of_isPrefix
      (isPrefix_routeFrom_entry (notMem_slugOf r) hplain hname (isPlainSlug_artifactName id))

/-- Moving a file to another one keeps what is neither. -/
theorem keeps_rename {guarded : Route → Prop} {good : Route → Option ByteArray → Prop}
    {source target : Path} (hsource : p → ¬guarded (source.routeFrom start.here))
    (htarget : p → ¬guarded (target.routeFrom start.here)) :
    Keeps (World.watch guarded good start) p (Act.rename source target) fun _ => True := by
  refine Keeps.change fun hp w files hw hfiles => hw.withFiles fun r hr => ?_
  obtain ⟨-, hothers⟩ := fileAt_rename hfiles
  rw [hw.here] at hothers
  refine hothers r ?_ ?_
  · rintro rfl
    exact hsource hp hr
  · rintro rfl
    exact htarget hp hr

theorem keeps_save_outside (s : Snapshot)
    (hs : p → IsOwnIdentity (fun r => IsPlainSlug (slugOf r)) s.identity) :
    Keeps (session.outside start) p (session.store.save s) fun _ => True := by
  have hinside : ∀ {name : String}, '/' ∉ name.toList → IsPlainSlug name → p →
      session.store.routeIn start.here <+:
        ((session.store.directory s.slug).entry name).routeFrom start.here := by
    intro name hname hplain hp
    obtain ⟨hslug, hnamed⟩ := hs hp
    have hnamed : s.slug = slugOf s.repository := hnamed
    rw [hnamed]
    exact isPrefix_routeFrom_entry (notMem_slugOf _) hslug hname hplain
  have hlock : p → session.store.routeIn start.here <+:
      (Path.mk ((session.store.snapshotPath s.slug).text ++ ".lock")).routeFrom start.here := by
    intro hp
    rw [snapshotPath, Path.entry_append rfl rfl]
    exact hinside (by decide) (by decide) hp
  have hnew : p → session.store.routeIn start.here <+:
      (Path.mk ((session.store.snapshotPath s.slug).text ++ ".tmp")).routeFrom start.here := by
    intro hp
    rw [snapshotPath, Path.entry_append rfl rfl]
    exact hinside (by decide) (by decide) hp
  refine (Keeps.orRefused _ _ (keeps_makeDirectories _)).bind fun _ => ?_
  refine (Keeps.orRefused _ _ (keeps_writeText
    (fun h => isUnguarded_of_isPrefix (hlock h.1)) _)).bind fun _ => ?_
  refine (Keeps.orRefused _ _ (keeps_writeText
    (fun h => isUnguarded_of_isPrefix (hnew h.1.1)) _)).bind fun _ => ?_
  exact Keeps.orRefused _ _ (keeps_rename (fun h houtside => houtside.1 (hnew h.1.1.1))
    fun h houtside => houtside.1 (hinside (by decide) (by decide) h.1.1.1))

/-- A command on repositories that are not nameless leaves the files outside the store alone, apart
from those to which a remedy applies and those that a program makes. -/
theorem fileAt_perform_outside {c : Command}
    (hown : ∀ repository, HoldsOwn (session.store.routeIn w.here) (fun _ => True)
      (snapshotRoute (session.store.routeIn w.here) repository)
      (w.files.fileAt (snapshotRoute (session.store.routeIn w.here) repository)))
    (hnamed : ∀ r ∈ session.namedBy c, IsPlainSlug (slugOf r))
    (halone : session.LeavesSnapshots c w)
    (hcalls : ∀ call ∈ (session.perform c w).2.calls.drop w.calls.length,
      call.Spares (session.IsOutside w.here) w.programs)
    {r : Route} (hr : session.IsOutside w.here r) :
    (session.perform c w).2.files.fileAt r = w.files.fileAt r := by
  have hstored : session.PermitsCommands (IsOwnIdentity fun r => IsPlainSlug (slugOf r))
      (fun _ => True) (fun r => IsPlainSlug (slugOf r))
      (session.store.guard (HoldsOwn (session.store.routeIn w.here) fun _ => True) w) := by
    refine permitsCommands_own _ _ halone.settings (fun _ _ => trivial) fun r r' hr _ hroute => ?_
    -- a snapshot in the directory of a plain slug belongs to a repository with that slug
    by_cases hslug : slugOf r' = slugOf r
    · rw [hslug]
      exact hr
    · exact (snapshotRoute_ne _ hslug hr hroute).elim
  have houtside : session.PermitsRepairs (IsOwnIdentity fun r => IsPlainSlug (slugOf r))
      (fun id => '/' ∉ id.toList) (session.outside w) := permitsRepairs_outside
  have hboth := (hstored.restrict notMem_idOf).inter houtside
    fun p s hs => keeps_save_outside s fun hp => (hs hp).1
  have hkeep := (keeps_perform (p := True) hboth hnamed w).2 trivial
    ⟨guard_holds hown, .refl fun _ _ => rfl⟩
  rcases hkeep with (hbreached | ⟨call, hcall, hspares⟩) | ⟨⟨-, hguards⟩, -⟩
  · exact (halone.not_breached hbreached).elim
  · exact (hspares (hcalls call hcall)).elim
  · exact World.Guards.good hguards r hr

end Session

namespace Store

open Session

variable {base : Route} {start w : World}

theorem HoldsAll.holdsOwn (h : HoldsAll base w) (repository : String) :
    HoldsOwn base (fun _ => True) (snapshotRoute base repository)
      (w.files.fileAt (snapshotRoute base repository)) := by
  intro content hcontent
  obtain ⟨s, hs⟩ := h repository content hcontent
  refine ⟨s, hs.sound, trivial, hs.sound.named, hs.route, ?_⟩
  exact Option.some.inj (hcontent.symm.trans hs.file)

/-- The directory of a repository is one step below the store exactly when the repository is not
nameless, and another one than that of the local copies exactly when its slug is not their name. A
local copy has a name, and is one step below the local copies exactly when that is no dot or double
dot. After a command on repositories that are not nameless every snapshot file holds a snapshot,
which is listed if it is in a directory of its own and its record keeps it in full. Outside the
store only files to which a remedy applies have changed, or which a program has made. -/
theorem Leads.placed (hempty : ∀ q, start.files.fileAt (snapshotRoute base q) = none)
    (h : Leads base start w) (session : Session) (hbase : session.store.routeIn w.here = base)
    (habsolute : session.store.root.isAbsolute) :
    (∀ repository : String,
      ((session.store.directory (slugOf repository)).routeFrom w.here =
        base ++ [slugOf repository] ↔ ¬IsNameless repository) ∧
      ((session.store.directory (slugOf repository)).routeFrom w.here =
        session.store.copies.routeFrom w.here ↔ slugOf repository = "repos") ∧
      copyName repository.toList ≠ [] ∧
      ((copyPath session.store.copies repository).routeFrom w.here =
          session.store.copies.routeFrom w.here ++ [String.ofList (copyName repository.toList)] ↔
        copyName repository.toList ≠ ['.'] ∧ copyName repository.toList ≠ ['.', '.'])) ∧
    ∀ c : Command, session.LeavesSnapshots c w → session.store.FindsAll w → w.ShowsDays →
      (∀ r ∈ session.namedBy c, ¬IsNameless r) →
        (∀ q content,
          (session.perform c w).2.files.fileAt (snapshotRoute base q) = some content →
            ∃ s, Holds base q s (session.perform c w).2) ∧
        (∀ q s, ¬IsNameless q → Holds base q s (session.perform c w).2 → s.IsStorable →
          ∃ listed, session.store.repositories (session.perform c w).2 =
            (.ok listed, (session.perform c w).2) ∧ s.repository ∈ listed) ∧
        ((∀ call ∈ (session.perform c w).2.calls.drop w.calls.length,
            call.Spares (session.IsOutside w.here) w.programs) →
          ∀ r, session.IsOutside w.here r →
            (session.perform c w).2.files.fileAt r = w.files.fileAt r) := by
  subst hbase
  have hroot : session.store.root.chars ≠ [] := by
    intro hnil
    simp [Path.isAbsolute, hnil] at habsolute
  have hholds := h.holdsAll fun q content hcontent => by simp [hempty q] at hcontent
  refine ⟨fun repository => ⟨routeFrom_directory_eq_iff _ _ _,
    routeFrom_directory_eq_copies_iff _ _ _, copyName_ne_nil _,
    routeFrom_copyPath_eq_concat_iff _ _ _⟩, ?_⟩
  intro c halone hfinds hdays hnamed
  have hsucceeds := succeeds_perform hdays hholds hfinds c halone
  refine ⟨hsucceeds.holdsAll, fun q s hq hs hstorable => ?_, fun hcalls r hr => ?_⟩
  · rw [← hsucceeds.follows.here] at hs
    exact mem_repositories_of_holds hroot ((isPlainSlug_slugOf_iff q).mpr hq) hsucceeds.findsAll hs
      hstorable
  · exact fileAt_perform_outside hholds.holdsOwn
      (fun r hr => (isPlainSlug_slugOf_iff r).mpr (hnamed r hr)) halone hcalls hr

/-- What a scan of the pinned world saves, which its record keeps in full. -/
theorem exists_holds_scannedWorld :
    ∃ t, Holds ["s"] "/r" t scannedWorld ∧ t.IsStorable ∧ t.repository = "/r" := by
  have hcheck : comesTo
      (pinnedSession.onSnapshot "r" (pinnedSession.scanSnapshot (some .dependency))) pinnedWorld
      (fun r w' => decide (r.1.IsStorable ∧ r.1.repository = "/r" ∧ r.1.slug = "r" ∧
        w'.here = [])) = true := by
    decide +kernel
  obtain ⟨⟨t, report⟩, w', hscan, hcheck⟩ := exists_of_comesTo hcheck
  obtain ⟨hstorable, hname, hslug, hhere⟩ := of_decide_eq_true hcheck
  have hworld : scannedWorld = w' := by
    rw [scannedWorld, perform_scan_world, hscan]
  obtain ⟨_, _, -, hstep⟩ := run_bind_eq_ok.mp hscan
  obtain ⟨⟨t', report'⟩, w₂, -, hsaved⟩ := run_bind_eq_ok.mp hstep
  obtain ⟨_, w₃, hsave, hend⟩ := run_bind_eq_ok.mp hsaved
  cases hend
  have hfile := (lookup_file (lookup_save hsave)).2
  have hroute : (pinnedSession.store.snapshotPath t.slug).routeFrom w'.here =
      snapshotRoute ["s"] "/r" := by
    rw [hslug, hhere]
    decide
  rw [hroute, ← hworld] at hfile
  obtain ⟨s, hs⟩ := succeeds_scannedWorld.holdsAll "/r" _ hfile
  have hread : Snapshot.read? s.write = some t := by
    have htext := congrArg String.fromUTF8? (Option.some.inj (hs.file.symm.trans hfile))
    rw [fromUTF8?_toUTF8, fromUTF8?_toUTF8] at htext
    rw [Option.some.inj htext]
    exact Snapshot.read?_write_of_isStorable hstorable
  exact ⟨t, ⟨hs.sound.of_read? hread, fun i hi => ⟨(hstorable.issues i hi).createdAt,
    (hstorable.issues i hi).updatedAt⟩, by rw [hname], hfile⟩, hstorable, hname⟩

/-- A scan of the pinned world has its repository listed and writes in the store alone. -/
theorem placed_scannedWorld :
    (pinnedSession.store.directory (slugOf "/r")).routeFrom [] = ["s", "r"] ∧
      (∃ listed, pinnedSession.store.repositories scannedWorld = (.ok listed, scannedWorld) ∧
        "/r" ∈ listed) ∧
      ∀ r, pinnedSession.IsOutside [] r →
        scannedWorld.files.fileAt r = pinnedWorld.files.fileAt r := by
  have hplain : ¬IsNameless "/r" := (isPlainSlug_slugOf_iff "/r").mp (by decide)
  obtain ⟨hplaced, hcommands⟩ := Leads.placed fileAt_pinnedWorld .refl pinnedSession
    routeIn_pinnedWorld (by decide)
  have hnamed : ∀ r ∈ pinnedSession.namedBy (.scan "r" (some .dependency)), ¬IsNameless r := by
    intro r hr
    rw [List.mem_singleton.mp hr]
    exact hplain
  have hscan := hcommands (.scan "r" (some .dependency)) (leavesSnapshots_pinnedWorld _)
    findsAll_pinnedWorld showsDays_pinnedWorld hnamed
  rw [← scannedWorld] at hscan
  obtain ⟨-, hlisted, hunchanged⟩ := hscan
  obtain ⟨t, ht, hstorable, hname⟩ := exists_holds_scannedWorld
  refine ⟨(hplaced "/r").1.mpr hplain, ?_, hunchanged ?_⟩
  · rw [← hname]
    exact hlisted "/r" t hplain ht hstorable
  · rintro call - reply hreply
    cases hreply

/-- A scan of a repository without a name keeps its snapshot in the store itself, where it is not
listed. A slug can also lead out of the store or to the local copies, and a copy can be in the store
itself. -/
theorem unlisted_bareWorld :
    slugOf "/_" = "" ∧ slugOf "/ .." = ".." ∧ slugOf "/repos" = "repos" ∧
      copyName "https://x/..".toList = "..".toList ∧
      ∃ s report w, pinnedSession.scan "/_" (some .dependency) bareWorld = (.ok (s, report), w) ∧
        (w.files.fileAt ["s", "issues.json"]).isSome = true ∧
        (pinnedSession.store.repositories w).1 = .ok [] := by
  have hscan : comesTo (pinnedSession.scan "/_" (some .dependency)) bareWorld (fun _ w =>
      (w.files.fileAt ["s", "issues.json"]).isSome &&
        comesTo pinnedSession.store.repositories w (fun listed _ => listed.isEmpty)) = true := by
    decide +kernel
  obtain ⟨⟨s, report⟩, w, hruns, hstored⟩ := exists_of_comesTo hscan
  obtain ⟨hfile, hlists⟩ := Bool.and_eq_true_iff.mp hstored
  obtain ⟨listed, w', hlisted, hempty⟩ := exists_of_comesTo hlists
  refine ⟨by decide, by decide, by decide, by decide, s, report, w, hruns, hfile, ?_⟩
  rw [hlisted, List.isEmpty_iff.mp hempty]

end Store

end RepoAudit
