import RepoAudit.Store
import RepoAudit.Proofs.FileTree.Ancestor
import RepoAudit.Proofs.World.Guard

/-!
# Where a store keeps its files

The directory of a repository is named by its slug, which holds no slash. So its snapshot has a
route of its own, two steps below the store, unless the slug is empty, a dot or a double dot.

## Main definitions

- `Store.snapshotRoute`, `Store.IsSnapshotRoute` — where the snapshots of a store are
- `Store.fileNames` — the names of the files that a store writes on its own
- `IsPlainSlug` — a slug that names a directory of its own

## Main statements

- `Store.snapshotRoute_ne` — different slugs lead to different snapshots
- `Store.IsSnapshotRoute.ne_routeFrom` — the other files of a store are no snapshots
-/

namespace RepoAudit

theorem notMem_joinSeparators (cs : List Char) (inRun : Bool) :
    '/' ∉ joinSeparators inRun cs := by
  induction cs generalizing inRun with
  | nil => simp [joinSeparators]
  | cons c cs ih =>
    rw [joinSeparators]
    by_cases hc : isSlugSeparator c
    · rw [if_pos hc]
      cases inRun with
      | true => exact ih true
      | false => simpa using ih true
    · rw [if_neg hc, List.mem_cons]
      rintro (rfl | hmem)
      · exact hc rfl
      · exact ih false hmem

theorem notMem_slugOf (repository : String) : '/' ∉ (slugOf repository).toList := by
  rw [slugOf, String.toList_ofList, trimUnderscores, List.mem_reverse]
  intro h
  have hsublist := (List.dropWhile_suffix _).subset h
  rw [List.mem_reverse] at hsublist
  exact notMem_joinSeparators _ _ ((List.dropWhile_suffix _).subset hsublist)

/-- A slug names no route from the root. -/
theorem isAbsolute_slugOf (repository : String) :
    (Path.mk (slugOf repository)).isAbsolute = false :=
  Path.isAbsolute_of_notMem (notMem_slugOf repository)

/-- A slug that names a directory of its own in a store. -/
def IsPlainSlug (slug : String) : Prop :=
  slug ≠ "" ∧ slug ≠ "." ∧ slug ≠ ".."

instance : DecidablePred IsPlainSlug := fun slug => inferInstanceAs (Decidable (slug ≠ "" ∧ _))

theorem IsPlainSlug.stepRoute_eq {slug : String} (h : IsPlainSlug slug) (r : Route) :
    Path.stepRoute r slug.toList = r ++ [slug] := by
  obtain ⟨hempty, hdot, hparent⟩ := h
  have hne : ∀ name : String, slug ≠ name → slug.toList ≠ name.toList :=
    fun name hname heq => hname (String.toList_inj.mp heq)
  have hsilent : ¬Path.isSilent slug.toList := by
    simpa [Path.isSilent] using ⟨hempty, hne _ hdot⟩
  rw [Path.stepRoute, if_neg (by simpa using hne _ hparent), if_neg hsilent, String.ofList_toList]

namespace Store

open FileTree Path Act World

/-- The route of a store. -/
def routeIn (here : Route) (st : Store) : Route :=
  st.root.routeFrom here

/-- The route of the snapshot of a repository in the store at a route. -/
def snapshotRoute (base : Route) (repository : String) : Route :=
  (Path.mk (slugOf repository)).routeFrom base ++ [snapshotName]

/-- A route at which some repository has its snapshot. -/
def IsSnapshotRoute (base r : Route) : Prop :=
  ∃ repository, r = snapshotRoute base repository

theorem routeFrom_snapshotPath (st : Store) (here : Route) (repository : String) :
    (st.snapshotPath (slugOf repository)).routeFrom here =
      snapshotRoute (st.routeIn here) repository := by
  rw [snapshotPath, routeFrom_entry rfl fun r => rfl, directory, entry,
    routeFrom_join (isAbsolute_slugOf repository)]
  rfl

theorem getLast?_chars_entry (p : Path) {name : String} {c : Char}
    (habsolute : (Path.mk name).isAbsolute = false) (h : name.toList.getLast? = some c) :
    (p.entry name).chars.getLast? = some c := by
  have hname : (Path.mk name).chars.getLast? = some c := h
  rw [entry, join_eq habsolute]
  split
  · exact h
  · split
    · rw [chars_ofList, List.getLast?_append, hname]
      rfl
    · rw [chars_ofList, List.getLast?_append, List.getLast?_cons, hname]
      rfl

/-- A path that does not end as the name of a snapshot leads to no snapshot. -/
theorem IsSnapshotRoute.ne_routeFrom {base r : Route} (hr : IsSnapshotRoute base r) {p : Path}
    {c : Char} (h : p.chars.getLast? = some c) (hslash : c ≠ '/') (hdot : c ≠ '.') (hn : c ≠ 'n')
    (here : Route) : r ≠ p.routeFrom here := by
  obtain ⟨repository, hsnapshot⟩ := hr
  obtain ⟨parent, last, hlast, hchar⟩ := exists_routeFrom_eq h hslash hdot here
  rw [hlast, hsnapshot, snapshotRoute]
  intro heq
  have hname : snapshotName = last := List.singleton_inj.mp (List.append_inj_right' heq rfl)
  rw [← hname] at hchar
  exact hn (Option.some.inj (hchar.symm.trans rfl))

theorem isUnguarded_of_getLast? {base here : Route} {p : Path} {c : Char}
    (h : p.chars.getLast? = some c) (hslash : c ≠ '/') (hdot : c ≠ '.') (hn : c ≠ 'n') :
    IsUnguarded (IsSnapshotRoute base) here p := by
  rintro parent name hroute - hsnapshot
  exact hsnapshot.ne_routeFrom h hslash hdot hn here hroute.symm

/-- A path with another file name than a snapshot is not guarded. -/
theorem isUnguarded_of_fileName? {base here : Route} {p : Path}
    (h : p.fileName? ≠ some snapshotName.toList) :
    IsUnguarded (IsSnapshotRoute base) here p := by
  rintro parent name - hname ⟨repository, hsnapshot⟩
  obtain ⟨-, heq⟩ := List.append_inj' hsnapshot rfl
  rw [List.singleton_inj.mp heq] at hname
  exact h hname

/-! ## The other files of a store -/

variable {base here : Route}

theorem isUnguarded_logPath (st : Store) (slug : String) :
    IsUnguarded (IsSnapshotRoute base) here ((st.directory slug).entry logName) :=
  isUnguarded_of_getLast? (getLast?_chars_entry _ rfl rfl) (by decide) (by decide) (by decide)

theorem isUnguarded_artifactPath (st : Store) (slug id : String) :
    IsUnguarded (IsSnapshotRoute base) here (st.artifactPath slug id) := by
  refine isUnguarded_of_getLast? (c := 'f') (getLast?_chars_entry _ ?_ ?_) (by decide) (by decide)
    (by decide)
  · rw [Path.isAbsolute, chars, String.toList_append, String.toList_append]
    rfl
  · rw [String.toList_append, List.getLast?_append]
    rfl

theorem getLast?_chars_append (path : Path) {ending : String} {c : Char}
    (h : ending.toList.getLast? = some c) :
    (Path.mk (path.text ++ ending)).chars.getLast? = some c := by
  rw [chars, String.toList_append, List.getLast?_append, h]
  rfl

theorem isUnguarded_lockPath (path : Path) :
    IsUnguarded (IsSnapshotRoute base) here ⟨path.text ++ ".lock"⟩ :=
  isUnguarded_of_getLast? (getLast?_chars_append path (c := 'k') rfl) (by decide) (by decide)
    (by decide)

theorem IsSnapshotRoute.ne_newPath {r : Route} (hr : IsSnapshotRoute base r) (path : Path) :
    r ≠ (Path.mk (path.text ++ ".tmp")).routeFrom here :=
  hr.ne_routeFrom (getLast?_chars_append path (c := 'p') rfl) (by decide) (by decide) (by decide) _

/-! ## The names of the files of a store -/

/-- The names of the files that a store writes on its own, without a repair. -/
def fileNames : List String :=
  [snapshotName, snapshotName ++ ".lock", snapshotName ++ ".tmp", logName]

variable {st : Store} {slug : String} {r : Route} {name : String}

/-- A route to a file of another name is none that the store writes to. -/
theorem ne_routeFrom_entry (hr : r.getLast? = some name) (hname : name ∉ fileNames)
    {other : String} (hother : other ∈ fileNames) :
    r ≠ ((st.directory slug).entry other).routeFrom here := by
  have hroute : ((st.directory slug).entry other).routeFrom here =
      (st.directory slug).routeFrom here ++ [other] := by
    simp only [fileNames, List.mem_cons, List.not_mem_nil, or_false] at hother
    rcases hother with rfl | rfl | rfl | rfl <;> exact Path.routeFrom_entry rfl (fun _ => rfl) _ _
  rintro heq
  rw [heq, hroute, List.getLast?_concat] at hr
  exact hname (Option.some.inj hr ▸ hother)

theorem ne_routeFrom_snapshotPath (hr : r.getLast? = some name) (hname : name ∉ fileNames) :
    r ≠ (st.snapshotPath slug).routeFrom here :=
  ne_routeFrom_entry hr hname (by decide)

theorem ne_routeFrom_lockPath (hr : r.getLast? = some name) (hname : name ∉ fileNames) :
    r ≠ (Path.mk ((st.snapshotPath slug).text ++ ".lock")).routeFrom here := by
  rw [snapshotPath, Path.entry_append rfl rfl]
  exact ne_routeFrom_entry hr hname (by decide)

theorem ne_routeFrom_newPath (hr : r.getLast? = some name) (hname : name ∉ fileNames) :
    r ≠ (Path.mk ((st.snapshotPath slug).text ++ ".tmp")).routeFrom here := by
  rw [snapshotPath, Path.entry_append rfl rfl]
  exact ne_routeFrom_entry hr hname (by decide)

/-! ## Different slugs -/

theorem snapshotRoute_eq (base : Route) (repository : String) :
    snapshotRoute base repository =
      stepRoute base (slugOf repository).toList ++ [snapshotName] := by
  rw [snapshotRoute, routeFrom_of_notMem (notMem_slugOf repository)]

/-- Different slugs lead to different directories. -/
theorem stepRoute_slugOf_ne (base : Route) {p q : String} (hslug : slugOf p ≠ slugOf q)
    (hq : IsPlainSlug (slugOf q)) :
    stepRoute base (slugOf p).toList ≠ stepRoute base (slugOf q).toList := by
  rw [hq.stepRoute_eq]
  intro heq
  have hlength := congrArg List.length heq
  rw [List.length_append, List.length_singleton] at hlength
  rw [stepRoute] at heq hlength
  split at heq
  · next hparent =>
    rw [if_pos hparent, List.length_dropLast] at hlength
    omega
  · next hparent =>
    rw [if_neg hparent] at hlength
    split at heq
    · next hsilent =>
      rw [if_pos hsilent] at hlength
      omega
    · rw [String.ofList_toList] at heq
      exact hslug (List.singleton_inj.mp (List.append_cancel_left heq))

/-- Different slugs lead to different snapshots. -/
theorem snapshotRoute_ne (base : Route) {p q : String} (hslug : slugOf p ≠ slugOf q)
    (hq : IsPlainSlug (slugOf q)) : snapshotRoute base p ≠ snapshotRoute base q := by
  rw [snapshotRoute_eq, snapshotRoute_eq]
  exact fun heq => stepRoute_slugOf_ne base hslug hq (List.append_cancel_right heq)

end Store

end RepoAudit
