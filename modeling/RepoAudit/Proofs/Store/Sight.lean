import RepoAudit.Refresh
import RepoAudit.Proofs.Store.Load
import RepoAudit.Proofs.World.Sight

/-!
# One snapshot in the sight of the others

What the store does for one repository is done at other routes than the snapshot of a second one,
when their slugs differ. The directories that it makes on the way do no harm as long as the way to
the store itself does not pass that snapshot. So the second repository is loaded as before.

## Main definitions

- `Store.Finds` — what stands at the route of a snapshot is found by its path

## Main statements

- `Store.sees_makeDirectory`, `Store.sees_makeCopies`, `Store.sees_save`,
  `Store.sees_saveElsewhere` — the operations
- `Store.load_of_sees` — a repository whose snapshot was kept in sight is loaded as before
-/

namespace RepoAudit

open FileTree Path Act World

/-- The name of a local copy holds no slash. -/
theorem notMem_copyName (address : List Char) : '/' ∉ copyName address := by
  have hlast : '/' ∉ (((address.reverse.dropWhile (· = '/')).reverse.reverse.takeWhile
      fun c => c ≠ '/' && c ≠ ':').reverse) := by
    rw [List.mem_reverse]
    intro h
    simpa using List.all_eq_true.mp List.all_takeWhile _ h
  rw [copyName]
  split
  · split
    · decide
    · exact fun h => hlast (List.mem_of_mem_take h)
  · split
    · decide
    · exact hlast

theorem Act.IsUnguarded.mono {guarded guarded' : Route → Prop} {here : Route} {path : Path}
    (h : IsUnguarded guarded here path) (himp : ∀ r, guarded' r → guarded r) :
    IsUnguarded guarded' here path :=
  fun parent name hroute hname hguarded => h parent name hroute hname (himp _ hguarded)

namespace Store

variable {st : Store} {start : World} {p : Prop} {q : String}

/-- A step below the store is not as deep as a snapshot. -/
theorem stepRoute_ne_snapshotRoute (hq : IsPlainSlug (slugOf q)) (base : Route)
    (segment : List Char) : stepRoute base segment ≠ snapshotRoute base q := by
  rw [snapshotRoute_eq, hq.stepRoute_eq]
  intro heq
  have hlength := length_stepRoute_le base segment
  rw [heq, List.length_append, List.length_append, List.length_singleton] at hlength
  exact Nat.not_succ_le_self _ (Nat.le_of_succ_le_succ hlength)

theorem isUnguarded_snapshotRoute {base here : Route} {path : Path}
    (h : IsUnguarded (IsSnapshotRoute base) here path) :
    IsUnguarded (· = snapshotRoute base q) here path :=
  h.mono fun _ hr => ⟨q, hr⟩

/-- Saving a snapshot touches nothing but the files of the snapshot and the directory. -/
theorem sees_save {r : Route} {K : FileTree → Prop} (hK : RestsOn r K) {s : Snapshot}
    (hmake : Keeps (World.sight r K start) p (Act.makeDirectories (st.directory s.slug))
      fun _ => True)
    (hlock : p → IsUnguarded (· = r) start.here ⟨(st.snapshotPath s.slug).text ++ ".lock"⟩)
    (hnew : p → r ≠ (Path.mk ((st.snapshotPath s.slug).text ++ ".tmp")).routeFrom start.here)
    (hpath : p → r ≠ (st.snapshotPath s.slug).routeFrom start.here) :
    Keeps (World.sight r K start) p (st.save s) fun _ => True := by
  refine (Keeps.orRefused _ _ hmake).bind fun _ => ?_
  refine (Keeps.orRefused _ _ (sees_change hK (fun h => .inl (hlock h.1)) _)).bind fun _ => ?_
  refine (Keeps.orRefused _ _ (sees_change hK (fun h => .inl ?_) _)).bind fun _ => ?_
  · exact fun _ _ hroute _ hr => hnew h.1.1 (hr.symm.trans hroute.symm)
  · exact Keeps.orRefused _ _ (sees_rename hK (fun h => hnew h.1.1.1) fun h => hpath h.1.1.1)

section Operations

variable (hq : IsPlainSlug (slugOf q))
  (hroot : st.root.Avoids start.here (snapshotRoute (st.routeIn start.here) q))

include hq hroot

theorem avoids_entry {name : String} (hname : '/' ∉ name.toList) :
    (st.root.entry name).Avoids start.here (snapshotRoute (st.routeIn start.here) q) :=
  hroot.entry hname (stepRoute_ne_snapshotRoute hq _ _)

variable {K : FileTree → Prop} (hK : RestsOn (snapshotRoute (st.routeIn start.here) q) K)

include hK

/-- The directory of a repository is made without touching the snapshot. -/
theorem sees_makeDirectory {slug : String} (hslug : p → ∃ repository, slug = slugOf repository) :
    Keeps (World.sight (snapshotRoute (st.routeIn start.here) q) K start) p
      (Act.makeDirectories (st.directory slug)) fun _ => True := by
  refine sees_makeDirectories hK fun hp => .inr fun a ha => ?_
  obtain ⟨repository, rfl⟩ := hslug hp
  exact ((avoids_entry hq hroot (notMem_slugOf repository)).routeFrom_ne ha).symm

/-- The directory of the local copies is made without touching the snapshot. -/
theorem sees_makeCopies {address : String} {parent : Path}
    (hparent : (copyPath st.copies address).parent? = some parent) :
    Keeps (World.sight (snapshotRoute (st.routeIn start.here) q) K start) p
      (Act.makeDirectories parent) fun _ => True := by
  have hcopies : st.copies.Avoids start.here (snapshotRoute (st.routeIn start.here) q) :=
    avoids_entry hq hroot (by decide)
  refine sees_makeDirectories hK fun _ => .inr fun a ha =>
    ((hcopies.parent?_entry ?_ hparent).routeFrom_ne ha).symm
  rw [String.toList_ofList]
  exact notMem_copyName _

/-- Saving the snapshot of another slug leaves the snapshot as it is. -/
theorem sees_saveElsewhere {s : Snapshot} (hslug : p → s.slug = slugOf s.repository ∧
      snapshotRoute (st.routeIn start.here) s.repository ≠
        snapshotRoute (st.routeIn start.here) q) :
    Keeps (World.sight (snapshotRoute (st.routeIn start.here) q) K start) p (st.save s)
      fun _ => True := by
  refine sees_save hK (sees_makeDirectory hq hroot hK fun h => ⟨s.repository, (hslug h).1⟩)
    (fun _ => isUnguarded_snapshotRoute (isUnguarded_lockPath _))
    (fun _ => IsSnapshotRoute.ne_newPath ⟨q, rfl⟩ _)
    fun h => ?_
  obtain ⟨hown, hne⟩ := hslug h
  rw [hown, routeFrom_snapshotPath]
  exact hne.symm

end Operations

/-! ## Loading -/

/-- What stands at the route of a repository's snapshot is found by its path. -/
def Finds (st : Store) (repository : String) (w : World) : Prop :=
  (w.files.node? (snapshotRoute (st.routeIn w.here) repository)).isSome →
    w.files.isPresent w.here (st.snapshotPath (slugOf repository))

instance (st : Store) (repository : String) (w : World) : Decidable (st.Finds repository w) :=
  inferInstanceAs (Decidable (_ → _))

/-- A repository whose snapshot was kept in sight is loaded as before. -/
theorem load_of_sees {w : World} {repository : String}
    (h : World.Sees (SameAt (snapshotRoute (st.routeIn start.here) repository) start.files) start w)
    (hfinds : st.Finds repository start) :
    (st.load repository w).1 = (st.load repository start).1 := by
  obtain ⟨hgrows, hnode⟩ := h.files
  rw [Finds, ← routeFrom_snapshotPath] at hfinds
  rw [← routeFrom_snapshotPath] at hnode
  refine load_congr fun found => ⟨fun hfound => ?_, fun hfound => ?_⟩
  · rw [h.here] at hfound
    have hsome : w.files.node? ((st.snapshotPath (slugOf repository)).routeFrom start.here) =
        some found.2 :=
      node?_of_lookup (c := 'n') (getLast?_chars_entry _ rfl rfl) (by decide) (by decide) hfound
    rw [hnode] at hsome
    obtain ⟨found', hfound'⟩ := exists_lookup_of_isPresent (hfinds (by rw [hsome]; rfl))
    have hagain := hgrows.lookup_eq_ok hnode hfound'
    rw [hfound'] at *
    rw [← hagain]
    exact hfound
  · rw [h.here]
    exact hgrows.lookup_eq_ok hnode hfound

end Store

end RepoAudit
