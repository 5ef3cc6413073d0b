import RepoAudit.Proofs.FileTree.Passage
import RepoAudit.Proofs.Store.Reload

/-!
# Saving again

A save that is not refused leaves everything that a further save with the same slug needs: the way
to the directory of the slug can be passed, and no directory stands where a file is to be put. This
stays so as long as the directories and what stands at these files stay.

## Main definitions

- `FileTree.Admits` — a file can be put at a path
- `Store.CanSave` — a save with a slug is not refused

## Main statements

- `Store.CanSave.exists_save` — such a save succeeds
- `Store.CanSave.of_save` — after a save another one is not refused
-/

namespace RepoAudit

namespace FileTree

variable {t t' : FileTree} {here r : Route} {p source target : Path}
  {f : Option ByteArray → ByteArray}

/-- A file can be put at a path. -/
def Admits (t : FileTree) (here : Route) (p : Path) : Prop :=
  ∃ parent name, t.place here p = .ok (.entry parent name false) ∧
    t.node? (parent ++ [name]) ≠ some .directory

namespace Admits

theorem node?_ne (h : t.Admits here p) : t.node? (p.routeFrom here) ≠ some .directory := by
  obtain ⟨parent, name, hplace, hnode⟩ := h
  rwa [(place_entry hplace).1]

theorem mono (h : t.Admits here p) (hgrows : Grows t t')
    (hnode : t'.node? (p.routeFrom here) ≠ some .directory) : t'.Admits here p := by
  obtain ⟨parent, name, hplace, -⟩ := h
  rw [(place_entry hplace).1] at hnode
  exact ⟨parent, name, hgrows.place_eq_ok hplace, hnode⟩

theorem of_change (h : t.change here p f = .ok t') : t.Admits here p := by
  rw [change] at h
  split at h
  · cases h
  · cases h
  · next parent name slash hplace =>
    split at h
    · cases h
    · next hslash =>
      obtain rfl : slash = false := by simpa using hslash
      refine ⟨parent, name, hplace, fun hnode => ?_⟩
      rw [hnode] at h
      cases h

theorem exists_change (h : t.Admits here p) (f : Option ByteArray → ByteArray) :
    ∃ t', t.change here p f = .ok t' := by
  obtain ⟨parent, name, hplace, hnode⟩ := h
  rw [change, hplace]
  dsimp only
  rw [if_neg Bool.false_ne_true]
  cases hn : t.node? (parent ++ [name]) with
  | none => exact ⟨_, rfl⟩
  | some n =>
    cases n with
    | directory => exact absurd hn hnode
    | file content => exact ⟨_, rfl⟩

/-- A file that was put at a path is found by it. -/
theorem exists_lookup (h : t.Admits here p) (hchange : t.change here p f = .ok t') :
    ∃ content, t'.lookup here p = .ok (p.routeFrom here, .file content) := by
  have hfile := node?_of_fileAt (fileAt_change hchange)
  obtain ⟨parent, name, hplace, -⟩ := h
  rw [(place_entry hplace).1] at hfile ⊢
  rw [lookup, (Grows.of_change hchange).place_eq_ok hplace]
  dsimp only
  rw [hfile]
  exact ⟨_, rfl⟩

theorem of_rename (h : t.rename here source target = .ok t') : t.Admits here target := by
  rw [rename] at h
  split at h
  · cases h
  · cases h
  · split at h
    · cases h
    · cases h
    · next parent name slash hplace =>
      split at h
      · cases h
      · next hslash =>
        obtain rfl : slash = false := by simpa using hslash
        refine ⟨parent, name, hplace, fun hnode => ?_⟩
        rw [hnode] at h
        cases h

theorem exists_rename {content : ByteArray} (h : t.Admits here target)
    (hsource : t.lookup here source = .ok (r, .file content)) :
    ∃ t', t.rename here source target = .ok t' := by
  obtain ⟨parent, name, hplace, hnode⟩ := h
  rw [rename, hsource]
  dsimp only
  rw [hplace]
  dsimp only
  rw [if_neg Bool.false_ne_true]
  split
  · next hn => exact absurd hn hnode
  · exact ⟨_, rfl⟩

end Admits

/-- Where an entry was taken away there is no directory. -/
theorem node?_unset_self_ne (h : t.node? r ≠ some .directory) :
    (t.unset r).node? r ≠ some .directory := by
  cases r with
  | nil => exact absurd rfl h
  | cons name rest =>
    intro hnode
    rw [node?_cons, Option.map_eq_some_iff] at hnode
    obtain ⟨e, hfind, -⟩ := hnode
    have hmem := List.mem_of_find?_eq_some hfind
    have heq := List.find?_some hfind
    rw [unset, List.mem_filter] at hmem
    simp_all

/-- A move leaves no directory where the file was. -/
theorem node?_rename_source (h : t.rename here source target = .ok t')
    (hne : source.routeFrom here ≠ target.routeFrom here) :
    t'.node? (source.routeFrom here) ≠ some .directory := by
  rw [rename] at h
  split at h
  · cases h
  · cases h
  · next source' content hlookup =>
    obtain ⟨rfl, hfile⟩ := lookup_file hlookup
    split at h
    · cases h
    · cases h
    · next parent name slash hplace =>
      rw [(place_entry hplace).1] at hne
      split at h
      · cases h
      · split at h
        · cases h
        · cases h
          rw [node?_set_of_ne _ _ hne]
          exact node?_unset_self_ne (by rw [node?_of_fileAt hfile]; simp)

end FileTree

namespace Store

open FileTree Path Act

variable {st : Store} {s : Snapshot} {slug : String} {here : Route} {t t' : FileTree} {w w' : World}

/-- The names of the files that a save works on. -/
def savedNames : List String :=
  [snapshotName, snapshotName ++ ".lock", snapshotName ++ ".tmp"]

theorem routeFrom_savedName {name : String} (here : Route) (p : Path) (h : name ∈ savedNames) :
    (p.entry name).routeFrom here = p.routeFrom here ++ [name] := by
  simp only [savedNames, List.mem_cons, List.not_mem_nil, or_false] at h
  rcases h with rfl | rfl | rfl <;> exact routeFrom_entry rfl (fun _ => rfl) _ _

/-- The files that a save works on are at different routes. -/
theorem routeFrom_savedName_ne (here : Route) (p : Path) {name other : String}
    (h : name ∈ savedNames) (hother : other ∈ savedNames) (hne : name ≠ other) :
    (p.entry name).routeFrom here ≠ (p.entry other).routeFrom here := by
  rw [routeFrom_savedName here p h, routeFrom_savedName here p hother]
  intro heq
  exact hne (List.singleton_inj.mp (List.append_cancel_left heq))

/-- A save with a slug is not refused. -/
structure CanSave (st : Store) (slug : String) (here : Route) (t : FileTree) : Prop where
  /-- The path of the directory can be followed. -/
  notNull : Char.ofNat 0 ∉ (st.directory slug).chars
  /-- The directory is there. -/
  passes : t.Passes here (st.directory slug)
  /-- The files can be put there. -/
  admits : ∀ name ∈ savedNames, t.Admits here ((st.directory slug).entry name)

/-- The directory and the other two files stay as they are needed. -/
theorem CanSave.mono (h : st.CanSave slug here t)
    (hsame : ∀ name ∈ savedNames, SameAt (((st.directory slug).entry name).routeFrom here) t t') :
    st.CanSave slug here t' where
  notNull := h.notNull
  passes := h.passes.mono (hsame snapshotName (by decide)).1
  admits := fun name hname => (h.admits name hname).mono (hsame name hname).1 (by
    rw [(hsame name hname).2]
    exact (h.admits name hname).node?_ne)

theorem lockPath_eq (st : Store) (slug : String) :
    Path.mk ((st.snapshotPath slug).text ++ ".lock") =
      (st.directory slug).entry (snapshotName ++ ".lock") := by
  rw [snapshotPath, Path.entry_append rfl rfl]

theorem newPath_eq (st : Store) (slug : String) :
    Path.mk ((st.snapshotPath slug).text ++ ".tmp") =
      (st.directory slug).entry (snapshotName ++ ".tmp") := by
  rw [snapshotPath, Path.entry_append rfl rfl]

/-- A save that is not refused succeeds. -/
theorem CanSave.exists_save (h : st.CanSave s.slug w.here w.files) :
    ∃ w', st.save s w = (.ok (), w') := by
  have hne : ∀ {name other : String}, name ∈ savedNames → other ∈ savedNames → name ≠ other →
      ((st.directory s.slug).entry name).routeFrom w.here ≠
        ((st.directory s.slug).entry other).routeFrom w.here :=
    fun hname hother => routeFrom_savedName_ne _ _ hname hother
  -- The three routes differ, so each file can still be put when the ones before it were.
  obtain ⟨t₁, hlock⟩ := (h.admits (snapshotName ++ ".lock") (by decide)).exists_change
    fun _ => "".toUTF8
  have hnew := (h.admits (snapshotName ++ ".tmp") (by decide)).mono (Grows.of_change hlock) (by
    rw [node?_change_of_ne hlock (hne (by decide) (by decide) (by decide))]
    exact (h.admits _ (by decide)).node?_ne)
  obtain ⟨t₂, hwrite⟩ := hnew.exists_change fun _ => s.write.toUTF8
  obtain ⟨content, hlookup⟩ := hnew.exists_lookup hwrite
  have hsnapshot := (h.admits snapshotName (by decide)).mono
    ((Grows.of_change hlock).trans (Grows.of_change hwrite)) (by
    rw [node?_change_of_ne hwrite (hne (by decide) (by decide) (by decide)),
      node?_change_of_ne hlock (hne (by decide) (by decide) (by decide))]
    exact (h.admits _ (by decide)).node?_ne)
  obtain ⟨t₃, hmove⟩ := hsnapshot.exists_rename hlookup
  refine ⟨{ w with files := t₃ }, ?_⟩
  rw [save, makeDirectory, run_bind, run_orRefused_makeDirectories,
    makeDirectories_of_passes h.passes h.notNull]
  dsimp only
  rw [run_bind, writeText, run_orRefused_change, lockPath_eq, FileTree.write, hlock]
  dsimp only
  rw [run_bind, writeText, run_orRefused_change, newPath_eq, FileTree.write, hwrite]
  dsimp only
  rw [Act.rename, run_orRefused_change, snapshotPath, hmove]

/-- After a save that was not refused another one is not refused. -/
theorem CanSave.of_save (h : st.save s w = (.ok (), w')) :
    st.CanSave s.slug w'.here w'.files := by
  have hfound := lookup_save h
  obtain ⟨hnull, hpasses⟩ := Passes.of_lookup_entry (by decide) (by decide) hfound
  obtain ⟨_, w₁, -, h⟩ := run_bind_eq_ok.mp h
  obtain ⟨_, w₂, hlock, h⟩ := run_bind_eq_ok.mp h
  obtain ⟨_, w₃, hwrite, hmove⟩ := run_bind_eq_ok.mp h
  obtain ⟨t₂, hlocked, rfl⟩ := run_change_eq_ok (run_orRefused_eq_ok hlock)
  obtain ⟨t₃, hwritten, rfl⟩ := run_change_eq_ok (run_orRefused_eq_ok hwrite)
  obtain ⟨t₄, hmoved, rfl⟩ := run_change_eq_ok (run_orRefused_eq_ok hmove)
  rw [lockPath_eq] at hlocked
  rw [newPath_eq] at hwritten hmoved
  have hne : ∀ {name other : String}, name ∈ savedNames → other ∈ savedNames → name ≠ other →
      ((st.directory s.slug).entry name).routeFrom w₁.here ≠
        ((st.directory s.slug).entry other).routeFrom w₁.here :=
    fun hname hother => routeFrom_savedName_ne _ _ hname hother
  have hgrows₄ := Grows.of_rename hmoved
  have hgrows₃ := Grows.of_change hwritten
  have hfile : ∀ {r : Route} {content : ByteArray}, t₄.fileAt r = some content →
      t₄.node? r ≠ some .directory := by
    intro r content hcontent
    rw [node?_of_fileAt hcontent]
    simp
  -- The snapshot and the lock stand as files at the end. The staged file was moved away, and no
  -- directory has come in its place.
  refine ⟨hnull, hpasses, fun name hname => ?_⟩
  simp only [savedNames, List.mem_cons, List.not_mem_nil, or_false] at hname
  rcases hname with rfl | rfl | rfl
  · exact (Admits.of_rename hmoved).mono hgrows₄ (hfile (lookup_file hfound).2)
  · have hkept : t₄.fileAt
        (((st.directory s.slug).entry (snapshotName ++ ".lock")).routeFrom w₁.here) =
          t₂.fileAt (((st.directory s.slug).entry (snapshotName ++ ".lock")).routeFrom w₁.here) := by
      rw [(fileAt_rename hmoved).2 _ (hne (by decide) (by decide) (by decide))
        (hne (by decide) (by decide) (by decide)),
        fileAt_change_of_ne hwritten (hne (by decide) (by decide) (by decide))]
    exact (Admits.of_change hlocked).mono (((Grows.of_change hlocked).trans hgrows₃).trans hgrows₄)
      (hfile (hkept.trans (fileAt_change hlocked)))
  · exact (Admits.of_change hwritten).mono (hgrows₃.trans hgrows₄)
      (node?_rename_source hmoved (hne (by decide) (by decide) (by decide)))

end Store

end RepoAudit
