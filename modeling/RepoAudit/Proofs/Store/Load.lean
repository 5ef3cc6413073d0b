import RepoAudit.Proofs.Store.Route

/-!
# Loading from a store

Loading looks at one file and changes nothing. What it gives depends on what is found by the path
of the snapshot, and on nothing else.

## Main statements

- `Store.load_eq_ok` — what is loaded is new, or what the snapshot file spells
- `Store.load_congr` — where the same is found, the same is loaded
-/

namespace RepoAudit.Store

open FileTree Path Act World

variable {st : Store} {w w' : World} {path : Path} {repository : String} {s : Snapshot}

theorem run_load (st : Store) (repository : String) (w : World) :
    st.load repository w =
      if w.files.isPresent w.here (st.snapshotPath (slugOf repository)) then
        readSnapshot (st.snapshotPath (slugOf repository)) w
      else (.ok (Snapshot.new repository), w) := by
  rw [load, run_bind, Act.isPresent, run_look]
  dsimp only
  split <;> rfl

theorem readSnapshot_eq_ok (h : (readSnapshot path w).1 = .ok s) :
    ∃ content text, w.files.fileAt (path.routeFrom w.here) = some content ∧
      String.fromUTF8? content = some text ∧ Snapshot.read? text = some s := by
  rw [readSnapshot, run_bind, Act.readText, run_look] at h
  cases htext : w.files.readText w.here path with
  | error cause =>
    rw [htext] at h
    cases h
  | ok text =>
    obtain ⟨content, hcontent, hutf8⟩ := readText_eq_ok htext
    refine ⟨content, text, hcontent, hutf8, ?_⟩
    rw [htext] at h
    dsimp only at h
    cases hread : Snapshot.read? text with
    | none =>
      rw [hread] at h
      cases h
    | some t =>
      rw [hread] at h
      cases h
      rfl

/-- What is loaded is new, if there is no snapshot file, or what the file spells. -/
theorem load_eq_ok (h : (st.load repository w).1 = .ok s) :
    (¬w.files.isPresent w.here (st.snapshotPath (slugOf repository)) ∧
      s = Snapshot.new repository) ∨ ∃ content text,
      w.files.fileAt (snapshotRoute (st.routeIn w.here) repository) = some content ∧
        String.fromUTF8? content = some text ∧ Snapshot.read? text = some s := by
  rw [run_load] at h
  split at h
  · rw [← routeFrom_snapshotPath]
    exact .inr (readSnapshot_eq_ok h)
  · next habsent => exact .inl ⟨habsent, (Except.ok.inj h).symm⟩

/-- Reading a snapshot changes nothing. -/
theorem readSnapshot_world (path : Path) (w : World) : (readSnapshot path w).2 = w := by
  rw [readSnapshot, run_bind, Act.readText, run_look]
  cases w.files.readText w.here path with
  | error cause => rfl
  | ok text =>
    dsimp only
    cases Snapshot.read? text <;> rfl

/-- Loading changes nothing. -/
theorem load_world (st : Store) (repository : String) (w : World) :
    (st.load repository w).2 = w := by
  rw [run_load]
  split
  · exact readSnapshot_world _ _
  · rfl

theorem exists_lookup_of_isPresent {t : FileTree} {here : Route}
    (h : t.isPresent here path) : ∃ found, t.lookup here path = .ok found := by
  rw [FileTree.isPresent] at h
  cases hlookup : t.lookup here path with
  | error e => simp [hlookup, Except.isOk, Except.toBool] at h
  | ok found => exact ⟨found, rfl⟩

theorem isPresent_of_lookup {t : FileTree} {here : Route} {found : Route × Node}
    (h : t.lookup here path = .ok found) : t.isPresent here path := by
  rw [FileTree.isPresent, h]
  rfl

/-- Where the same is found, the same is read. -/
theorem readSnapshot_congr {found : Route × Node} (h : w.files.lookup w.here path = .ok found)
    (h' : w'.files.lookup w'.here path = .ok found) :
    (readSnapshot path w').1 = (readSnapshot path w).1 := by
  have htext : w'.files.readText w'.here path = w.files.readText w.here path := by
    rw [FileTree.readText, FileTree.readText, FileTree.readBytes, FileTree.readBytes, h, h']
  rw [readSnapshot, run_bind, run_bind, Act.readText, run_look, run_look, htext]
  cases w.files.readText w.here path with
  | error cause => rfl
  | ok text =>
    dsimp only
    cases Snapshot.read? text <;> rfl

/-- Where the same is found by the path of a snapshot, the same is loaded. -/
theorem load_congr (h : ∀ found,
      w'.files.lookup w'.here (st.snapshotPath (slugOf repository)) = .ok found ↔
        w.files.lookup w.here (st.snapshotPath (slugOf repository)) = .ok found) :
    (st.load repository w').1 = (st.load repository w).1 := by
  rw [run_load, run_load]
  by_cases hpresent : w.files.isPresent w.here (st.snapshotPath (slugOf repository))
  · obtain ⟨found, hfound⟩ := exists_lookup_of_isPresent hpresent
    have hfound' := (h found).mpr hfound
    rw [if_pos hpresent, if_pos (isPresent_of_lookup hfound')]
    exact readSnapshot_congr hfound hfound'
  · have habsent : ¬w'.files.isPresent w'.here (st.snapshotPath (slugOf repository)) := by
      intro hpresent'
      obtain ⟨found, hfound⟩ := exists_lookup_of_isPresent hpresent'
      exact hpresent (isPresent_of_lookup ((h found).mp hfound))
    rw [if_neg hpresent, if_neg habsent]

end RepoAudit.Store
