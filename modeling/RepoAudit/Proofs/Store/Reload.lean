import RepoAudit.Proofs.FileTree.Directory
import RepoAudit.Proofs.Instant.RoundTrip
import RepoAudit.Proofs.Snapshot.RoundTrip
import RepoAudit.Proofs.Store.Load

/-!
# Saved snapshots are loaded back

A snapshot is read from its stored text as it was, when its weaknesses are such as tags name, its
lines are counters and its instants are days of the calendar. A save that was not refused leaves
that text where loading looks for it.

## Main definitions

- `Issue.IsStorable`, `Snapshot.IsStorable` — what a record keeps in full

## Main statements

- `Snapshot.read?_write_of_isStorable` — the stored text is read back
- `Store.load_save` — what was saved is loaded
-/

namespace RepoAudit

open FileTree Act

/-- An issue that its record keeps in full. -/
structure Issue.IsStorable (i : Issue) : Prop where
  /-- Its weakness is one that some tag names. -/
  weakness : ∀ w, i.weakness = some w → ∃ tag, Weakness.ofTag tag = w
  /-- Its line is a counter. -/
  line : ∀ n, i.line = some n → n ≤ Text.maxCounter
  /-- It was made on a day of the calendar. -/
  createdAt : i.createdAt.isValid
  /-- It was last changed on a day of the calendar. -/
  updatedAt : i.updatedAt.isValid

/-- A snapshot that its record keeps in full. -/
structure Snapshot.IsStorable (s : Snapshot) : Prop where
  /-- The record of every issue keeps it in full. -/
  issues : ∀ i ∈ s.issues, i.IsStorable
  /-- It was last refreshed on a day of the calendar. -/
  lastRunAt : ∀ t, s.lastRunAt = some t → t.isValid

namespace Issue.IsStorable

variable {i : Issue}

theorem isNormal (h : i.IsStorable) {w : Weakness} (hw : i.weakness = some w) : w.IsNormal := by
  obtain ⟨tag, rfl⟩ := h.weakness w hw
  exact Weakness.isNormal_ofTag tag

theorem map_weakness (h : i.IsStorable) :
    (i.weakness.map fun w => Weakness.ofTag w.tag) = i.weakness := by
  cases hw : i.weakness with
  | none => rfl
  | some w => exact congrArg some (h.isNormal hw)

theorem optional_line (h : i.IsStorable) :
    Json.optional Json.counter? (i.line.map Json.nat) = some i.line := by
  have hread : ∀ n, i.line = some n → Json.counter? (Json.nat n) = some n := fun n hn => by
    rw [Json.counter?_nat, if_pos (h.line n hn)]
  have hline := Json.optional_map_of_eq (w := Json.nat) (f := fun n => n) (by simp [Json.nat]) hread
  rwa [Option.map_id_fun'] at hline

theorem ofJson?_toJson_eq (h : i.IsStorable) : Issue.ofJson? i.toJson = some i := by
  rw [Issue.ofJson?_toJson, h.optional_line, h.map_weakness,
    Instant.read?_write h.createdAt, Instant.read?_write h.updatedAt]
  rfl

end Issue.IsStorable

theorem Issue.isStorable_iff (i : Issue) : i.IsStorable ↔
    (∀ w ∈ i.weakness, Weakness.ofTag w.tag = w) ∧ (∀ n ∈ i.line, n ≤ Text.maxCounter) ∧
      i.createdAt.isValid ∧ i.updatedAt.isValid :=
  ⟨fun h => ⟨fun _ hw => h.isNormal hw, h.line, h.createdAt, h.updatedAt⟩,
    fun h => ⟨fun w hw => ⟨w.tag, h.1 w hw⟩, h.2.1, h.2.2.1, h.2.2.2⟩⟩

instance : DecidablePred Issue.IsStorable := fun i => decidable_of_iff' _ i.isStorable_iff

instance : DecidablePred Snapshot.IsStorable := fun s =>
  decidable_of_iff ((∀ i ∈ s.issues, i.IsStorable) ∧ ∀ t ∈ s.lastRunAt, t.isValid)
    ⟨fun h => ⟨h.1, h.2⟩, fun h => ⟨h.issues, h.lastRunAt⟩⟩

namespace Snapshot

theorem optional_lastRunAt {s : Snapshot} (h : s.IsStorable) :
    Json.optional instantOfJson? (s.lastRunAt.map fun t => Json.text t.write) =
      some s.lastRunAt := by
  have hread : ∀ t, s.lastRunAt = some t → instantOfJson? (Json.text t.write) = some t := by
    intro t ht
    rw [instantOfJson?, Json.text, Json.string?, Option.bind_some]
    exact Instant.read?_write (h.lastRunAt t ht)
  have hlast := Json.optional_map_of_eq (w := fun t : Instant => Json.text t.write)
    (f := fun t => t) (by simp [Json.text]) hread
  rwa [Option.map_id_fun'] at hlast

/-- The stored text of a snapshot is read back. -/
theorem read?_write_of_isStorable {s : Snapshot} (h : s.IsStorable) :
    Snapshot.read? s.write = some s := by
  have hissues : (s.issues.mapM fun i => Issue.ofJson? i.toJson) = some s.issues :=
    Json.mapM_eq_some_self fun i hi => (h.issues i hi).ofJson?_toJson_eq
  rw [read?_write, ofJson?_toJson, hissues, optional_lastRunAt h]
  rfl

end Snapshot

/-- A file that was moved is found by the path that it was moved to. -/
theorem FileTree.lookup_rename {t t' : FileTree} {here : Route} {source target : Path}
    {content : ByteArray} (h : t.rename here source target = .ok t')
    (hsource : t.fileAt (source.routeFrom here) = some content) :
    t'.lookup here target = .ok (target.routeFrom here, .file content) := by
  have hgrows := Grows.of_rename h
  rw [rename] at h
  split at h
  · cases h
  · cases h
  · next r moved hlookup =>
    obtain ⟨rfl, hmoved⟩ := lookup_file hlookup
    obtain rfl : moved = content := Option.some.inj (hmoved.symm.trans hsource)
    split at h
    · cases h
    · cases h
    · next parent name slash hplace =>
      split at h
      · cases h
      · next hslash =>
        split at h
        · cases h
        · cases h
          rw [lookup, hgrows.place_eq_ok hplace, (place_entry hplace).1]
          dsimp only
          rw [node?_set_self _ _ (by simp)]
          dsimp only
          rw [if_neg hslash]

namespace Store

theorem run_orRefused_eq_ok {task : Task} {path : Path} {act : Act (Except FileError Unit)}
    {w w' : World} (h : Act.orRefused task path act w = (.ok (), w')) :
    act w = (.ok (.ok ()), w') := by
  obtain ⟨result, w₁, hact, hcase⟩ := run_bind_eq_ok.mp h
  cases result with
  | ok _ =>
    cases hcase
    exact hact
  | error cause => cases hcase

theorem run_change_eq_ok {f : FileTree → Route → Except FileError FileTree} {w w' : World}
    (h : Act.change f w = (.ok (.ok ()), w')) :
    ∃ files, f w.files w.here = .ok files ∧ w' = { w with files := files } := by
  rw [run_change] at h
  split at h
  · next files hfiles =>
    cases h
    exact ⟨files, hfiles, rfl⟩
  · cases h

/-- A save that is not refused leaves the stored text where the path of the snapshot leads. -/
theorem lookup_save {st : Store} {s : Snapshot} {w w' : World}
    (h : st.save s w = (.ok (), w')) :
    w'.files.lookup w'.here (st.snapshotPath s.slug) =
      .ok ((st.snapshotPath s.slug).routeFrom w'.here, .file s.write.toUTF8) := by
  obtain ⟨_, w₁, -, h⟩ := run_bind_eq_ok.mp h
  obtain ⟨_, w₂, -, h⟩ := run_bind_eq_ok.mp h
  obtain ⟨_, w₃, hwrite, hmove⟩ := run_bind_eq_ok.mp h
  obtain ⟨files, hfiles, rfl⟩ := run_change_eq_ok (run_orRefused_eq_ok hwrite)
  obtain ⟨moved, hmoved, rfl⟩ := run_change_eq_ok (run_orRefused_eq_ok hmove)
  have hwritten := fileAt_change hfiles
  exact lookup_rename hmoved hwritten

/-- What is found at the path of a snapshot is loaded. -/
theorem load_of_lookup {st : Store} {s : Snapshot} {w : World} {repository : String} {r : Route}
    (hs : s.IsStorable) (h : w.files.lookup w.here (st.snapshotPath (slugOf repository)) =
      .ok (r, .file s.write.toUTF8)) : st.load repository w = (.ok s, w) := by
  have htext : w.files.readText w.here (st.snapshotPath (slugOf repository)) = .ok s.write := by
    rw [FileTree.readText, readBytes_of_lookup h]
    dsimp only
    rw [fromUTF8?_toUTF8]
  rw [run_load, if_pos (isPresent_of_lookup h), readSnapshot, run_bind, Act.readText, run_look,
    htext]
  dsimp only
  rw [Snapshot.read?_write_of_isStorable hs]
  rfl

theorem load_of_readBytes {st : Store} {s : Snapshot} {w : World} {repository : String}
    (hs : s.IsStorable)
    (h : (w.files.readBytes w.here (st.snapshotPath (slugOf repository))).toOption =
      some s.write.toUTF8) : st.load repository w = (.ok s, w) := by
  cases hread : w.files.readBytes w.here (st.snapshotPath (slugOf repository)) with
  | error e =>
    rw [hread] at h
    cases h
  | ok content =>
    rw [hread] at h
    have hcontent : content = s.write.toUTF8 := Option.some.inj h
    exact load_of_lookup hs (hcontent ▸ lookup_of_readBytes hread)

theorem load_save {st : Store} {s : Snapshot} {w w' : World} {repository : String}
    (hs : s.IsStorable) (hslug : s.slug = slugOf repository)
    (h : st.save s w = (.ok (), w')) : st.load repository w' = (.ok s, w') := by
  have hlookup := lookup_save h
  rw [hslug] at hlookup
  exact load_of_lookup hs hlookup

end Store

/-- A snapshot is restored from its stored text, and by loading it after a save. -/
theorem Snapshot.restored {s : Snapshot} (hs : s.IsStorable) :
    Snapshot.read? s.write = some s ∧
      ∀ (st : Store) (w w' : World) (repository : String), s.slug = slugOf repository →
        st.save s w = (.ok (), w') → st.load repository w' = (.ok s, w') :=
  ⟨read?_write_of_isStorable hs, fun _ _ _ _ hslug hsave => Store.load_save hs hslug hsave⟩

/-- A snapshot with an issue that has every field, and one that has only what it needs. -/
def quotedSnapshot : Snapshot where
  repository := "/r \"é\""
  slug := slugOf "/r \"é\""
  workingCopy := none
  domain := none
  ecosystems := some []
  issues :=
    [⟨"001", "/r \"é\"", "a\tb\n\\", some ⟨"/r \"é\"/x.py"⟩, some 7, some (.ofTag " cwe-079 "),
        .high, some "", .verifying, some .payments, some [.python], ⟨0, 2, 29, 23, 59, 60, 1⟩,
        ⟨9999, 12, 31, 0, 0, 0, 500000000⟩, some "", some ⟨"/s/d"⟩, some "\u0001"⟩,
      ⟨"002", "", "", none, none, none, .low, none, .submitted, none, none,
        ⟨2024, 1, 1, 0, 0, 0, 0⟩, ⟨2024, 1, 1, 0, 0, 0, 1000⟩, none, none, none⟩]
  log := ["", "\u2028"]
  lastRunAt := some ⟨2024, 1, 1, 0, 0, 0, 0⟩
  lastProfile := none

/-- A world without files. -/
def bareWorld : World where
  files := .empty
  here := []
  home := ⟨"/"⟩
  programs := fun _ => .missing
  calls := []
  clock := fun _ => ⟨2024, 1, 1, 0, 0, 0, 0⟩
  ticks := 0

theorem isStorable_quotedSnapshot : quotedSnapshot.IsStorable where
  issues := by
    intro i hi
    rcases List.mem_pair.mp hi with rfl | rfl
    · exact ⟨fun w hw => ⟨_, Option.some.inj hw⟩, by simp [Text.maxCounter], by decide, by decide⟩
    · exact ⟨by simp, by simp, by decide, by decide⟩
  lastRunAt := by
    intro t ht
    obtain rfl := Option.some.inj ht
    decide

theorem run_eq_of_fst {α : Type} {act : Act α} {w : World} {result : Except Failure α}
    (h : (act w).1 = result) : act w = (result, (act w).2) := by
  rw [← h]
  rfl

theorem Snapshot.restored_quotedSnapshot :
    Snapshot.read? quotedSnapshot.write = some quotedSnapshot ∧
      (Store.mk ⟨"/s"⟩).load "/r \"é\"" ((Store.mk ⟨"/s"⟩).save quotedSnapshot bareWorld).2 =
        (.ok quotedSnapshot, ((Store.mk ⟨"/s"⟩).save quotedSnapshot bareWorld).2) := by
  obtain ⟨hread, hload⟩ := Snapshot.restored isStorable_quotedSnapshot
  have hsaved : ((Store.mk ⟨"/s"⟩).save quotedSnapshot bareWorld).1 = .ok () := by decide +kernel
  exact ⟨hread, hload _ bareWorld _ _ rfl (run_eq_of_fst hsaved)⟩

end RepoAudit
