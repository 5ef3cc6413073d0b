import RepoAudit.Proofs.Store.Presence

/-!
# The repositories of a store

A store lists the repositories of the snapshots in its directories. A snapshot in a directory of its
own is listed whenever its path finds it and it can be read.

## Main statements

- `FileTree.lookup_of_descend` — a path whose every step is a directory names the last one
- `FileTree.mem_children` — what stands in a directory is among its names
- `Store.mem_repositories` — a snapshot in a directory of its own is listed
-/

namespace RepoAudit

namespace FileTree

open Path

/-- The last step into a directory. -/
theorem descend_singleton_eq_ok {t : FileTree} {here r : Route} {segment : List Char}
    (h : t.descend here [segment] = .ok r) (hparent : segment ≠ ['.', '.'])
    (hsilent : isSilent segment = false) :
    r = here ++ [String.ofList segment] ∧ ¬maxNameLength < Text.byteLength segment ∧
      t.node? r = some .directory := by
  obtain ⟨hpassable, hend⟩ := descend_cons_eq_ok_iff.mp h
  have hstep : stepRoute here segment = here ++ [String.ofList segment] := by
    rw [stepRoute, if_neg (by simpa using hparent), if_neg (by simp [hsilent])]
  obtain rfl : stepRoute here segment = r := Except.ok.inj hend
  rcases hpassable with hup | hquiet | ⟨hlength, hnode⟩
  · exact absurd hup hparent
  · rw [hsilent] at hquiet
    cases hquiet
  · exact ⟨hstep, hlength, hnode⟩

/-- The place of a path whose every step is a directory. -/
theorem place_of_descend {t : FileTree} {here r : Route} {p : Path} (hp : p.chars ≠ [])
    (hnull : Char.ofNat 0 ∉ p.chars) (h : t.descend (p.originOf here) p.names = .ok r) :
    t.place here p = .ok (.directory r) ∨ ∃ parent name slash,
      t.place here p = .ok (.entry parent name slash) ∧ r = parent ++ [name] ∧
        t.node? r = some .directory := by
  rw [originOf, names] at h
  cases hlast : (p.segments.filter fun s => !s.isEmpty).getLast? with
  | none =>
    rw [List.getLast?_eq_none_iff.mp hlast] at h
    cases h
    exact .inl (place_eq_ok_iff.mpr ⟨hp, hnull, .origin hlast⟩)
  | some last =>
    by_cases hdots : last = ['.'] ∨ last = ['.', '.']
    · exact .inl (place_eq_ok_iff.mpr ⟨hp, hnull, .dots hlast hdots h⟩)
    · have hne : last ≠ [] := by
        simpa using (List.mem_filter.mp (List.mem_of_getLast? hlast)).2
      obtain ⟨lead, hlead⟩ := List.getLast?_eq_some_iff.mp hlast
      rw [hlead, descend_append] at h
      cases hdescend : t.descend (if p.isAbsolute then [] else here) lead with
      | error e =>
        rw [hdescend] at h
        cases h
      | ok parent =>
        rw [hdescend] at h
        obtain ⟨hdot, hparent⟩ := not_or.mp hdots
        obtain ⟨hr, hlength, hnode⟩ := descend_singleton_eq_ok h hparent
          (by simp [isSilent, hne, hdot])
        refine .inr ⟨parent, _, _,
          place_eq_ok_iff.mpr ⟨hp, hnull, .entry hlast hdots hlength ?_⟩, hr, hnode⟩
        rw [hlead, List.dropLast_concat]
        exact hdescend

/-- A path whose every step is a directory names the last one. -/
theorem lookup_of_descend {t : FileTree} {here r : Route} {p : Path} (hp : p.chars ≠ [])
    (hnull : Char.ofNat 0 ∉ p.chars) (h : t.descend (p.originOf here) p.names = .ok r) :
    t.lookup here p = .ok (r, .directory) := by
  rcases place_of_descend hp hnull h with hplace | ⟨parent, name, slash, hplace, rfl, hnode⟩
  · rw [lookup, hplace]
  · rw [lookup, hplace]
    dsimp only
    rw [hnode]

/-- What stands in a directory is among its names. -/
theorem mem_children {t : FileTree} {r : Route} {name : String} {n : Node}
    (h : t.node? (r ++ [name]) = some n) : name ∈ t.children r := by
  cases hroute : r ++ [name] with
  | nil => simp at hroute
  | cons first rest =>
    rw [hroute, node?_cons, Option.map_eq_some_iff] at h
    obtain ⟨e, hfind, -⟩ := h
    have he := List.find?_some hfind
    rw [beq_iff_eq, ← hroute] at he
    refine List.mem_filterMap.mpr ⟨e, List.mem_of_find?_eq_some hfind, ?_⟩
    rw [he, if_pos (by simp), List.getLast?_concat]

end FileTree

namespace Store

open FileTree Path Act

variable {st : Store} {w : World}

/-- The path of a snapshot in a directory of its own leads through the directory of the store. -/
theorem lookup_root {t : FileTree} {here : Route} {slug : String} (hroot : st.root.chars ≠ [])
    (hslash : '/' ∉ slug.toList) (hslug : IsPlainSlug slug)
    (h : t.isPresent here (st.snapshotPath slug)) :
    ∃ r, t.lookup here st.root = .ok (r, .directory) ∧
      t.node? (r ++ [slug]) = some .directory := by
  obtain ⟨hnull, r, hr⟩ := exists_descend_of_isPresent hslash h
  refine ⟨r, lookup_of_descend hroot hnull hr, ?_⟩
  obtain ⟨found, hfound⟩ := exists_lookup_of_isPresent h
  cases hplace : t.place here (st.snapshotPath slug) with
  | error e => simp [lookup, hplace] at hfound
  | ok place =>
    obtain ⟨hempty, hdot, hparent⟩ := hslug
    have hne : ∀ name : String, slug ≠ name → slug.toList ≠ name.toList :=
      fun name hname heq => hname (String.toList_inj.mp heq)
    rw [place_snapshotPath t here st hslash] at hplace
    split at hplace
    · cases hplace
    have hfilter : [slug.toList].filter (fun s => !s.isEmpty) = [slug.toList] := by
      simpa using hempty
    rw [descend_append, hr, hfilter] at hplace
    cases hdirectory : t.descend r [slug.toList] with
    | error e =>
      rw [Except.bind, hdirectory] at hplace
      cases hplace
    | ok directory =>
      obtain ⟨rfl, -, hnode⟩ := descend_singleton_eq_ok hdirectory (hne _ hparent)
        (by simpa [isSilent] using ⟨hempty, hne _ hdot⟩)
      rwa [String.ofList_toList] at hnode

/-- What a store lists. -/
theorem run_repositories {r : Route} (h : w.files.lookup w.here st.root = .ok (r, .directory)) :
    st.repositories w = (.ok (((w.files.children r).filterMap fun name =>
      repositoryIn? w.files w.here (st.root.entry name)).mergeSort (· ≤ ·)), w) := by
  rw [repositories, run_bind, run_look, h]
  rfl

theorem repositoryIn?_eq_some {files : FileTree} {here : Route} {directory : Path} {text : String}
    {s : Snapshot} (htext : files.readText here (directory.entry snapshotName) = .ok text)
    (hread : Snapshot.read? text = some s) :
    repositoryIn? files here directory = some s.repository := by
  unfold repositoryIn?
  split
  · next e he =>
    rw [htext] at he
    cases he
  · next text' he =>
    rw [htext] at he
    cases he
    rw [hread]
    rfl

/-- A snapshot in a directory of its own is listed when it is found and can be read. -/
theorem mem_repositories {slug : String} {text : String} {s : Snapshot}
    (hroot : st.root.chars ≠ []) (hslash : '/' ∉ slug.toList) (hslug : IsPlainSlug slug)
    (htext : w.files.readText w.here (st.snapshotPath slug) = .ok text)
    (hread : Snapshot.read? text = some s) :
    ∃ listed, st.repositories w = (.ok listed, w) ∧ s.repository ∈ listed := by
  have hpresent : w.files.isPresent w.here (st.snapshotPath slug) := by
    rw [FileTree.readText, readBytes] at htext
    cases hlookup : w.files.lookup w.here (st.snapshotPath slug) with
    | error e => simp [hlookup] at htext
    | ok found => exact isPresent_of_lookup hlookup
  obtain ⟨r, hlookup, hnode⟩ := lookup_root hroot hslash hslug hpresent
  have hrepository : repositoryIn? w.files w.here (st.root.entry slug) = some s.repository :=
    repositoryIn?_eq_some htext hread
  exact ⟨_, run_repositories hlookup, List.mem_mergeSort.mpr
    (List.mem_filterMap.mpr ⟨slug, mem_children hnode, hrepository⟩)⟩

end Store

end RepoAudit
