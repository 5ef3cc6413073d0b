import RepoAudit.Proofs.FileTree.Frame

/-!
# Directories stay

No file operation takes a directory away: files are written where no directory stands, moving takes
a file, and making directories only adds some. So a path that could be followed can be followed
afterwards, and what it leads to is the same when the node at its route is.

## Main definitions

- `FileTree.Grows` — every directory of one tree is a directory of another
- `FileTree.SameAt` — the directories have stayed, and so has the node at a route

## Main statements

- `FileTree.Grows.of_change`, `FileTree.Grows.of_rename`, `FileTree.Grows.of_makeDirectories`,
  `FileTree.Grows.of_placeFiles` — the operations
- `FileTree.node?_makeDirectories` — directories are made at the routes of the path's ancestors
- `FileTree.Grows.lookup_eq_ok` — what could be looked up is found again
- `FileTree.Grows.readText_eq_ok` — what a file that could be read now holds is read
-/

namespace RepoAudit.FileTree

open RepoAudit.Path

/-- Every directory of one tree is a directory of another. -/
def Grows (t t' : FileTree) : Prop :=
  ∀ r, t.node? r = some .directory → t'.node? r = some .directory

namespace Grows

variable {t t' t'' : FileTree} {here r : Route} {p : Path}

theorem refl (t : FileTree) : Grows t t := fun _ h => h

theorem trans (h : Grows t t') (h' : Grows t' t'') : Grows t t'' :=
  fun r hr => h' r (h r hr)

theorem set (n : Node) (hr : t.node? r ≠ some .directory) : Grows t (t.set r n) := by
  intro r' hr'
  have hne : r' ≠ r := by
    rintro rfl
    exact hr hr'
  rw [node?_set_of_ne t n hne]
  exact hr'

theorem of_change {f : Option ByteArray → ByteArray} (h : t.change here p f = .ok t') :
    Grows t t' := by
  rw [change] at h
  split at h
  · cases h
  · cases h
  · split at h
    · cases h
    · split at h
      · cases h
      · next hnode =>
        cases h
        exact set _ (by rw [hnode]; simp)
      · next hnode =>
        cases h
        exact set _ (by rw [hnode]; simp)

theorem of_makeDirectory (h : t.makeDirectory here p = .ok t') : Grows t t' := by
  rw [makeDirectory] at h
  split at h
  · cases h
  · cases h
  · split at h
    · cases h
    · next hnode =>
      cases h
      exact set _ (by rw [hnode]; simp)

theorem of_makeChain (t : FileTree) (here : Route) (paths : List Path) :
    Grows t (t.makeChain here paths).1 := by
  induction paths with
  | nil => exact refl t
  | cons p parents ih =>
    rw [makeChain]
    split
    · exact refl t
    split
    · next t' hmake => exact of_makeDirectory hmake
    · split
      · next t' e hchain =>
        rw [hchain] at ih
        exact ih
      · next t' hchain =>
        rw [hchain] at ih
        split
        · next t'' hmake => exact ih.trans (of_makeDirectory hmake)
        · exact ih
    · exact refl t

theorem of_makeDirectories (t : FileTree) (here : Route) (p : Path) :
    Grows t (t.makeDirectories here p).1 :=
  of_makeChain t here p.ancestors

theorem of_placeFiles (directory : Path) (made : List (String × Option ByteArray)) (t : FileTree)
    (here : Route) : Grows t (Act.placeFiles directory made t here) := by
  induction made generalizing t with
  | nil => exact refl t
  | cons file made ih =>
    obtain ⟨name, content⟩ := file
    cases content with
    | none =>
      simp only [Act.placeFiles]
      exact (of_makeDirectories _ _ _).trans (ih _)
    | some bytes =>
      simp only [Act.placeFiles]
      refine trans ?_ (ih _)
      cases (directory.join ⟨name⟩).parent? with
      | none =>
        split
        · next written hwrite => exact of_change hwrite
        · exact refl t
      | some parent =>
        have hparents := of_makeDirectories t here parent
        split
        · next written hwrite => exact hparents.trans (of_change hwrite)
        · exact hparents

theorem descend_eq_ok {segments : List (List Char)} (h : Grows t t')
    (hdescend : t.descend here segments = .ok r) : t'.descend here segments = .ok r := by
  induction segments generalizing here with
  | nil => exact hdescend
  | cons s segments ih =>
    obtain ⟨hpassable, hrest⟩ := descend_cons_eq_ok_iff.mp hdescend
    exact descend_cons_eq_ok_iff.mpr
      ⟨hpassable.imp_right (Or.imp_right (And.imp_right (h _))), ih hrest⟩

theorem place_eq_ok {place : Place} (h : Grows t t') (hplace : t.place here p = .ok place) :
    t'.place here p = .ok place := by
  obtain ⟨hempty, hnull, harrives⟩ := place_eq_ok_iff.mp hplace
  refine place_eq_ok_iff.mpr ⟨hempty, hnull, ?_⟩
  cases harrives with
  | origin hnone => exact .origin hnone
  | dots hlast hdots hdescend => exact .dots hlast hdots (h.descend_eq_ok hdescend)
  | entry hlast hdots hlength hdescend =>
    exact .entry hlast hdots hlength (h.descend_eq_ok hdescend)

/-- A file that could be looked up is found again as the file that now stands at its route. -/
theorem lookup_file_eq_ok {content content' : ByteArray} (h : Grows t t')
    (hlookup : t.lookup here p = .ok (r, .file content))
    (hnode : t'.node? r = some (.file content')) :
    t'.lookup here p = .ok (r, .file content') := by
  rw [lookup] at hlookup ⊢
  cases hplace : t.place here p with
  | error e =>
    rw [hplace] at hlookup
    cases hlookup
  | ok place =>
    rw [hplace] at hlookup
    rw [h.place_eq_ok hplace]
    cases place with
    | directory r' => cases hlookup
    | entry parent name slash =>
      dsimp only at hlookup ⊢
      split at hlookup
      · cases hlookup
      · cases hlookup
      · split at hlookup
        · cases hlookup
        · next hslash =>
          cases hlookup
          rw [hnode]
          dsimp only
          rw [if_neg hslash]

/-- What could be looked up at a place whose node has stayed is found again. -/
theorem lookup_eq_ok {n : Node} (h : Grows t t')
    (hnode : t'.node? (p.routeFrom here) = t.node? (p.routeFrom here))
    (hlookup : t.lookup here p = .ok (r, n)) : t'.lookup here p = .ok (r, n) := by
  rw [lookup] at hlookup ⊢
  cases hplace : t.place here p with
  | error e =>
    rw [hplace] at hlookup
    cases hlookup
  | ok place =>
    rw [hplace] at hlookup
    rw [h.place_eq_ok hplace]
    cases place with
    | directory r' => exact hlookup
    | entry parent name slash =>
      rw [(place_entry hplace).1] at hnode
      dsimp only at hlookup ⊢
      rw [hnode]
      exact hlookup

/-- Where a text could be read, the text that the file now holds is read. -/
theorem readText_eq_ok {old new : String} (h : Grows t t') (hread : t.readText here p = .ok old)
    (hfile : t'.fileAt (p.routeFrom here) = some new.toUTF8) : t'.readText here p = .ok new := by
  obtain ⟨found, hfound⟩ : ∃ found, t.lookup here p = .ok (p.routeFrom here, .file found) := by
    rw [readText] at hread
    split at hread
    · cases hread
    · next bytes hbytes => exact ⟨bytes, lookup_of_readBytes hbytes⟩
  have hlookup := h.lookup_file_eq_ok hfound (node?_of_fileAt hfile)
  rw [readText, readBytes_of_lookup hlookup]
  dsimp only
  rw [fromUTF8?_toUTF8]

end Grows

theorem node?_change_of_ne {t t' : FileTree} {here r : Route} {p : Path}
    {f : Option ByteArray → ByteArray} (h : t.change here p f = .ok t')
    (hr : r ≠ p.routeFrom here) : t'.node? r = t.node? r := by
  obtain ⟨parent, name, hroute, -, rfl⟩ := change_eq_ok h
  rw [hroute] at hr
  exact node?_set_of_ne _ _ hr

theorem node?_makeDirectory_of_ne {t t' : FileTree} {here r : Route} {p : Path}
    (h : t.makeDirectory here p = .ok t') (hr : r ≠ p.routeFrom here) :
    t'.node? r = t.node? r := by
  rw [makeDirectory] at h
  split at h
  · cases h
  · cases h
  · next hplace =>
    split at h
    · cases h
    · cases h
      rw [(place_entry hplace).1] at hr
      exact node?_set_of_ne _ _ hr

theorem node?_makeDirectory_of_eq_some {t t' : FileTree} {here r : Route} {p : Path} {n : Node}
    (h : t.makeDirectory here p = .ok t') (hr : t.node? r = some n) : t'.node? r = some n := by
  rw [makeDirectory] at h
  split at h
  · cases h
  · cases h
  · split at h
    · cases h
    · next hnode =>
      cases h
      rw [node?_set_of_ne _ _ (by rintro rfl; rw [hnode] at hr; cases hr)]
      exact hr

theorem node?_makeChain_of_eq_some (t : FileTree) (here : Route) (paths : List Path) {r : Route}
    {n : Node} (hr : t.node? r = some n) : (t.makeChain here paths).1.node? r = some n := by
  induction paths with
  | nil => exact hr
  | cons p parents ih =>
    rw [makeChain]
    split
    · exact hr
    split
    · next t' hmake => exact node?_makeDirectory_of_eq_some hmake hr
    · split
      · next t' e hchain =>
        rw [hchain] at ih
        exact ih
      · next t' hchain =>
        rw [hchain] at ih
        split
        · next t'' hmake => exact node?_makeDirectory_of_eq_some hmake ih
        · exact ih
    · exact hr

/-- Directories are made only where nothing stands. -/
theorem node?_makeDirectories_of_eq_some (t : FileTree) (here : Route) (p : Path) {r : Route}
    {n : Node} (hr : t.node? r = some n) : (t.makeDirectories here p).1.node? r = some n :=
  node?_makeChain_of_eq_some t here p.ancestors hr

theorem node?_makeChain (t : FileTree) (here : Route) {paths : List Path} {r : Route}
    (hr : ∀ p ∈ paths, r ≠ p.routeFrom here) : (t.makeChain here paths).1.node? r = t.node? r := by
  induction paths with
  | nil => rfl
  | cons p parents ih =>
    have hp := hr p List.mem_cons_self
    replace ih := ih fun q hq => hr q (List.mem_cons_of_mem p hq)
    rw [makeChain]
    split
    · rfl
    split
    · next t' hmake => exact node?_makeDirectory_of_ne hmake hp
    · split
      · next t' e hchain =>
        rw [hchain] at ih
        exact ih
      · next t' hchain =>
        rw [hchain] at ih
        split
        · next t'' hmake => exact (node?_makeDirectory_of_ne hmake hp).trans ih
        · exact ih
    · rfl

/-- Directories are made only where the path and its parents lead. -/
theorem node?_makeDirectories (t : FileTree) {here : Route} {p : Path} {r : Route}
    (hr : ∀ q ∈ p.ancestors, r ≠ q.routeFrom here) :
    (t.makeDirectories here p).1.node? r = t.node? r :=
  node?_makeChain t here hr

/-- A move takes a file and puts one down, and leaves everything elsewhere. -/
theorem rename_eq_ok {t t' : FileTree} {here : Route} {source target : Path}
    (h : t.rename here source target = .ok t') :
    Grows t t' ∧ ∀ r, r ≠ source.routeFrom here → r ≠ target.routeFrom here →
      t'.node? r = t.node? r := by
  rw [rename] at h
  split at h
  · cases h
  · cases h
  · next source content hlookup =>
    obtain ⟨rfl, hfile⟩ := lookup_file hlookup
    split at h
    · cases h
    · cases h
    · next parent name slash hplace =>
      have hroute := (place_entry hplace).1
      split at h
      · cases h
      · split at h
        · cases h
        · next hnode =>
          cases h
          refine ⟨fun r hr => ?_, fun r hs ht => ?_⟩
          · rw [node?_set_of_ne, node?_unset_of_ne]
            · exact hr
            · rintro rfl
              rw [fileAt, hr] at hfile
              cases hfile
            · rintro rfl
              exact hnode hr
          · rw [hroute] at ht
            rw [node?_set_of_ne _ _ ht, node?_unset_of_ne t hs]

theorem Grows.of_rename {t t' : FileTree} {here : Route} {source target : Path}
    (h : t.rename here source target = .ok t') : Grows t t' :=
  (rename_eq_ok h).1

/-- The directories of a tree have stayed, and so has the node at a route. -/
def SameAt (r : Route) (t t' : FileTree) : Prop :=
  Grows t t' ∧ t'.node? r = t.node? r

theorem SameAt.refl (r : Route) (t : FileTree) : SameAt r t t := ⟨.refl t, rfl⟩

theorem SameAt.trans {r : Route} {t t' t'' : FileTree} (h : SameAt r t t')
    (h' : SameAt r t' t'') : SameAt r t t'' :=
  ⟨h.1.trans h'.1, h'.2.trans h.2⟩

end RepoAudit.FileTree
