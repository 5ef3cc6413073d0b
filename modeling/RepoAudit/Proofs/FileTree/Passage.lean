import RepoAudit.Proofs.Store.Listing

/-!
# Ways that can be passed

A path is passed when each of its segments leads into a directory. Whatever stands by a path behind
some name shows that the path before that name is passed, and so is every path on the way to it. On
a way that is passed there is no directory to make.

## Main definitions

- `Path.OnWay` — a path spells a first part of the way to another one
- `FileTree.Passes` — every segment of a path leads into a directory

## Main statements

- `FileTree.Passes.of_lookup_entry` — what stands behind a path shows that it is passed
- `FileTree.makeDirectories_of_passes` — nothing is made where a path is passed
- `FileTree.node?_makeDirectories_of_passes` — directories are made at the ends of ways alone
-/

namespace RepoAudit

namespace Path

/-- A path spells a first part of the way to another one. -/
def OnWay (q p : Path) : Prop :=
  (∀ here, q.originOf here = p.originOf here) ∧ q.names <+: p.names

theorem OnWay.refl (p : Path) : p.OnWay p := ⟨fun _ => rfl, List.prefix_rfl⟩

theorem OnWay.trans {p q r : Path} (h : r.OnWay q) (h' : q.OnWay p) : r.OnWay p :=
  ⟨fun here => (h.1 here).trans (h'.1 here), h.2.trans h'.2⟩

theorem foldl_names (here : Route) (p : Path) :
    p.names.foldl stepRoute (p.originOf here) = p.routeFrom here :=
  foldl_stepRoute_filter _ _

/-- The parent of a path lies on every way that spells all but the last segment of the path. -/
theorem onWay_of_segments {p q parent : Path} (h : p.parent? = some parent)
    (horigin : ∀ here, p.originOf here = q.originOf here)
    (hsegments : p.segments.dropLast <+: q.segments) : parent.OnWay q := by
  obtain ⟨habsolute, hparent⟩ := segments_parent? h
  refine ⟨fun here => ?_, ?_⟩
  · rw [← horigin here, originOf, habsolute, originOf]
  · rcases hparent with hempty | hlead
    · rw [names, hempty]
      exact List.nil_prefix
    · exact (hlead.trans hsegments).filter _

theorem onWay_of_parent? {p parent : Path} (h : p.parent? = some parent) : parent.OnWay p :=
  onWay_of_segments h (fun _ => rfl) (List.dropLast_prefix _)

theorem onWay_of_parent?_entry {name : String} (hname : '/' ∉ name.toList) {p parent : Path}
    (h : (p.entry name).parent? = some parent) : parent.OnWay p := by
  obtain ⟨lead, hsegments, hlead, hroute⟩ := segments_entry hname p
  refine onWay_of_segments h (fun here => (hroute here).1) ?_
  rwa [hsegments, List.dropLast_concat]

/-- A path and its parents lie on the way to it. -/
theorem onWay_of_mem_ancestors {p q : Path} (h : q ∈ p.ancestors) : q.OnWay p :=
  ancestor_induction (motive := q.OnWay) h (.refl q) fun _ _ hparent ih =>
    ih.trans (onWay_of_parent? hparent)

end Path

namespace FileTree

open Path

variable {t t' : FileTree} {here r : Route} {p q : Path}

/-- Every segment of a path leads into a directory. -/
def Passes (t : FileTree) (here : Route) (p : Path) : Prop :=
  ∃ d, t.descend (p.originOf here) p.names = .ok d

namespace Passes

theorem mono (h : t.Passes here p) (hgrows : Grows t t') : t'.Passes here p := by
  obtain ⟨d, hd⟩ := h
  exact ⟨d, hgrows.descend_eq_ok hd⟩

theorem onWay (h : t.Passes here p) (hq : q.OnWay p) : t.Passes here q := by
  obtain ⟨d, hd⟩ := h
  obtain ⟨rest, hrest⟩ := hq.2
  rw [← hrest, descend_append, ← hq.1] at hd
  rw [Passes]
  cases hlead : t.descend (q.originOf here) q.names with
  | ok d' => exact ⟨d', rfl⟩
  | error e =>
    rw [hlead] at hd
    cases hd

/-- The place of a name behind a path shows that the path is passed. -/
theorem of_place_entry {name : String} {found : Place} (hslash : '/' ∉ name.toList)
    (hname : IsPlainSlug name) (h : t.place here (p.entry name) = .ok found) :
    Char.ofNat 0 ∉ p.chars ∧ t.Passes here p := by
  obtain ⟨hempty, hdot, hparent⟩ := hname
  have hne : ∀ other : String, name ≠ other → name.toList ≠ other.toList :=
    fun other hother heq => hother (String.toList_inj.mp heq)
  have hnames :
      (p.entry name).segments.filter (fun s => !s.isEmpty) = p.names ++ [name.toList] := by
    rw [← names, names_entry hslash, List.filter_eq_self.mpr]
    intro segment hsegment
    rw [List.mem_singleton.mp hsegment]
    simpa using hempty
  have horigin : (p.entry name).originOf here = p.originOf here := originOf_entry hslash here p
  rw [originOf] at horigin
  rw [place, hnames, horigin] at h
  dsimp only at h
  rw [List.getLast?_concat, List.dropLast_concat] at h
  dsimp only at h
  split at h
  · cases h
  split at h
  · cases h
  next hnull =>
  have hnull' : Char.ofNat 0 ∉ p.chars := fun hmem => hnull (List.contains_iff_mem.mpr
    ((mem_chars_entry hslash (by decide) p).mpr (.inl hmem)))
  refine ⟨hnull', ?_⟩
  rw [Passes]
  cases hd : t.descend (p.originOf here) p.names with
  | ok d => exact ⟨d, rfl⟩
  | error e =>
    rw [if_neg (by simpa using ⟨hne _ hdot, hne _ hparent⟩), hd] at h
    split at h <;> cases h

/-- What stands behind a path shows that the path is passed. -/
theorem of_lookup_entry {name : String} {found : Route × Node} (hslash : '/' ∉ name.toList)
    (hname : IsPlainSlug name) (h : t.lookup here (p.entry name) = .ok found) :
    Char.ofNat 0 ∉ p.chars ∧ t.Passes here p := by
  cases hplace : t.place here (p.entry name) with
  | error e =>
    rw [lookup, hplace] at h
    cases h
  | ok place => exact of_place_entry hslash hname hplace

/-- A path that is passed names a directory, unless it cannot be followed at all. -/
theorem exists_lookup (h : t.Passes here p) (hchars : p.chars ≠ [])
    (hnull : Char.ofNat 0 ∉ p.chars) : ∃ d, t.lookup here p = .ok (d, .directory) := by
  obtain ⟨d, hd⟩ := h
  exact ⟨d, lookup_of_descend hchars hnull hd⟩

/-- No directory is made at the end of a way that is passed. -/
theorem makeDirectory_eq (h : t.Passes here p) (hchars : p.chars ≠ [])
    (hnull : Char.ofNat 0 ∉ p.chars) : t.makeDirectory here p = .error .occupied := by
  obtain ⟨d, hd⟩ := h
  rw [makeDirectory]
  rcases place_of_descend hchars hnull hd with hplace | ⟨parent, name, slash, hplace, rfl, hnode⟩
  · rw [hplace]
  · rw [hplace]
    dsimp only
    rw [hnode]

theorem makeDirectory_ne_ok (h : t.Passes here p) (t' : FileTree) :
    t.makeDirectory here p ≠ .ok t' := by
  intro hmake
  by_cases hchars : p.chars = []
  · rw [makeDirectory, place, hchars] at hmake
    cases hmake
  by_cases hnull : Char.ofNat 0 ∈ p.chars
  · rw [makeDirectory, place, if_neg (by simpa using hchars),
      if_pos (by simpa using hnull)] at hmake
    cases hmake
  · rw [h.makeDirectory_eq hchars hnull] at hmake
    cases hmake

end Passes

/-- Where a path is passed, making its directories makes nothing and is not refused. -/
theorem makeDirectories_of_passes (h : t.Passes here p) (hnull : Char.ofNat 0 ∉ p.chars) :
    t.makeDirectories here p = (t, .ok ()) := by
  obtain ⟨parents, hancestors⟩ : ∃ parents, p.ancestors = p :: parents := by
    rw [ancestors]
    cases p.segments.length with
    | zero => exact ⟨[], rfl⟩
    | succ fuel =>
      rw [ancestors_go_succ]
      cases p.parent? with
      | none => exact ⟨[], rfl⟩
      | some parent => exact ⟨_, rfl⟩
  rw [makeDirectories, hancestors, makeChain]
  by_cases hchars : p.chars = []
  · rw [if_pos (by simpa using hchars)]
  · obtain ⟨d, hd⟩ := h.exists_lookup hchars hnull
    rw [if_neg (by simpa using hchars), h.makeDirectory_eq hchars hnull]
    dsimp only
    rw [isDirectory, hd]
    rfl

/-- Directories are made at the ends of ways that were not passed. -/
theorem node?_makeChain_of_passes {paths : List Path}
    (h : ∀ q ∈ paths, r ≠ q.routeFrom here ∨ t.Passes here q) :
    (t.makeChain here paths).1.node? r = t.node? r := by
  induction paths with
  | nil => rfl
  | cons p parents ih =>
    have hp := h p List.mem_cons_self
    replace ih := ih fun q hq => h q (List.mem_cons_of_mem p hq)
    have hmade : ∀ t' t'', Grows t t' → t'.makeDirectory here p = .ok t'' →
        t''.node? r = t'.node? r := by
      intro t' t'' hgrows hmake
      rcases hp with hne | hpasses
      · exact node?_makeDirectory_of_ne hmake hne
      · exact absurd hmake ((hpasses.mono hgrows).makeDirectory_ne_ok t'')
    rw [makeChain]
    split
    · rfl
    split
    · next t' hmake => exact hmade t t' (.refl t) hmake
    -- There was no parent: the parents are made first, and then the path is tried again.
    · have hgrows := Grows.of_makeChain t here parents
      split
      · next t' e hchain =>
        rw [hchain] at ih
        exact ih
      · next t' hchain =>
        rw [hchain] at ih hgrows
        split
        · next t'' hmake => exact (hmade t' t'' hgrows hmake).trans ih
        · exact ih
    · rfl

theorem node?_makeDirectories_of_passes
    (h : ∀ q ∈ p.ancestors, r ≠ q.routeFrom here ∨ t.Passes here q) :
    (t.makeDirectories here p).1.node? r = t.node? r :=
  node?_makeChain_of_passes h

end FileTree

end RepoAudit
