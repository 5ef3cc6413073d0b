import Mathlib.Data.List.Nodup
import RepoAudit.Proofs.Path.Folding
import RepoAudit.Proofs.Store.Listing

/-!
# Directory trees

The entries of a machine form a tree: each route has one entry, every name is plain, and every
entry stands in a directory. In a tree what stands at a route and what is listed are the same, and
the order in which the entries are listed makes no difference to what a path leads to.

## Main definitions

- `FileTree.IsTree` — the entries form a tree
- `FileTree.depth` — no entry lies deeper

## Main statements

- `FileTree.mem_entries_iff` — the entries are what stands at the routes below the root
- `FileTree.IsTree.node?_of_prefix` — whatever is on the way to an entry is a directory
- `FileTree.IsTree.node?_eq_of_perm` — the order of the entries does not matter
-/

namespace RepoAudit.FileTree

open RepoAudit.Path

/-- The entries form a tree: one for each route, none for the root, each with plain names and in a
directory. -/
structure IsTree (t : FileTree) : Prop where
  nodup : (t.entries.map (·.1)).Nodup
  ne_nil : ∀ e ∈ t.entries, e.1 ≠ []
  plain : ∀ e ∈ t.entries, ∀ name ∈ e.1, IsPlainName name.toList
  parent : ∀ e ∈ t.entries, t.node? e.1.dropLast = some .directory

instance : DecidablePred IsPlainName := fun s =>
  decidable_of_iff (s ≠ [] ∧ s ≠ ['.'] ∧ s ≠ ['.', '.'] ∧ '/' ∉ s)
    ⟨fun ⟨hne, hcurrent, hparent, hslash⟩ => ⟨hne, hcurrent, hparent, hslash⟩,
      fun h => ⟨h.ne_nil, h.ne_current, h.ne_parent, h.notMem⟩⟩

instance : (found : Option Node) → Decidable (found = some .directory)
  | some .directory => isTrue rfl
  | some (.file _) => isFalse nofun
  | none => isFalse nofun

instance : DecidablePred IsTree := fun t =>
  decidable_of_iff
    ((t.entries.map (·.1)).Nodup ∧ (∀ e ∈ t.entries, e.1 ≠ []) ∧
      (∀ e ∈ t.entries, ∀ name ∈ e.1, IsPlainName name.toList) ∧
      ∀ e ∈ t.entries, t.node? e.1.dropLast = some .directory)
    ⟨fun ⟨hnodup, hne, hplain, hparent⟩ => ⟨hnodup, hne, hplain, hparent⟩,
      fun h => ⟨h.nodup, h.ne_nil, h.plain, h.parent⟩⟩

/-- The number of names of the longest route. -/
def depth (t : FileTree) : Nat :=
  (t.entries.map (·.1.length)).foldr max 0

variable {t t' : FileTree} {here r : Route} {n : Node}

/-! ## What is listed and what stands -/

theorem mem_entries_of_node? (hr : r ≠ []) (h : t.node? r = some n) : (r, n) ∈ t.entries := by
  cases r with
  | nil => exact absurd rfl hr
  | cons name rest =>
    rw [node?_cons, Option.map_eq_some_iff] at h
    obtain ⟨e, hfind, rfl⟩ := h
    have hroute := List.find?_some hfind
    rw [beq_iff_eq] at hroute
    rw [← hroute]
    exact List.mem_of_find?_eq_some hfind

theorem exists_node?_of_mem {e : Route × Node} (he : e ∈ t.entries) :
    ∃ n, t.node? e.1 = some n := by
  cases hroute : e.1 with
  | nil => exact ⟨_, rfl⟩
  | cons name rest =>
    rw [node?_cons, ← Option.isSome_iff_exists, Option.isSome_map, List.find?_isSome]
    exact ⟨e, he, by rw [hroute, beq_self_eq_true]⟩

/-- The route of an entry that gives a name in a directory ends with the name. -/
theorem eq_concat_of_child {e : Route × Node} {name : String}
    (h : (if e.1.dropLast == r && !e.1.isEmpty then e.1.getLast? else none) = some name) :
    e.1 = r ++ [name] := by
  split at h
  · next hroute =>
    simp only [Bool.and_eq_true, beq_iff_eq] at hroute
    obtain ⟨front, hfront⟩ := List.getLast?_eq_some_iff.mp h
    rw [hfront, List.dropLast_concat] at hroute
    rw [hfront, hroute.1]
  · cases h

theorem mem_children_iff {name : String} :
    name ∈ t.children r ↔ ∃ n, t.node? (r ++ [name]) = some n := by
  refine ⟨fun h => ?_, fun ⟨n, hn⟩ => mem_children hn⟩
  obtain ⟨e, he, hname⟩ := List.mem_filterMap.mp h
  rw [← eq_concat_of_child hname]
  exact exists_node?_of_mem he

theorem length_le_depth {e : Route × Node} (he : e ∈ t.entries) : e.1.length ≤ t.depth := by
  rw [depth]
  generalize t.entries = entries at he
  induction entries with
  | nil => cases he
  | cons e' entries ih =>
    rw [List.map_cons, List.foldr_cons]
    rcases List.mem_cons.mp he with rfl | he
    · exact Nat.le_max_left _ _
    · exact Nat.le_trans (ih he) (Nat.le_max_right _ _)

theorem mem_entries_iff (hnodup : (t.entries.map (·.1)).Nodup) (hr : r ≠ []) :
    (r, n) ∈ t.entries ↔ t.node? r = some n := by
  refine ⟨fun hmem => ?_, mem_entries_of_node? hr⟩
  obtain ⟨n', hn'⟩ := exists_node?_of_mem hmem
  have hsame := List.inj_on_of_nodup_map hnodup hmem (mem_entries_of_node? hr hn') rfl
  rw [(Prod.mk.inj hsame).2]
  exact hn'

theorem length_le_depth_of_node? (hnode : t.node? r = some n) : r.length ≤ t.depth := by
  by_cases hr : r = []
  · rw [hr]
    exact Nat.zero_le _
  · exact length_le_depth (mem_entries_of_node? hr hnode)

namespace IsTree

theorem plain_of_node? (h : t.IsTree) (hnode : t.node? r = some n) :
    ∀ name ∈ r, IsPlainName name.toList := by
  intro name hname
  have hr : r ≠ [] := List.ne_nil_of_mem hname
  exact h.plain _ (mem_entries_of_node? hr hnode) name hname

/-- Whatever is on the way to an entry is a directory. -/
theorem node?_of_prefix (h : t.IsTree) {rest : Route} (hrest : rest ≠ [])
    (hnode : t.node? (r ++ rest) = some n) : t.node? r = some .directory := by
  -- One name after the other is taken off at the end.
  induction rest using List.reverseRecOn generalizing n with
  | nil => exact absurd rfl hrest
  | append_singleton front name ih =>
    rw [← List.append_assoc] at hnode
    have hmem := mem_entries_of_node? (by simp) hnode
    have hparent := h.parent _ hmem
    rw [List.dropLast_concat] at hparent
    by_cases hfront : front = []
    · rwa [hfront, List.append_nil] at hparent
    · exact ih hfront hparent

theorem nodup_children (h : t.IsTree) (r : Route) : (t.children r).Nodup := by
  refine List.Pairwise.filterMap _ ?_ (List.pairwise_map.mp h.nodup)
  rintro e e' hne name hname name' hname' rfl
  apply hne
  rw [eq_concat_of_child hname, eq_concat_of_child hname']

theorem mem_fileRoutes_iff (h : t.IsTree) :
    r ∈ t.fileRoutes ↔ ∃ content, t.node? r = some (.file content) := by
  rw [fileRoutes, List.mem_filterMap]
  constructor
  · rintro ⟨⟨r', n⟩, he, hr⟩
    cases n with
    | directory => cases hr
    | file content =>
      obtain rfl : r' = r := Option.some.inj hr
      exact ⟨content, (mem_entries_iff h.nodup (h.ne_nil _ he)).mp he⟩
  · rintro ⟨content, hnode⟩
    have hr : r ≠ [] := by
      rintro rfl
      cases hnode
    exact ⟨_, mem_entries_of_node? hr hnode, rfl⟩

theorem nodup_fileRoutes (h : t.IsTree) : t.fileRoutes.Nodup := by
  refine List.Pairwise.filterMap _ ?_ (List.pairwise_map.mp h.nodup)
  rintro ⟨r, n⟩ ⟨r', n'⟩ hne route hroute route' hroute' rfl
  cases n with
  | directory => cases hroute
  | file content =>
    cases n' with
    | directory => cases hroute'
    | file content' => exact hne ((Option.some.inj hroute).trans (Option.some.inj hroute').symm)

/-! ## The order of the entries -/

theorem node?_eq_of_perm (h : t.IsTree) (hperm : t.entries.Perm t'.entries) :
    t.node? = t'.node? := by
  have hnodup := (hperm.map (·.1)).nodup_iff.mp h.nodup
  funext r
  by_cases hr : r = []
  · rw [hr]
    rfl
  · refine Option.ext fun n => ?_
    rw [← mem_entries_iff h.nodup hr, hperm.mem_iff, mem_entries_iff hnodup hr]

theorem of_perm (h : t.IsTree) (hperm : t.entries.Perm t'.entries) : t'.IsTree where
  nodup := (hperm.map _).nodup_iff.mp h.nodup
  ne_nil e he := h.ne_nil e (hperm.mem_iff.mpr he)
  plain e he := h.plain e (hperm.mem_iff.mpr he)
  parent e he := by
    rw [← h.node?_eq_of_perm hperm]
    exact h.parent e (hperm.mem_iff.mpr he)

end IsTree

theorem descend_eq_of_node?_eq (h : t.node? = t'.node?) (segments : List (List Char)) :
    t.descend here segments = t'.descend here segments := by
  induction segments generalizing here with
  | nil => rfl
  | cons s segments ih => simp only [descend, h, ih]

/-- What a path leads to depends on what stands at the routes alone. -/
theorem lookup_eq_of_node?_eq (h : t.node? = t'.node?) (p : Path) :
    t.lookup here p = t'.lookup here p := by
  have hplace : t.place here p = t'.place here p := by
    simp only [place, descend_eq_of_node?_eq h]
  rw [lookup, lookup, hplace, h]

/-- A path leads to the route that is looked up. -/
theorem routeFrom_of_lookup {p : Path} (h : t.lookup here p = .ok (r, n)) :
    p.routeFrom here = r := by
  rw [lookup] at h
  split at h
  · cases h
  · next hplace =>
    cases h
    exact place_eq_ok hplace
  · next parent name slash hplace =>
    have hroute := (place_entry hplace).1
    split at h
    · cases h
    · cases h
      exact hroute
    · split at h
      · cases h
      · cases h
        exact hroute

end RepoAudit.FileTree
