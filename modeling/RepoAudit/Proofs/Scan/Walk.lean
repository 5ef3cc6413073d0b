import RepoAudit.Proofs.FileTree.Tree
import RepoAudit.Proofs.Text.ByteOrder
import RepoAudit.Scan.Walk

/-!
# The walk of a scan

A scan lists files by their routes and sorts them. The same list comes from a walk that goes
through the names of each directory in the order of their bytes, enters a directory where it stands
unless its name is skipped, and leaves out what a pattern matches.

## Main definitions

- `FileTree.namesInOrder` — the names in a directory, in the order of their bytes
- `Scan.walk` — the files below a directory, as a walk comes upon them

## Main statements

- `Scan.mem_walk_iff` — what a walk comes upon
- `Scan.pairwise_walk` — the order in which it comes upon them
- `Scan.routes_eq_walk` — a scan lists what the walk comes upon
-/

namespace RepoAudit

open RepoAudit.Text RepoAudit.Path

/-- The names in a directory, in the order of their bytes. -/
def FileTree.namesInOrder (t : FileTree) (r : Route) : List String :=
  (t.children r).mergeSort fun a b => decide (bytesOf a ≤ bytesOf b)

namespace Scan

/-- What a walk comes upon by a name in a directory: a file, or what is below a directory unless
its name is skipped. -/
def branch (t : FileTree) (skips : String → Bool) (base : Route) (name : String)
    (below : List Route) : List Route :=
  match t.node? (base ++ [name]) with
  | some (.file _) => [[name]]
  | some .directory => if skips name then [] else below.map (name :: ·)
  | none => []

/-- The files below a directory, from there, as a walk comes upon them that goes through the names
of each directory in order and down to some depth. -/
def walk (t : FileTree) (skips : String → Bool) : Nat → Route → List Route
  | 0, _ => []
  | depth + 1, base =>
    (t.namesInOrder base).flatMap fun name =>
      branch t skips base name (walk t skips depth (base ++ [name]))

variable {t t' : FileTree} {skips : String → Bool} {depth : Nat} {base r : Route}

/-! ## The order of routes -/

theorem routeBefore_cons {a b : String} {as bs : Route} :
    routeBefore (a :: as) (b :: bs) = true ↔ a < b ∨ a = b ∧ routeBefore as bs = true := by
  rw [routeBefore]
  by_cases h : a = b
  · subst h
    rw [if_pos rfl]
    exact ⟨fun hrest => .inr ⟨rfl, hrest⟩, fun hor => (hor.resolve_left (String.lt_irrefl a)).2⟩
  · rw [if_neg h, decide_eq_true_iff]
    exact ⟨.inl, fun hor => hor.resolve_right fun hsame => h hsame.1⟩

theorem routeBefore_trans (as bs cs : Route) (hab : routeBefore as bs = true)
    (hbc : routeBefore bs cs = true) : routeBefore as cs = true := by
  induction as generalizing bs cs with
  | nil => exact rfl
  | cons a as ih =>
    cases bs with
    | nil => cases hab
    | cons b bs =>
      cases cs with
      | nil => cases hbc
      | cons c cs =>
        rw [routeBefore_cons] at hab hbc ⊢
        rcases hab with hab | ⟨rfl, hab⟩
        · rcases hbc with hbc | ⟨rfl, -⟩
          · exact .inl (String.lt_trans hab hbc)
          · exact .inl hab
        · rcases hbc with hbc | ⟨rfl, hbc⟩
          · exact .inl hbc
          · exact .inr ⟨rfl, ih bs cs hab hbc⟩

theorem routeBefore_total (as bs : Route) : (routeBefore as bs || routeBefore bs as) = true := by
  induction as generalizing bs with
  | nil => rfl
  | cons a as ih =>
    cases bs with
    | nil => rfl
    | cons b bs =>
      have hrest := ih bs
      rw [Bool.or_eq_true] at hrest ⊢
      rw [routeBefore_cons, routeBefore_cons]
      by_cases hab : a < b
      · exact .inl (.inl hab)
      by_cases hba : b < a
      · exact .inr (.inl hba)
      have hsame : a = b := String.le_antisymm (String.not_lt.mp hba) (String.not_lt.mp hab)
      exact hrest.imp (fun h => .inr ⟨hsame, h⟩) fun h => .inr ⟨hsame.symm, h⟩

theorem routeBefore_antisymm {as bs : Route} (hab : routeBefore as bs = true)
    (hba : routeBefore bs as = true) : as = bs := by
  induction as generalizing bs with
  | nil =>
    cases bs with
    | nil => rfl
    | cons b bs => cases hba
  | cons a as ih =>
    cases bs with
    | nil => cases hab
    | cons b bs =>
      rw [routeBefore_cons] at hab hba
      rcases hab with hab | ⟨rfl, hab⟩
      · rcases hba with hba | ⟨rfl, -⟩
        · exact absurd (String.lt_trans hab hba) (String.lt_irrefl a)
        · exact absurd hab (String.lt_irrefl b)
      · rcases hba with hba | ⟨-, hba⟩
        · exact absurd hba (String.lt_irrefl a)
        · rw [ih hab hba]

/-- Sorted lists of the same routes, each of them once, are the same. -/
theorem eq_of_pairwise_routeBefore {as bs : List Route} (hmem : ∀ r, r ∈ as ↔ r ∈ bs)
    (has : as.Nodup) (hbs : bs.Nodup) (hsa : as.Pairwise fun r r' => routeBefore r r' = true)
    (hsb : bs.Pairwise fun r r' => routeBefore r r' = true) : as = bs :=
  ((List.perm_ext_iff_of_nodup has hbs).mpr hmem).eq_of_pairwise
    (fun _ _ _ _ => routeBefore_antisymm) hsa hsb

/-! ## The walk -/

theorem mem_namesInOrder_iff {name : String} :
    name ∈ t.namesInOrder r ↔ ∃ n, t.node? (r ++ [name]) = some n := by
  rw [FileTree.namesInOrder, List.mem_mergeSort, FileTree.mem_children_iff]

theorem pairwise_namesInOrder (h : t.IsTree) (r : Route) : (t.namesInOrder r).Pairwise (· < ·) := by
  have hsorted : (t.namesInOrder r).Pairwise fun a b => decide (bytesOf a ≤ bytesOf b) = true := by
    refine List.pairwise_mergeSort (fun a b c hab hbc => ?_) (fun a b => ?_) _
    · rw [decide_eq_true_iff] at hab hbc ⊢
      exact List.le_trans hab hbc
    · rw [Bool.or_eq_true, decide_eq_true_iff, decide_eq_true_iff]
      exact List.le_total _ _
  have hnodup : (t.namesInOrder r).Nodup :=
    (List.mergeSort_perm _ _).nodup_iff.mpr (h.nodup_children r)
  refine hsorted.imp₂ (fun a b hab hne => ?_) hnodup
  rw [decide_eq_true_iff] at hab
  -- Names in the order of their bytes that differ are in the order of their characters.
  by_cases hba : b < a
  · exact absurd ((bytesOf_lt_iff b a).mpr hba) hab
  · by_cases hlt : a < b
    · exact hlt
    · exact absurd (String.le_antisymm (String.not_lt.mp hba) (String.not_lt.mp hlt)) hne

theorem mem_branch_iff {name : String} {below : List Route} :
    r ∈ branch t skips base name below ↔ ∃ rest, r = name :: rest ∧
      (rest = [] ∧ (∃ content, t.node? (base ++ [name]) = some (.file content)) ∨
        t.node? (base ++ [name]) = some .directory ∧ skips name = false ∧ rest ∈ below) := by
  rw [branch]
  cases hnode : t.node? (base ++ [name]) with
  | none => simp
  | some n =>
    cases n with
    | file content => simp
    | directory =>
      by_cases hskips : skips name = true
      · simp [hskips]
      · simp [hskips, and_comm, eq_comm]

/-- What a walk comes upon in a directory: the files in it, and what it comes upon in the
directories in it that it enters. -/
theorem mem_walk_succ_iff :
    r ∈ walk t skips (depth + 1) base ↔ ∃ name rest, r = name :: rest ∧
      (rest = [] ∧ (∃ content, t.node? (base ++ [name]) = some (.file content)) ∨
        t.node? (base ++ [name]) = some .directory ∧ skips name = false ∧
          rest ∈ walk t skips depth (base ++ [name])) := by
  rw [walk, List.mem_flatMap]
  refine exists_congr fun name => ?_
  rw [mem_namesInOrder_iff, mem_branch_iff]
  refine and_iff_right_of_imp ?_
  rintro ⟨rest, -, ⟨-, content, hfile⟩ | ⟨hdirectory, -⟩⟩
  · exact ⟨_, hfile⟩
  · exact ⟨_, hdirectory⟩

/-- A walk comes upon the files that are deep enough and whose way leads through no directory that
it does not enter. -/
theorem mem_walk_iff (h : t.IsTree) :
    r ∈ walk t skips depth base ↔
      r ≠ [] ∧ r.length ≤ depth ∧ (∃ content, t.node? (base ++ r) = some (.file content)) ∧
        ∀ name ∈ r.dropLast, skips name = false := by
  induction depth generalizing base r with
  | zero => simp +contextual [walk]
  | succ depth ih =>
    rw [mem_walk_succ_iff]
    cases r with
    | nil => simp
    | cons name rest =>
      by_cases hnil : rest = []
      · subst hnil
        simp [ih]
      · have hroute : base ++ name :: rest = base ++ [name] ++ rest := by simp
        rw [hroute, List.dropLast_cons_of_ne_nil hnil, List.forall_mem_cons, List.length_cons,
          Nat.add_le_add_iff_right]
        constructor
        · rintro ⟨_, _, hcons, hmem⟩
          obtain ⟨rfl, rfl⟩ := List.cons.inj hcons
          obtain ⟨-, hskips, hmem⟩ := hmem.resolve_left fun hfile => hnil hfile.1
          obtain ⟨-, hdepth, hfile, henters⟩ := ih.mp hmem
          exact ⟨List.cons_ne_nil _ _, hdepth, hfile, hskips, henters⟩
        · rintro ⟨-, hdepth, ⟨content, hfile⟩, hskips, henters⟩
          refine ⟨name, rest, rfl, .inr ⟨h.node?_of_prefix hnil hfile, hskips, ?_⟩⟩
          exact ih.mpr ⟨hnil, hdepth, ⟨content, hfile⟩, henters⟩

/-- A walk comes upon the files in the order of their routes, and upon each of them once. -/
theorem pairwise_walk (h : t.IsTree) (skips : String → Bool) (depth : Nat) (base : Route) :
    (walk t skips depth base).Pairwise fun r r' => routeBefore r r' = true ∧ r ≠ r' := by
  induction depth generalizing base with
  | zero => exact .nil
  | succ depth ih =>
    rw [walk, List.pairwise_flatMap]
    constructor
    · intro name _
      rw [branch]
      split
      · exact List.pairwise_singleton _ _
      · split
        · exact .nil
        · refine List.pairwise_map.mpr ((ih _).imp fun hlt => ?_)
          exact ⟨routeBefore_cons.mpr (.inr ⟨rfl, hlt.1⟩), fun heq => hlt.2 (List.cons.inj heq).2⟩
      · exact .nil
    · -- The routes by one name come before all the routes by a later one.
      refine (pairwise_namesInOrder h base).imp fun {a b} hab r hr r' hr' => ?_
      obtain ⟨rest, rfl, -⟩ := mem_branch_iff.mp hr
      obtain ⟨rest', rfl, -⟩ := mem_branch_iff.mp hr'
      refine ⟨routeBefore_cons.mpr (.inl hab), fun heq => ?_⟩
      rw [(List.cons.inj heq).1] at hab
      exact String.lt_irrefl b hab

/-! ## What a scan lists -/

theorem mem_routesBelow_iff (h : t.IsTree) :
    r ∈ routesBelow t base ↔ ∃ content, t.node? (base ++ r) = some (.file content) := by
  rw [routesBelow, List.mem_filterMap, ← h.mem_fileRoutes_iff]
  constructor
  · rintro ⟨f, hf, hr⟩
    split at hr
    · next hprefix =>
      obtain ⟨rest, rfl⟩ := List.isPrefixOf_iff_prefix.mp hprefix
      rw [List.drop_left, Option.some.injEq] at hr
      rwa [← hr]
    · cases hr
  · intro hmem
    refine ⟨base ++ r, hmem, ?_⟩
    rw [if_pos (List.isPrefixOf_iff_prefix.mpr (List.prefix_append base r)), List.drop_left]

theorem nodup_routesBelow (h : t.IsTree) (base : Route) : (routesBelow t base).Nodup := by
  refine List.Pairwise.filterMap _ ?_ h.nodup_fileRoutes
  intro f f' hne r hr r' hr' hsame
  split at hr
  · next hprefix =>
    split at hr'
    · next hprefix' =>
      obtain ⟨rest, rfl⟩ := List.isPrefixOf_iff_prefix.mp hprefix
      obtain ⟨rest', rfl⟩ := List.isPrefixOf_iff_prefix.mp hprefix'
      rw [List.drop_left, Option.some.injEq] at hr hr'
      exact hne (by rw [hr, hr', hsame])
    · cases hr'
  · cases hr

/-- The files below a directory that a scan lists, in the order in which a walk comes upon them. -/
def listing (s : Scan) (t : FileTree) (base : Route) : List Route :=
  (walk t s.skips t.depth base).filter fun r => !s.excludes.any fun g => g.isMatch (routeBytes r)

variable {s : Scan}

theorem admits_iff : s.admits r = true ↔ (∀ name ∈ r.dropLast, s.skips name = false) ∧
    ∀ g ∈ s.excludes, g.isMatch (routeBytes r) = false := by
  simp [admits]

theorem ne_nil_of_file {content : ByteArray} (hbase : t.node? base = some .directory)
    (hfile : t.node? (base ++ r) = some (.file content)) : r ≠ [] := by
  rintro rfl
  rw [List.append_nil, hbase] at hfile
  cases hfile

theorem mem_listing_iff (h : t.IsTree) (hbase : t.node? base = some .directory) :
    r ∈ s.listing t base ↔
      (∃ content, t.node? (base ++ r) = some (.file content)) ∧ s.admits r = true := by
  have hunmatched : (!s.excludes.any fun g => g.isMatch (routeBytes r)) = true ↔
      ∀ g ∈ s.excludes, g.isMatch (routeBytes r) = false := by
    simp
  rw [listing, List.mem_filter, admits_iff, ← and_assoc, mem_walk_iff h, hunmatched]
  refine and_congr_left fun _ => ⟨fun hmem => hmem.2.2, fun ⟨⟨content, hfile⟩, henters⟩ => ?_⟩
  have hdepth := FileTree.length_le_depth_of_node? hfile
  rw [List.length_append] at hdepth
  exact ⟨ne_nil_of_file hbase hfile, by omega, ⟨content, hfile⟩, henters⟩

theorem nodup_listing (h : t.IsTree) : (s.listing t base).Nodup :=
  ((pairwise_walk h s.skips t.depth base).imp fun hlt => hlt.2).filter _

theorem pairwise_listing (h : t.IsTree) :
    (s.listing t base).Pairwise fun r r' => routeBefore r r' = true :=
  ((pairwise_walk h s.skips t.depth base).imp fun hlt => hlt.1).filter _

/-- A scan of a directory lists what a walk comes upon. -/
theorem routes_eq_listing (h : t.IsTree) {here : Route}
    (hlookup : t.lookup here s.root = .ok (base, .directory))
    (hbase : t.node? base = some .directory) (hdash : s.root.same dash = false) :
    s.routes t here = s.listing t base := by
  rw [routes, hdash, if_neg Bool.false_ne_true, hlookup]
  refine eq_of_pairwise_routeBefore (fun r => ?_) ?_ (nodup_listing h) ?_ (pairwise_listing h)
  · rw [List.mem_mergeSort, List.mem_filter, mem_routesBelow_iff h, mem_listing_iff h hbase]
  · exact (List.mergeSort_perm _ _).nodup_iff.mpr ((nodup_routesBelow h base).filter _)
  · exact List.pairwise_mergeSort routeBefore_trans routeBefore_total _

end Scan

end RepoAudit
