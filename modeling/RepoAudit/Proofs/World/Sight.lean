import RepoAudit.Proofs.FileTree.Directory
import RepoAudit.Proofs.World.Guard

/-!
# What is known of one route

Here a property of the files is watched that rests on the node at one route: it stays as long as
that node and the directories stay. So it does no harm to write files elsewhere, and where any file
at the route will do, a file may be written there, too. Making directories does no harm where the
property tells that something stands at the route.

## Main definitions

- `Call.LeavesAlone` — what a program makes changes nothing at a route
- `World.Meddled` — some program did not leave a route alone
- `FileTree.RestsOn` — a property of trees that rests on the node at a route
- `FileTree.HoldsAt`, `FileTree.FindsFile` — a path leads to a file
- `World.sight` — the watch over such a property
- `World.progress` — the watch that sees nothing of the files

## Main statements

- `Act.sees_change`, `Act.sees_makeDirectories`, `Act.sees_rename`, `Act.sees_start` — the single
  operations
-/

namespace RepoAudit

/-- What a program that was started made has changed nothing at a route. -/
def Call.LeavesAlone (r : Route) (programs : String → Program) (c : Call) : Prop :=
  ∀ reply, programs c.name = .present reply → ∀ target, c.arguments.getLast? = some target →
    ∀ route, FileTree.pathOf route = c.directory → ∀ files : FileTree,
      (Act.placeFiles ⟨target⟩ (reply c.arguments).made files route).node? r = files.node? r

/-- Where no program can be started, none changes anything. -/
theorem World.IsIdle.leavesAlone {w : World} (h : w.IsIdle) (r : Route) (c : Call) :
    c.LeavesAlone r w.programs :=
  fun reply hreply => (h c.name reply hreply).elim

namespace FileTree

/-- A property of trees that stays as long as the directories and the node at a route do. -/
def RestsOn (r : Route) (K : FileTree → Prop) : Prop :=
  ∀ t t', SameAt r t t' → K t → K t'

/-- A property of trees for which any file at a route will do. -/
def TakesFiles (r : Route) (K : FileTree → Prop) : Prop :=
  ∀ t t' content, Grows t t' → t'.node? r = some (.file content) → K t → K t'

/-- A property of trees that stays as long as the directories and what stands at a route do; nothing
needs to be known while nothing stands there. -/
def TakesNew (r : Route) (K : FileTree → Prop) : Prop :=
  ∀ t t', Grows t t' → (∀ n, t.node? r = some n → t'.node? r = some n) → K t → K t'

theorem TakesNew.restsOn {r : Route} {K : FileTree → Prop} (h : TakesNew r K) : RestsOn r K :=
  fun t t' hsame ht => h t t' hsame.1 (fun _ hn => hsame.2.trans hn) ht

theorem restsOn_sameAt (r : Route) (t : FileTree) : RestsOn r (SameAt r t) :=
  fun _ _ h ht => ht.trans h

/-- A path leads to a file with some bytes. -/
def HoldsAt (here : Route) (path : Path) (content : ByteArray) (t : FileTree) : Prop :=
  t.lookup here path = .ok (path.routeFrom here, .file content)

/-- A path leads to a file. -/
def FindsFile (here : Route) (path : Path) (t : FileTree) : Prop :=
  ∃ content, HoldsAt here path content t

theorem HoldsAt.of_lookup {t : FileTree} {here r : Route} {path : Path} {content : ByteArray}
    (h : t.lookup here path = .ok (r, .file content)) : HoldsAt here path content t := by
  obtain ⟨rfl, -⟩ := lookup_file h
  exact h

theorem HoldsAt.node?_eq {t : FileTree} {here : Route} {path : Path} {content : ByteArray}
    (h : HoldsAt here path content t) : t.node? (path.routeFrom here) = some (.file content) := by
  have hfile := (lookup_file h).2
  rw [fileAt] at hfile
  split at hfile
  · next hnode =>
    rw [hnode, Option.some.inj hfile]
  · cases hfile

theorem takesNew_holdsAt (here : Route) (path : Path) (content : ByteArray) :
    TakesNew (path.routeFrom here) (HoldsAt here path content) :=
  fun _ _ hgrows hnode h => hgrows.lookup_file_eq_ok h (hnode _ h.node?_eq)

theorem takesNew_findsFile (here : Route) (path : Path) :
    TakesNew (path.routeFrom here) (FindsFile here path) :=
  fun t t' hgrows hnode ⟨content, h⟩ =>
    ⟨content, takesNew_holdsAt here path content t t' hgrows hnode h⟩

theorem takesFiles_findsFile (here : Route) (path : Path) :
    TakesFiles (path.routeFrom here) (FindsFile here path) :=
  fun _ _ content hgrows hnode ⟨_, h⟩ => ⟨content, hgrows.lookup_file_eq_ok h hnode⟩

end FileTree

/-- A world that was reached from another one. -/
structure World.Follows (start w : World) : Prop where
  /-- The working directory is the same. -/
  here : w.here = start.here
  /-- The programs are the same. -/
  programs : w.programs = start.programs
  /-- The record has grown. -/
  recorded : start.calls.length ≤ w.calls.length

theorem World.Follows.trans {w w₁ w' : World} (h : World.Follows w w₁) (h' : World.Follows w₁ w') :
    World.Follows w w' :=
  ⟨h'.here.trans h.here, h'.programs.trans h.programs, Nat.le_trans h.recorded h'.recorded⟩

/-- Where no program can be started, none can be later. -/
theorem World.Follows.isIdle {w w' : World} (h : World.Follows w w') (hw : w.IsIdle) : w'.IsIdle := by
  intro name reply
  rw [h.programs]
  exact hw name reply

/-- A world that was reached from another one, with a property of its files. -/
structure World.Sees (K : FileTree → Prop) (start w : World) : Prop extends Follows start w where
  /-- The files have the property. -/
  files : K w.files

/-- The watch that sees how a world was reached, and nothing of its files. -/
def World.progress (start : World) : Act.Watch where
  holds := World.Follows start
  excuses := fun _ => False
  excuses_append := fun _ _ h => h

/-- Some program that was started after another world did not leave a route alone. -/
def World.Meddled (r : Route) (start : World) (calls : List Call) : Prop :=
  ∃ c ∈ calls.drop start.calls.length, ¬c.LeavesAlone r start.programs

/-- The watch over a property of the files that rests on the node at a route. -/
def World.sight (r : Route) (K : FileTree → Prop) (start : World) : Act.Watch where
  holds := World.Sees K start
  excuses := World.Meddled r start
  excuses_append := by
    rintro calls c ⟨c', hc', halone⟩
    refine ⟨c', ?_, halone⟩
    rw [List.drop_append]
    exact List.mem_append_left _ hc'

namespace World.Sees

variable {K : FileTree → Prop} {start w : World}

theorem refl (h : K w.files) : Sees K w w :=
  ⟨⟨rfl, rfl, Nat.le_refl _⟩, h⟩

theorem withFiles (h : Sees K start w) {files : FileTree} (hfiles : K files) :
    Sees K start { w with files := files } :=
  ⟨⟨h.here, h.programs, h.recorded⟩, hfiles⟩

end World.Sees

namespace Act

open FileTree World

theorem isUnguarded_of_ne {r here : Route} {path : Path} (h : r ≠ path.routeFrom here) :
    IsUnguarded (· = r) here path :=
  fun _ _ hroute _ hr => h (hr.symm.trans hroute.symm)

variable {r : Route} {K : FileTree → Prop} {start : World} {p : Prop}

theorem sees_now : Keeps (sight r K start) p Act.now fun _ => True := by
  intro w
  refine ⟨id, fun _ hw => .inr ⟨?_, fun _ _ => trivial⟩⟩
  exact ⟨⟨hw.here, hw.programs, hw.recorded⟩, hw.files⟩

/-- A file may be changed elsewhere, or where any file will do. -/
theorem sees_change (hK : RestsOn r K) {path : Path}
    (hpath : p → IsUnguarded (· = r) start.here path ∨ TakesFiles r K)
    (f : Option ByteArray → ByteArray) :
    Keeps (sight r K start) p (Act.change fun files here => files.change here path f)
      fun _ => True := by
  refine Keeps.change fun hp w files hw hfiles => World.Sees.withFiles hw ?_
  have hgrows := Grows.of_change hfiles
  obtain ⟨parent, name, hroute, hname, rfl⟩ := change_eq_ok hfiles
  rw [hw.here] at hroute
  by_cases hr : r = parent ++ [name]
  · rcases hpath hp with hunguarded | htakes
    · exact (hunguarded parent name hroute hname hr.symm).elim
    · exact htakes _ _ _ hgrows (by rw [hr]; exact node?_set_self _ _ (by simp)) hw.files
  · exact hK _ _ ⟨hgrows, node?_set_of_ne _ _ hr⟩ hw.files

/-- Directories may be made elsewhere, or where they do no harm. -/
theorem sees_makeDirectories (hK : RestsOn r K) {path : Path}
    (hpath : p → TakesNew r K ∨ ∀ q ∈ path.ancestors, r ≠ q.routeFrom start.here) :
    Keeps (sight r K start) p (Act.makeDirectories path) fun _ => True := by
  intro w
  refine ⟨id, fun hp hw => .inr ⟨World.Sees.withFiles hw ?_, fun _ _ => trivial⟩⟩
  have hgrows := Grows.of_makeDirectories w.files w.here path
  rcases hpath hp with hnew | helsewhere
  · exact hnew _ _ hgrows (fun _ hn => node?_makeDirectories_of_eq_some _ _ _ hn) hw.files
  · rw [← hw.here] at helsewhere
    exact hK _ _ ⟨hgrows, node?_makeDirectories _ helsewhere⟩ hw.files

theorem sees_rename (hK : RestsOn r K) {source target : Path}
    (hsource : p → r ≠ source.routeFrom start.here)
    (htarget : p → r ≠ target.routeFrom start.here) :
    Keeps (sight r K start) p (Act.rename source target) fun _ => True := by
  refine Keeps.change fun hp w files hw hfiles => World.Sees.withFiles hw ?_
  obtain ⟨hgrows, hnode⟩ := rename_eq_ok hfiles
  rw [← hw.here] at hsource htarget
  exact hK _ _ ⟨hgrows, hnode r (hsource hp) (htarget hp)⟩ hw.files

/-- A program leaves the node at the route, or else it did not leave it alone. -/
theorem sees_start (hK : RestsOn r K) (name : String) (arguments : List String)
    (directory? : Option Path) :
    Keeps (sight r K start) p (Act.start name arguments directory?) fun _ => True := by
  intro w
  rcases run_start name arguments directory? w with ⟨result, hrun⟩ | ⟨reply, route, hprogram, hrun⟩
  · rw [hrun]
    exact ⟨id, fun _ hw => .inr ⟨hw, fun _ _ => trivial⟩⟩
  · rw [hrun]
    refine ⟨(sight r K start).excuses_append _ _, fun _ hw => ?_⟩
    by_cases halone : (Call.mk name (pathOf route) arguments).LeavesAlone r start.programs
    · refine .inr ⟨World.Sees.mk ⟨hw.here, hw.programs, ?_⟩ (hK _ _ ⟨?_, ?_⟩ hw.files),
        fun _ _ => trivial⟩
      · have := hw.recorded
        simp only [List.length_append]
        omega
      · dsimp only
        split
        · exact .of_placeFiles _ _ _ _
        · exact .refl _
      · dsimp only
        split
        · next target htarget =>
          rw [hw.programs] at hprogram
          exact halone reply hprogram target htarget route rfl w.files
        · rfl
    · refine .inl ⟨_, ?_, halone⟩
      rw [List.drop_append_of_le_length hw.recorded]
      exact List.mem_append_right _ List.mem_cons_self

/-! ## Nothing but progress -/

theorem follows_now : Keeps (progress start) p Act.now fun _ => True := by
  intro w
  exact ⟨id, fun _ hw => .inr ⟨⟨hw.here, hw.programs, hw.recorded⟩, fun _ _ => trivial⟩⟩

theorem follows_change (f : FileTree → Route → Except FileError FileTree) :
    Keeps (progress start) p (Act.change f) fun _ => True :=
  Keeps.change fun _ _ _ hw _ => ⟨hw.here, hw.programs, hw.recorded⟩

theorem follows_makeDirectories (path : Path) :
    Keeps (progress start) p (Act.makeDirectories path) fun _ => True := by
  intro w
  exact ⟨id, fun _ hw => .inr ⟨⟨hw.here, hw.programs, hw.recorded⟩, fun _ _ => trivial⟩⟩

theorem follows_start (name : String) (arguments : List String) (directory? : Option Path) :
    Keeps (progress start) p (Act.start name arguments directory?) fun _ => True := by
  intro w
  refine ⟨id, fun _ hw => .inr ⟨?_, fun _ _ => trivial⟩⟩
  rcases run_start name arguments directory? w with ⟨result, hrun⟩ | ⟨reply, route, -, hrun⟩
  · rw [hrun]
    exact hw
  · rw [hrun]
    refine ⟨hw.here, hw.programs, Nat.le_trans hw.recorded ?_⟩
    simp only [List.length_append]
    omega

end Act

end RepoAudit
