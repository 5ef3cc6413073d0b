import RepoAudit.Proofs.FileTree.Frame
import RepoAudit.Proofs.World.Keeps

/-!
# Guarded files

Some routes of the file tree are guarded: what is known about their files is to stay known. Every
file operation that works on another route keeps it, and so does every program that makes no file
at a guarded route. A step is judged by the programs that it started.

## Main definitions

- `Call.Spares` — a program that was started made no file at a guarded route
- `World.Guards` — a world that was reached from another one with its guarded files still good
- `World.IsIdle` — no program can be started

## Main statements

- `Act.keeps_writeText`, `Act.keeps_appendText`, `Act.keeps_makeDirectories`, `Act.keeps_start` —
  the single operations
-/

namespace RepoAudit

/-- A program that was started made no file at a guarded route. -/
def Call.Spares (guarded : Route → Prop) (programs : String → Program) (c : Call) : Prop :=
  ∀ reply, programs c.name = .present reply → ∀ target, c.arguments.getLast? = some target →
    ∀ route, FileTree.pathOf route = c.directory → ∀ file ∈ (reply c.arguments).made,
      ¬guarded (((Path.mk target).join ⟨file.1⟩).routeFrom route)

/-- No program can be started. -/
def World.IsIdle (w : World) : Prop :=
  ∀ name reply, w.programs name ≠ .present reply

/-- Where no program can be started, none makes a file. -/
theorem World.IsIdle.spares {w : World} (h : w.IsIdle) (guarded : Route → Prop) (c : Call) :
    c.Spares guarded w.programs :=
  fun reply hreply => (h c.name reply hreply).elim

/-- The guarded files of a world that was reached from another one are good, and the programs that
were started on the way spared them. -/
structure World.Guards (guarded : Route → Prop) (good : Route → Option ByteArray → Prop)
    (start w : World) : Prop where
  /-- The working directory is the same. -/
  here : w.here = start.here
  /-- The programs are the same. -/
  programs : w.programs = start.programs
  /-- The programs that were started spared the guarded files. -/
  spared : ∀ c ∈ w.calls.drop start.calls.length, c.Spares guarded start.programs
  /-- The record has grown. -/
  recorded : start.calls.length ≤ w.calls.length
  /-- The guarded files are good. -/
  good : ∀ r, guarded r → good r (w.files.fileAt r)

/-- Some program that was started after another world did not spare the guarded files. -/
def World.Breached (guarded : Route → Prop) (start : World) (calls : List Call) : Prop :=
  ∃ c ∈ calls.drop start.calls.length, ¬c.Spares guarded start.programs

/-- The watch over the guarded files. -/
def World.watch (guarded : Route → Prop) (good : Route → Option ByteArray → Prop)
    (start : World) : Act.Watch where
  holds := World.Guards guarded good start
  excuses := World.Breached guarded start
  excuses_append := by
    rintro calls c ⟨c', hc', hspares⟩
    refine ⟨c', ?_, hspares⟩
    rw [List.drop_append]
    exact List.mem_append_left _ hc'

variable {guarded : Route → Prop} {good : Route → Option ByteArray → Prop} {start w : World}

namespace World.Guards

theorem refl (h : ∀ r, guarded r → good r (start.files.fileAt r)) :
    Guards guarded good start start :=
  ⟨rfl, rfl, by simp, Nat.le_refl _, h⟩

/-- Files that agree on the guarded routes are as good. -/
theorem withFiles (h : Guards guarded good start w) {files : FileTree}
    (hfiles : ∀ r, guarded r → files.fileAt r = w.files.fileAt r) :
    Guards guarded good start { w with files := files } where
  here := h.here
  programs := h.programs
  spared := h.spared
  recorded := h.recorded
  good := by
    intro r hr
    rw [hfiles r hr]
    exact h.good r hr

end World.Guards

namespace Act

open FileTree Path World

variable {p : Prop}

/-- A path whose file, if it can be changed, is not guarded. -/
def IsUnguarded (guarded : Route → Prop) (here : Route) (path : Path) : Prop :=
  ∀ parent name, path.routeFrom here = parent ++ [name] → path.fileName? = some name.toList →
    ¬guarded (parent ++ [name])

theorem keeps_now : Keeps (watch guarded good start) p Act.now fun _ => True := by
  intro w
  refine ⟨id, fun _ hw => .inr ⟨?_, fun _ _ => trivial⟩⟩
  exact ⟨hw.here, hw.programs, hw.spared, hw.recorded, hw.good⟩

theorem keeps_changeFile {path : Path} (hpath : p → IsUnguarded guarded start.here path)
    (f : Option ByteArray → ByteArray) :
    Keeps (watch guarded good start) p
      (Act.change fun files here => files.change here path f) fun _ => True := by
  refine Keeps.change fun hp w files hw hfiles => hw.withFiles fun r hr => ?_
  rw [hw.here] at hfiles
  obtain ⟨parent, name, hroute, hname, -⟩ := change_eq_ok hfiles
  refine fileAt_change_of_ne hfiles ?_
  rintro rfl
  rw [hroute] at hr
  exact hpath hp parent name hroute hname hr

theorem keeps_writeText {path : Path} (hpath : p → IsUnguarded guarded start.here path)
    (text : String) :
    Keeps (watch guarded good start) p (Act.writeText path text) fun _ => True :=
  keeps_changeFile hpath _

theorem keeps_appendText {path : Path} (hpath : p → IsUnguarded guarded start.here path)
    (text : String) :
    Keeps (watch guarded good start) p (Act.appendText path text) fun _ => True :=
  keeps_changeFile hpath _

theorem keeps_makeDirectories (path : Path) :
    Keeps (watch guarded good start) p (Act.makeDirectories path) fun _ => True := by
  intro w
  refine ⟨id, fun _ hw => .inr ⟨?_, fun _ _ => trivial⟩⟩
  exact World.Guards.withFiles hw fun r _ => fileAt_makeDirectories _ _ _ _

/-- A program that is started is recorded, and what it makes is made below its last argument. -/
theorem run_start (name : String) (arguments : List String) (directory? : Option Path)
    (w : World) :
    (∃ result, Act.start name arguments directory? w = (.ok result, w)) ∨
      ∃ reply route, w.programs name = .present reply ∧
        Act.start name arguments directory? w = (.ok (.ok (reply arguments)),
          { w with
            files := match arguments.getLast? with
              | some target => placeFiles ⟨target⟩ (reply arguments).made w.files route
              | none => w.files
            calls := w.calls ++ [⟨name, pathOf route, arguments⟩] }) := by
  have hget : (get : Act World) w = (.ok w, w) := rfl
  rw [Act.start, run_bind, hget]
  dsimp only
  split
  · exact .inl ⟨_, rfl⟩
  split
  · cases hprogram : w.programs name with
    | missing => exact .inl ⟨_, rfl⟩
    | forbidden => exact .inl ⟨_, rfl⟩
    | present reply => exact .inr ⟨reply, w.here, rfl, rfl⟩
  · split
    · exact .inl ⟨_, rfl⟩
    · split
      · next route _ =>
        cases hprogram : w.programs name with
        | missing => exact .inl ⟨_, rfl⟩
        | forbidden => exact .inl ⟨_, rfl⟩
        | present reply => exact .inr ⟨reply, route, rfl, rfl⟩
      · exact .inl ⟨_, rfl⟩
      · exact .inl ⟨_, rfl⟩

/-- A program keeps the guarded files good, or else it did not spare them. -/
theorem keeps_start (name : String) (arguments : List String) (directory? : Option Path) :
    Keeps (watch guarded good start) p (Act.start name arguments directory?) fun _ => True := by
  intro w
  rcases run_start name arguments directory? w with ⟨result, hrun⟩ | ⟨reply, route, hprogram, hrun⟩
  · rw [hrun]
    exact ⟨id, fun _ hw => .inr ⟨hw, fun _ _ => trivial⟩⟩
  · rw [hrun]
    refine ⟨(watch guarded good start).excuses_append _ _, fun _ hw => ?_⟩
    have hcalls : (w.calls ++ [Call.mk name (pathOf route) arguments]).drop start.calls.length =
        w.calls.drop start.calls.length ++ [Call.mk name (pathOf route) arguments] :=
      List.drop_append_of_le_length hw.recorded
    by_cases hspares : (Call.mk name (pathOf route) arguments).Spares guarded start.programs
    · refine .inr ⟨World.Guards.mk hw.here hw.programs ?_ ?_ fun r hr => ?_, fun _ _ => trivial⟩
      · rw [hcalls, List.forall_mem_append]
        exact ⟨hw.spared, fun c hc => by rwa [List.mem_singleton.mp hc]⟩
      · have := hw.recorded
        simp only [List.length_append]
        omega
      · have hfiles := hw.good r hr
        dsimp only
        split
        · next target htarget =>
          rw [fileAt_placeFiles]
          · exact hfiles
          · rintro file hfile rfl
            rw [hw.programs] at hprogram
            exact hspares reply hprogram target htarget route rfl file hfile hr
        · exact hfiles
    · have hmem : Call.mk name (pathOf route) arguments ∈
          (w.calls ++ [Call.mk name (pathOf route) arguments]).drop start.calls.length := by
        rw [hcalls]
        exact List.mem_append_right _ List.mem_cons_self
      exact Or.inl ⟨_, hmem, hspares⟩

end Act

end RepoAudit
