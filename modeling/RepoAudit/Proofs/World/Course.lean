import RepoAudit.Proofs.World.Sight

/-!
# The course of a step

Whatever a step does, the directories stay and the clock goes on as it would have.

## Main definitions

- `World.course` — the watch over directories and clock

## Main statements

- `Act.course_change`, `Act.course_makeDirectories`, `Act.course_start`, `Act.course_now` — the
  single operations
-/

namespace RepoAudit

open FileTree

/-- The clock shows days of the calendar. -/
def World.ShowsDays (w : World) : Prop :=
  ∀ n, (w.clock n).isValid

/-- The watch over the directories and the clock. -/
def World.course (start : World) : Act.Watch where
  holds := fun w => Grows start.files w.files ∧ w.clock = start.clock
  excuses := fun _ => False
  excuses_append := fun _ _ h => h

namespace Act

open World

variable {start : World} {p : Prop}

/-- Every instant is one that the clock of the start shows. -/
theorem course_now : Keeps (course start) p Act.now fun now => ∃ n, now = start.clock n := by
  intro w
  refine ⟨id, fun _ hw => .inr ⟨⟨hw.1, hw.2⟩, fun now hnow => ⟨w.ticks, ?_⟩⟩⟩
  rw [← Except.ok.inj hnow, hw.2]

theorem course_change {f : FileTree → Route → Except FileError FileTree}
    (hf : ∀ t here t', f t here = .ok t' → Grows t t') :
    Keeps (course start) p (Act.change f) fun _ => True :=
  Keeps.change fun _ _ _ hw hfiles => ⟨hw.1.trans (hf _ _ _ hfiles), hw.2⟩

theorem course_makeDirectories (path : Path) :
    Keeps (course start) p (Act.makeDirectories path) fun _ => True :=
  fun _ => ⟨id, fun _ hw => .inr ⟨⟨hw.1.trans (Grows.of_makeDirectories _ _ _), hw.2⟩,
    fun _ _ => trivial⟩⟩

theorem course_start (name : String) (arguments : List String) (directory? : Option Path) :
    Keeps (course start) p (Act.start name arguments directory?) fun _ => True := by
  intro w
  refine ⟨id, fun _ hw => .inr ⟨?_, fun _ _ => trivial⟩⟩
  rcases run_start name arguments directory? w with ⟨result, hrun⟩ | ⟨reply, route, -, hrun⟩
  · rw [hrun]
    exact hw
  · rw [hrun]
    refine ⟨hw.1.trans ?_, hw.2⟩
    dsimp only
    split
    · exact .of_placeFiles _ _ _ _
    · exact .refl _

end Act

end RepoAudit
