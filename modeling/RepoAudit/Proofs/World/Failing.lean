import RepoAudit.Proofs.World.Guard

/-!
# How a step can fail

A step fails only in some ways when, in every world, each of its failures is of those ways. A step
without any such way always succeeds. Of two steps in a row the second one matters only for the
values that the first one can give.

## Main definitions

- `Act.FailsOnly` — every failure of a step is of some kind

## Main statements

- `Act.FailsOnly.bind` — steps in a row
- `Act.FailsOnly.exists_ok` — a step without a way to fail succeeds
-/

namespace RepoAudit.Act

/-- Every failure of a step is of some kind. -/
def FailsOnly {α : Type} (act : Act α) (kind : Failure → Prop) : Prop :=
  ∀ w e, (act w).1 = .error e → kind e

namespace FailsOnly

variable {α β : Type} {kind : Failure → Prop} {act : Act α}

theorem pure (a : α) : FailsOnly (Pure.pure a : Act α) kind := by
  intro w e h
  cases h

theorem fail {f : Failure} (h : kind f) : FailsOnly (Act.fail f : Act α) kind := by
  intro w e he
  cases he
  exact h

theorem bind {f : α → Act β} (h : FailsOnly act kind)
    (hf : ∀ a w w', act w = (.ok a, w') → FailsOnly (f a) kind) : FailsOnly (act >>= f) kind := by
  intro w e he
  rw [run_bind] at he
  cases hrun : act w with
  | mk result w' =>
    rw [hrun] at he
    cases result with
    | ok a => exact hf a w w' hrun w' e he
    | error e' =>
      cases he
      exact h w e (by rw [hrun])

theorem mono {kind' : Failure → Prop} (h : FailsOnly act kind) (hkind : ∀ e, kind e → kind' e) :
    FailsOnly act kind' :=
  fun w e he => hkind e (h w e he)

/-- A step without a way to fail succeeds in every world. -/
theorem exists_ok (h : FailsOnly act fun _ => False) (w : World) : ∃ a, (act w).1 = .ok a := by
  cases hrun : (act w).1 with
  | ok a => exact ⟨a, rfl⟩
  | error e => exact (h w e hrun).elim

/-- A step whose failures are values does not fail. -/
theorem outcome (act : Act α) : FailsOnly (Act.outcome act) kind := by
  intro w e h
  cases h

theorem look (f : FileTree → Route → α) : FailsOnly (Act.look f) kind := by
  intro w e h
  cases h

theorem now : FailsOnly Act.now kind := by
  intro w e h
  cases h

theorem change (f : FileTree → Route → Except FileError FileTree) :
    FailsOnly (Act.change f) kind := by
  intro w e h
  rw [run_change] at h
  split at h <;> cases h

theorem makeDirectories (path : Path) : FailsOnly (Act.makeDirectories path) kind := by
  intro w e h
  cases h

theorem start (name : String) (arguments : List String) (directory? : Option Path) :
    FailsOnly (Act.start name arguments directory?) kind := by
  intro w e h
  rcases run_start name arguments directory? w with ⟨_, hrun⟩ | ⟨_, _, -, hrun⟩ <;>
  · rw [hrun] at h
    cases h

end FailsOnly

end RepoAudit.Act
