import RepoAudit.World

/-!
# What a step keeps

A step keeps a property of the world when the property holds after it whenever it held before,
whether the step succeeds or fails; its values then have a property of their own. A program that is
started may do anything to the files, so a step is excused once the record of started programs
shows one that should not have been. The record only grows, so what is excused stays excused.

## Main definitions

- `Act.Watch` — a property of the world, and the records that excuse its loss
- `Act.Keeps` — a step keeps what is watched and gives values with a property
- `Act.Watch.inter` — what two watches see
- `Act.Watch.LetsStart` — every program may be started under a watch

## Main statements

- `Act.Keeps.bind`, `Act.Keeps.pure`, `Act.Keeps.outcome` — the rules for steps put together
- `Act.Keeps.change`, `Act.Keeps.look` — the rules for steps on files
-/

namespace RepoAudit.Act

/-- A failure of the first step ends two steps in a row. -/
theorem run_bind {α β : Type} (act : Act α) (f : α → Act β) (w : World) :
    (act >>= f) w = match act w with
      | (.ok a, w') => f a w'
      | (.error e, w') => (.error e, w') := by
  change ExceptT.bindCont f (act w).1 (act w).2 = _
  cases act w with
  | mk result w' => cases result <;> rfl

/-- Two steps in a row succeed when both do. -/
theorem run_bind_eq_ok {α β : Type} {act : Act α} {f : α → Act β} {w w' : World} {b : β} :
    (act >>= f) w = (.ok b, w') ↔ ∃ a w₁, act w = (.ok a, w₁) ∧ f a w₁ = (.ok b, w') := by
  rw [run_bind]
  cases act w with
  | mk result w₁ =>
    cases result with
    | ok a =>
      refine ⟨fun h => ⟨a, w₁, rfl, h⟩, ?_⟩
      rintro ⟨_, _, heq, h⟩
      cases heq
      exact h
    | error e =>
      constructor
      · intro h
        cases h
      · rintro ⟨_, _, heq, -⟩
        cases heq

/-- What fails before its answer fails with it. -/
theorem error_of_answer {α β : Type} {act : Act α} {g : α → β} {w w' : World} {e : Failure}
    (h : (act >>= fun a => pure (g a) : Act β) w = (.error e, w')) :
    act w = (.error e, w') := by
  rw [run_bind] at h
  generalize act w = run at h ⊢
  obtain ⟨result, w₁⟩ := run
  cases result with
  | error e' =>
    cases h
    rfl
  | ok a => cases h

/-- What is said of a failure does not matter where there is none. -/
theorem run_mapFailure_eq_ok {α : Type} {f : Failure → Failure} {act : Act α} {w w' : World}
    {a : α} : mapFailure f act w = (.ok a, w') ↔ act w = (.ok a, w') := by
  rw [mapFailure]
  cases act w with
  | mk result w₁ =>
    cases result with
    | ok b => rfl
    | error e =>
      constructor <;>
      · intro h
        cases h

theorem run_look {α : Type} (f : FileTree → Route → α) (w : World) :
    look f w = (.ok (f w.files w.here), w) := rfl

theorem run_change (f : FileTree → Route → Except FileError FileTree) (w : World) :
    change f w = match f w.files w.here with
      | .ok files => (.ok (.ok ()), { w with files := files })
      | .error e => (.ok (.error e), w) := by
  change (match f w.files w.here with
    | .ok files => _
    | .error e => _ : Act (Except FileError Unit)) w = _
  cases f w.files w.here <;> rfl

/-- A change of the files that may not be refused. -/
theorem run_orRefused_change (task : Task) (path : Path)
    (f : FileTree → Route → Except FileError FileTree) (w : World) :
    orRefused task path (change f) w = match f w.files w.here with
      | .ok files => (.ok (), { w with files := files })
      | .error cause => (.error (.refused task path cause), w) := by
  rw [orRefused, run_bind, run_change]
  cases f w.files w.here <;> rfl

/-- A property of the world that is watched, and the records of programs that excuse its loss. -/
structure Watch where
  /-- What is watched. -/
  holds : World → Prop
  /-- The records that excuse its loss. -/
  excuses : List Call → Prop
  /-- A longer record excuses as well. -/
  excuses_append : ∀ calls c, excuses calls → excuses (calls ++ [c])

/-- If `p` holds, a step keeps what is watched and gives only values with `Q`, unless it is excused.
Whether `p` holds or not, it stays excused once it is. -/
def Keeps {α : Type} (W : Watch) (p : Prop) (act : Act α) (Q : α → Prop) : Prop :=
  ∀ w, (W.excuses w.calls → W.excuses (act w).2.calls) ∧
    (p → W.holds w → W.excuses (act w).2.calls ∨
      W.holds (act w).2 ∧ ∀ a, (act w).1 = .ok a → Q a)

/-- What two watches see. -/
def Watch.inter (W W' : Watch) : Watch where
  holds := fun w => W.holds w ∧ W'.holds w
  excuses := fun calls => W.excuses calls ∨ W'.excuses calls
  excuses_append := fun calls c h => h.imp (W.excuses_append calls c) (W'.excuses_append calls c)

/-- Every program may be started. -/
def Watch.LetsStart (W : Watch) : Prop :=
  ∀ (p : Prop) (name : String) (arguments : List String) (directory? : Option Path),
    Keeps W p (Act.start name arguments directory?) fun _ => True

namespace Keeps

variable {α β : Type} {W : Watch} {p : Prop} {Q : α → Prop} {R : β → Prop}

theorem pure {a : α} (h : p → Q a) : Keeps W p (Pure.pure a) Q := by
  intro w
  refine ⟨id, fun hp hw => .inr ⟨hw, fun b hb => ?_⟩⟩
  cases hb
  exact h hp

theorem fail (f : Failure) : Keeps W p (Act.fail f) Q := by
  intro w
  refine ⟨id, fun _ hw => .inr ⟨hw, fun b hb => ?_⟩⟩
  cases hb

theorem bind {act : Act α} {f : α → Act β} (h : Keeps W p act Q)
    (hf : ∀ a, Keeps W (p ∧ Q a) (f a) R) : Keeps W p (act >>= f) R := by
  intro w
  obtain ⟨hexcused, hkeep⟩ := h w
  rw [run_bind]
  generalize act w = run at hexcused hkeep
  obtain ⟨result, w'⟩ := run
  cases result with
  | ok a =>
    obtain ⟨hexcused', hkeep'⟩ := hf a w'
    refine ⟨fun hw => hexcused' (hexcused hw), fun hp hw => ?_⟩
    rcases hkeep hp hw with hlost | ⟨hw', hvalue⟩
    · exact .inl (hexcused' hlost)
    · exact hkeep' ⟨hp, hvalue a rfl⟩ hw'
  | error e =>
    refine ⟨hexcused, fun hp hw => ?_⟩
    rcases hkeep hp hw with hlost | ⟨hw', -⟩
    · exact .inl hlost
    · refine .inr ⟨hw', fun b hb => ?_⟩
      cases hb

/-- What a step that succeeds comes to, unless it is excused. -/
theorem run {act : Act α} (h : Keeps W p act Q) {w w' : World} {a : α} (hrun : act w = (.ok a, w'))
    (hp : p) (hw : W.holds w) (hclean : ¬W.excuses w'.calls) : W.holds w' ∧ Q a := by
  obtain ⟨-, hkeep⟩ := h w
  rw [hrun] at hkeep
  rcases hkeep hp hw with hlost | ⟨hw', hvalue⟩
  · exact (hclean hlost).elim
  · exact ⟨hw', hvalue a rfl⟩

/-- What is watched is kept by a step that is not excused, whatever it comes to. -/
theorem kept {act : Act α} (h : Keeps W p act Q) {w w' : World} {result : Except Failure α}
    (hrun : act w = (result, w')) (hp : p) (hw : W.holds w) (hclean : ¬W.excuses w'.calls) :
    W.holds w' := by
  obtain ⟨-, hkeep⟩ := h w
  rw [hrun] at hkeep
  exact ((hkeep hp hw).resolve_left hclean).1

/-- A step that is not excused afterwards was not excused before. -/
theorem clean {act : Act α} (h : Keeps W p act Q) {w w' : World} {result : Except Failure α}
    (hrun : act w = (result, w')) (hclean : ¬W.excuses w'.calls) : ¬W.excuses w.calls := by
  have hexcused := (h w).1
  rw [hrun] at hexcused
  exact fun hlost => hclean (hexcused hlost)

/-- A stronger condition and a weaker property of the values are as good. -/
theorem weaken {act : Act α} {p' : Prop} {Q' : α → Prop} (h : Keeps W p act Q) (hp : p' → p)
    (hQ : ∀ a, p' → Q a → Q' a) : Keeps W p' act Q' := by
  intro w
  obtain ⟨hexcused, hkeep⟩ := h w
  refine ⟨hexcused, fun hp' hw => ?_⟩
  rcases hkeep (hp hp') hw with hlost | ⟨hw', hvalue⟩
  · exact .inl hlost
  · exact .inr ⟨hw', fun a ha => hQ a hp' (hvalue a ha)⟩

/-- A stronger condition is as good. -/
theorem given {act : Act α} {p' : Prop} (h : Keeps W p act Q) (hp : p' → p) : Keeps W p' act Q :=
  h.weaken hp fun _ _ hQ => hQ

/-- What two proofs tell of the values of a step holds together. -/
theorem and {act : Act α} {Q' : α → Prop} (h : Keeps W p act Q) (h' : Keeps W p act Q') :
    Keeps W p act fun a => Q a ∧ Q' a := by
  intro w
  refine ⟨(h w).1, fun hp hw => ?_⟩
  rcases (h w).2 hp hw with hlost | ⟨hw', hvalue⟩
  · exact .inl hlost
  rcases (h' w).2 hp hw with hlost | ⟨-, hvalue'⟩
  · exact .inl hlost
  · exact .inr ⟨hw', fun a ha => ⟨hvalue a ha, hvalue' a ha⟩⟩

/-- A step that keeps what each of two watches sees keeps what both see. -/
theorem inter {act : Act α} {W' : Watch} {Q' : α → Prop} (h : Keeps W p act Q)
    (h' : Keeps W' p act Q') : Keeps (W.inter W') p act fun a => Q a ∧ Q' a := by
  intro w
  refine ⟨fun hlost => hlost.imp (h w).1 (h' w).1, fun hp ⟨hw, hw'⟩ => ?_⟩
  rcases (h w).2 hp hw with hlost | ⟨hkept, hvalue⟩
  · exact .inl (.inl hlost)
  rcases (h' w).2 hp hw' with hlost | ⟨hkept', hvalue'⟩
  · exact .inl (.inr hlost)
  · exact .inr ⟨⟨hkept, hkept'⟩, fun a ha => ⟨hvalue a ha, hvalue' a ha⟩⟩

theorem outcome {act : Act α} (h : Keeps W p act Q) :
    Keeps W p (Act.outcome act) fun result => ∀ a, result = .ok a → Q a := by
  intro w
  obtain ⟨hexcused, hkeep⟩ := h w
  refine ⟨hexcused, fun hp hw => ?_⟩
  rcases hkeep hp hw with hlost | ⟨hw', hvalue⟩
  · exact .inl hlost
  · refine .inr ⟨hw', fun result hresult a ha => hvalue a ?_⟩
    rw [← ha]
    exact Except.ok.inj hresult

theorem mapFailure {act : Act α} (f : Failure → Failure) (h : Keeps W p act Q) :
    Keeps W p (Act.mapFailure f act) Q := by
  intro w
  obtain ⟨hexcused, hkeep⟩ := h w
  rw [Act.mapFailure]
  generalize act w = run at hexcused hkeep
  obtain ⟨result, w'⟩ := run
  cases result with
  | ok a => exact ⟨hexcused, hkeep⟩
  | error e =>
    refine ⟨hexcused, fun hp hw => ?_⟩
    rcases hkeep hp hw with hlost | ⟨hw', -⟩
    · exact .inl hlost
    · refine .inr ⟨hw', fun b hb => ?_⟩
      cases hb

/-- A look at the files keeps everything. -/
theorem look (f : FileTree → Route → α) (h : p → ∀ w, W.holds w → Q (f w.files w.here)) :
    Keeps W p (Act.look f) Q := by
  intro w
  refine ⟨id, fun hp hw => .inr ⟨hw, fun a ha => ?_⟩⟩
  cases ha
  exact h hp w hw

theorem look_any (f : FileTree → Route → α) : Keeps W p (Act.look f) fun _ => True :=
  look f fun _ _ _ => trivial

/-- A change of the files keeps what every such change keeps. -/
theorem change {f : FileTree → Route → Except FileError FileTree}
    (h : p → ∀ w files, W.holds w → f w.files w.here = .ok files →
      W.holds { w with files := files }) :
    Keeps W p (Act.change f) fun _ => True := by
  intro w
  rw [run_change]
  split
  · next files hfiles => exact ⟨id, fun hp hw => .inr ⟨h hp w files hw hfiles, fun _ _ => trivial⟩⟩
  · exact ⟨id, fun _ hw => .inr ⟨hw, fun _ _ => trivial⟩⟩

theorem orRefused {act : Act (Except FileError Unit)} (task : Task) (path : Path)
    (h : Keeps W p act fun _ => True) : Keeps W p (Act.orRefused task path act) fun _ => True := by
  refine bind h fun result => ?_
  cases result with
  | ok _ => exact pure fun _ => trivial
  | error e => exact fail _

end Keeps

end RepoAudit.Act
