import RepoAudit.Diff.Search

/-!
# Tidying edit scripts

A run of inserted lines can often slide over equal lines around it. Tidying slides each such run up
as far as it goes, then down as far as it goes, and joins runs that meet. A deleted run passes the
inserted runs next to it and joins the deleted runs that it meets, but no kept line; deleted runs go
first. Then kept runs that meet are joined, and a deleted run beside an inserted one becomes a
replacement.
-/

namespace RepoAudit.Diff

variable {α : Type} [DecidableEq α]

/-- Some lines of a sequence. -/
def window (as : Array α) (start size : Nat) : List α :=
  (as.extract start (start + size)).toList

/-- A script opened at one of its edits. -/
structure Cursor where
  /-- The edits before it, the last one first. -/
  before : List Edit
  /-- The edit itself. -/
  edit : Edit
  /-- The edits after it. -/
  after : List Edit

/-- The lines that a run can slide over kept lines: those that it inserts. -/
def slidingLines (news : Array α) : Edit → List α
  | .insert _ new size => window news new size
  | _ => []

/-- The edits after a run that slid up by `n` lines: a kept run grows to the left, or a new one is
made. -/
def keepBelow (n keptOld keptNew : Nat) : List Edit → List Edit
  | .keep old new size :: rest => .keep (old - n) (new - n) (size + n) :: rest
  | rest => .keep keptOld keptNew n :: rest

/-- The edits before a run that slid down by `n` lines: a kept run grows to the right, or a new
one is made. -/
def keepAbove (n keptOld keptNew : Nat) : List Edit → List Edit
  | .keep old new size :: rest => .keep old new (size + n) :: rest
  | rest => .keep keptOld keptNew n :: rest

/-- Slides a deleted or inserted run up as far as it goes. -/
def slideUp (olds news : Array α) : (fuel : Nat) → Cursor → Cursor
  | 0, c => c
  | fuel + 1, c =>
    match c.before with
    | [] => c
    | .keep old new size :: rest =>
      let n := commonTail (window olds old size) (slidingLines news c.edit)
      if 0 < n then
        let after := keepBelow n (old + size - n) (c.edit.newStop - n) c.after
        let before := if size - n = 0 then rest else .keep old new (size - n) :: rest
        slideUp olds news fuel ⟨before, c.edit.adjust (· - n) id, after⟩
      else if size = 0 then slideUp olds news fuel { c with before := rest }
      else c
    | previous :: rest =>
      match c.edit, previous with
      | .insert _ _ n, .insert old new size =>
        slideUp olds news fuel ⟨rest, .insert old new (size + n), c.after⟩
      | .delete _ _ n, .delete old new size =>
        slideUp olds news fuel ⟨rest, .delete old new (size + n), c.after⟩
      | edit, previous => slideUp olds news fuel ⟨rest, edit, previous :: c.after⟩

/-- Slides a deleted or inserted run down as far as it goes. -/
def slideDown (olds news : Array α) : (fuel : Nat) → Cursor → Cursor
  | 0, c => c
  | fuel + 1, c =>
    match c.after with
    | [] => c
    | .keep old new size :: rest =>
      let n := commonLead (window olds old size) (slidingLines news c.edit)
      if 0 < n then
        let before := keepAbove n old c.edit.newStart c.before
        let after := if size - n = 0 then rest else .keep (old + n) (new + n) (size - n) :: rest
        slideDown olds news fuel ⟨before, c.edit.adjust (· + n) id, after⟩
      else if size = 0 then slideDown olds news fuel { c with after := rest }
      else c
    | next :: rest =>
      match c.edit, next with
      | .insert old new size, .insert _ _ n =>
        slideDown olds news fuel ⟨c.before, .insert old new (size + n), rest⟩
      | .delete old new size, .delete _ _ n =>
        slideDown olds news fuel ⟨c.before, .delete old new (size + n), rest⟩
      | edit, next => slideDown olds news fuel ⟨next :: c.before, edit, rest⟩

/-- A bound on the steps of a run that slides over some edits. -/
def slideBound (edits : List Edit) : Nat :=
  edits.foldl (fun n e => n + e.size + 1) 1

/-- Slides every run that `chosen` picks, from the first to the last. -/
def slideRuns (olds news : Array α) (chosen : Edit → Bool) :
    (fuel : Nat) → (before after : List Edit) → Script
  | _, before, [] => before.reverse
  | 0, before, after => before.reverse ++ after
  | fuel + 1, before, edit :: after =>
    if chosen edit then
      let up := slideUp olds news (slideBound before) ⟨before, edit, after⟩
      let down := slideDown olds news (slideBound up.after) up
      slideRuns olds news chosen fuel (down.edit :: down.before) down.after
    else slideRuns olds news chosen fuel (edit :: before) after

/-- Whether an edit deletes lines. -/
def Edit.isDelete : Edit → Bool
  | .delete _ _ _ => true
  | _ => false

/-- Whether an edit inserts lines. -/
def Edit.isInsert : Edit → Bool
  | .insert _ _ _ => true
  | _ => false

/-- The script with its deleted runs slid into place, then its inserted ones. -/
def slide (olds news : Array α) (script : Script) : Script :=
  let fuel := 4 * (olds.size + news.size + script.length) + 4
  let deleted := slideRuns olds news Edit.isDelete fuel [] script
  slideRuns olds news Edit.isInsert fuel [] deleted

/-- A script with edits that wait to be joined with what follows. -/
structure Pending where
  /-- A kept run. -/
  kept : Option Edit
  /-- A deleted run. -/
  deleted : Option Edit
  /-- An inserted run. -/
  inserted : Option Edit

namespace Pending

/-- The changes that wait, as one edit. -/
def changes (p : Pending) : Script :=
  match p.deleted, p.inserted with
  | some (.delete old _ size), some (.insert _ new newSize) => [.replace old new size newSize]
  | some d, _ => [d]
  | none, some i => [i]
  | none, none => []

/-- Everything that waits. -/
def all (p : Pending) : Script :=
  p.kept.toList ++ p.changes

end Pending

/-- Joins the runs that meet, given what waits. -/
def joinFrom (p : Pending) : Script → Script
  | [] => p.all
  | .keep old new size :: rest =>
    let kept := match p.kept with
      | some (.keep o n s) => Edit.keep o n (s + size)
      | _ => .keep old new size
    p.changes ++ joinFrom ⟨some kept, none, none⟩ rest
  | .delete old new size :: rest =>
    let deleted := match p.deleted with
      | some (.delete o n s) => Edit.delete o n (s + size)
      | _ => .delete old new size
    p.kept.toList ++ joinFrom ⟨none, some deleted, p.inserted⟩ rest
  | .insert old new size :: rest =>
    let inserted := match p.inserted with
      | some (.insert o n s) => Edit.insert o n (s + size)
      | _ => .insert old new size
    p.kept.toList ++ joinFrom ⟨none, p.deleted, some inserted⟩ rest
  | e :: rest => p.all ++ e :: joinFrom ⟨none, none, none⟩ rest

/-- The script between two sequences whose runs are slid into place and joined. -/
def script (as bs : List α) : Script :=
  joinFrom ⟨none, none, none⟩ (slide as.toArray bs.toArray (search as bs))

end RepoAudit.Diff
