/-!
# Edit scripts

An edit script turns one sequence of lines into another, edit by edit. Each edit says where it
stands in both sequences. `Run` is one edit with its place; a script is a list of runs in order.
-/

namespace RepoAudit.Diff

/-- One edit, with its place in the old and in the new sequence. -/
inductive Edit where
  /-- Lines that are in both sequences. -/
  | keep (old new size : Nat)
  /-- Lines of the old sequence alone. -/
  | delete (old new size : Nat)
  /-- Lines of the new sequence alone. -/
  | insert (old new size : Nat)
  /-- Lines of the old sequence and the lines of the new one in their place. -/
  | replace (old new oldSize newSize : Nat)
deriving DecidableEq, Repr

namespace Edit

/-- Where the edit starts in the old sequence. -/
def oldStart : Edit → Nat
  | .keep old _ _ => old
  | .delete old _ _ => old
  | .insert old _ _ => old
  | .replace old _ _ _ => old

/-- Where the edit starts in the new sequence. -/
def newStart : Edit → Nat
  | .keep _ new _ => new
  | .delete _ new _ => new
  | .insert _ new _ => new
  | .replace _ new _ _ => new

/-- How many old lines the edit covers. -/
def oldSize : Edit → Nat
  | .keep _ _ size => size
  | .delete _ _ size => size
  | .insert _ _ _ => 0
  | .replace _ _ size _ => size

/-- How many new lines the edit covers. -/
def newSize : Edit → Nat
  | .keep _ _ size => size
  | .delete _ _ _ => 0
  | .insert _ _ size => size
  | .replace _ _ _ size => size

/-- Where the edit stops in the old sequence. -/
def oldStop (e : Edit) : Nat :=
  e.oldStart + e.oldSize

/-- Where the edit stops in the new sequence. -/
def newStop (e : Edit) : Nat :=
  e.newStart + e.newSize

/-- The greater number of lines that the edit covers on one side. -/
def size (e : Edit) : Nat :=
  max e.oldSize e.newSize

/-- The edit moved and resized on both sides alike. -/
def adjust (start : Nat → Nat) (size : Nat → Nat) : Edit → Edit
  | .keep old new n => .keep (start old) (start new) (size n)
  | .delete old new n => .delete (start old) (start new) (size n)
  | .insert old new n => .insert (start old) (start new) (size n)
  | .replace old new n m => .replace (start old) (start new) (size n) (size m)

end Edit

/-- A script: its edits in order. -/
abbrev Script := List Edit

end RepoAudit.Diff
