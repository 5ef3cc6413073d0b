/-!
# Byte offsets

Positions in a text are counted in the bytes of its UTF-8 form. A position is a boundary when it
falls between two characters or at an end; no other position can cut a text.
-/

namespace RepoAudit.Text

/-- The number of bytes of a text in UTF-8. -/
def byteLength (cs : List Char) : Nat :=
  cs.foldr (fun c n => c.utf8Size + n) 0

/-- Cuts a text at a byte offset. There is no cut inside a character or beyond the end. -/
def cutAt? : Nat → List Char → Option (List Char × List Char)
  | 0, cs => some ([], cs)
  | _ + 1, [] => none
  | n + 1, c :: cs =>
    if c.utf8Size ≤ n + 1 then
      (cutAt? (n + 1 - c.utf8Size) cs).map fun (lead, rest) => (c :: lead, rest)
    else none

/-- The text between two byte offsets. -/
def between? (start stop : Nat) (cs : List Char) : Option (List Char) :=
  if start ≤ stop then
    match cutAt? start cs with
    | some (_, rest) => (cutAt? (stop - start) rest).map (·.1)
    | none => none
  else none

/-- The text with the bytes between two offsets replaced. -/
def spliceAt? (start stop : Nat) (substitute cs : List Char) : Option (List Char) :=
  if start ≤ stop then
    match cutAt? start cs with
    | some (lead, rest) =>
      (cutAt? (stop - start) rest).map fun (_, tail) => lead ++ substitute ++ tail
    | none => none
  else none

@[simp] theorem byteLength_nil : byteLength [] = 0 := rfl

@[simp] theorem byteLength_cons (c : Char) (cs : List Char) :
    byteLength (c :: cs) = c.utf8Size + byteLength cs := rfl

theorem byteLength_append (as bs : List Char) :
    byteLength (as ++ bs) = byteLength as + byteLength bs := by
  induction as with
  | nil => simp
  | cons c as ih => simp [ih, Nat.add_assoc]

end RepoAudit.Text
