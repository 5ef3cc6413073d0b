import RepoAudit.Text.Word

/-!
# Leftmost matches

A recogniser says whether something it knows stands at a place of a text. `pieces` walks a text
from left to right and cuts it into the places that matched and the single characters between
them, so matches are leftmost and never overlap. Replacing, finding and counting are read off the
pieces.
-/

namespace RepoAudit.Text

/-- A recogniser is given the character before a place (none at the start of the text) and the
text from that place on. It answers what it found and how many characters that takes. -/
abbrev Recogniser (α : Type) := Option Char → List Char → Option (α × Nat)

/-- One piece of a text that was searched. -/
inductive Piece (α : Type) where
  /-- A character that belongs to no match. -/
  | plain (c : Char)
  /-- A match: what was found, and the text it covers. -/
  | found (value : α) (text : List Char)

/-- The text that a piece covers. -/
def Piece.text {α : Type} : Piece α → List Char
  | .plain c => [c]
  | .found _ text => text

/-- The pieces of a text, given the character before it and how many of its first characters
belong to a match that was cut off already. -/
def piecesFrom {α : Type} (r : Recogniser α) :
    (before : Option Char) → (skip : Nat) → List Char → List (Piece α)
  | _, _, [] => []
  | _, skip + 1, c :: cs => piecesFrom r (some c) skip cs
  | before, 0, c :: cs =>
    match r before (c :: cs) with
    | some (value, n) => .found value ((c :: cs).take n) :: piecesFrom r (some c) (n - 1) cs
    | none => .plain c :: piecesFrom r (some c) 0 cs

/-- A text cut at the leftmost matches of a recogniser. -/
def pieces {α : Type} (r : Recogniser α) (cs : List Char) : List (Piece α) :=
  piecesFrom r none 0 cs

/-- The text in which every match is replaced by `f` and all else is kept. -/
def replaceMatches {α : Type} (r : Recogniser α) (f : α → List Char) (cs : List Char) :
    List Char :=
  (pieces r cs).flatMap fun
    | .plain c => [c]
    | .found value _ => f value

/-- The first match of a recogniser: the text before it, and what was found. -/
def firstPiece {α : Type} : List (Piece α) → Option (List Char × α)
  | [] => none
  | .plain c :: ps => (firstPiece ps).map fun (lead, value) => (c :: lead, value)
  | .found value _ :: _ => some ([], value)

/-- The first match in a text: the text before it, and what was found. -/
def firstMatch {α : Type} (r : Recogniser α) (cs : List Char) : Option (List Char × α) :=
  firstPiece (pieces r cs)

/-- Whether a recogniser matches anywhere in a text. -/
def matchesAnywhere {α : Type} (r : Recogniser α) (cs : List Char) : Bool :=
  (firstMatch r cs).isSome

/-- The text after `lead`, if `cs` starts with `lead`. -/
def after? (lead cs : List Char) : Option (List Char) :=
  if lead.isPrefixOf cs then some (cs.drop lead.length) else none

/-- Recognises one fixed text. -/
def literal (needle : List Char) : Recogniser Unit := fun _ cs =>
  if needle.isPrefixOf cs then some ((), needle.length) else none

/-- Recognises a fixed text that is neither preceded nor followed by a word character, where the
text itself starts and ends with one. -/
def wholeWord (needle : List Char) : Recogniser Unit := fun before cs =>
  if continuesWord before then none
  else
    match after? needle cs with
    | some rest => if continuesWord rest.head? then none else some ((), needle.length)
    | none => none

/-- Whether `needle` occurs in `cs`; the empty text occurs everywhere. -/
def contains (cs needle : List Char) : Bool :=
  needle.isEmpty || matchesAnywhere (literal needle) cs

/-- The text before the first occurrence of `needle`. -/
def beforeFirst? (needle cs : List Char) : Option (List Char) :=
  if needle.isEmpty then some [] else (firstMatch (literal needle) cs).map (·.1)

/-- The text with every occurrence of `needle`, taken from left to right without overlap, replaced
by `substitute`. The empty text occurs before each character and at the end. -/
def replaceAll (needle substitute cs : List Char) : List Char :=
  if needle.isEmpty then substitute ++ cs.flatMap fun c => c :: substitute
  else replaceMatches (literal needle) (fun _ => substitute) cs

/-- Whether `tail` ends the text. -/
def endsWith (cs tail : List Char) : Bool :=
  tail.isSuffixOf cs

/-- Whether `lead` starts the text. -/
def startsWith (cs lead : List Char) : Bool :=
  lead.isPrefixOf cs

end RepoAudit.Text
