import RepoAudit.Text.Number

/-!
# JSON values

A JSON document as a value. Numbers keep their digits as written, objects keep their entries in
order and repeated keys. A string is `none` when its escapes name half of a surrogate pair: the
document is still a document, but that string is no text.
-/

namespace RepoAudit

/-- A JSON value. -/
inductive Json where
  /-- The null value. -/
  | null
  /-- A truth value. -/
  | bool (b : Bool)
  /-- A number, as written. -/
  | number (digits : List Char)
  /-- A string, if it is text. -/
  | string (s : Option String)
  /-- An array. -/
  | array (items : List Json)
  /-- An object, with its entries as written. -/
  | object (entries : List (Option String × Json))

namespace Json

/-- A string of known text. -/
def text (s : String) : Json :=
  .string (some s)

/-- A natural number. -/
def nat (n : Nat) : Json :=
  .number (Nat.toDigits 10 n)

/-- An object of known keys. -/
def record (entries : List (String × Json)) : Json :=
  .object (entries.map fun e => (some e.1, e.2))

/-- The value of a key in an object. -/
def field? (key : String) : Json → Option Json
  | .object entries => (entries.find? fun e => e.1 == some key).map (·.2)
  | _ => none

mutual

/-- How many arrays and objects lie around the innermost value. -/
def depth : Json → Nat
  | .array items => depthOfItems items + 1
  | .object entries => depthOfEntries entries + 1
  | _ => 0

/-- The greatest depth of some values. -/
def depthOfItems : List Json → Nat
  | [] => 0
  | j :: js => max (depth j) (depthOfItems js)

/-- The greatest depth of some entries. -/
def depthOfEntries : List (Option String × Json) → Nat
  | [] => 0
  | (_, j) :: es => max (depth j) (depthOfEntries es)

end

mutual

/-- Whether a test holds of a value and of every value in it. -/
def every (key : Option String → Bool) (test : Json → Bool) : Json → Bool
  | .array items => test (.array items) && everyItem key test items
  | .object entries => test (.object entries) && everyEntry key test entries
  | j => test j

/-- `every` for each of some values. -/
def everyItem (key : Option String → Bool) (test : Json → Bool) : List Json → Bool
  | [] => true
  | j :: js => every key test j && everyItem key test js

/-- `every` for each of some entries, whose keys are tested too. -/
def everyEntry (key : Option String → Bool) (test : Json → Bool) :
    List (Option String × Json) → Bool
  | [] => true
  | (k, j) :: es => key k && every key test j && everyEntry key test es

end

end Json

end RepoAudit
