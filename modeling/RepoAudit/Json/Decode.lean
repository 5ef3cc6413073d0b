import RepoAudit.Json.Basic

/-!
# Reading records from JSON

A record is an object whose entries are its fields, or an array of the fields in their order. An
object may have entries that are no fields, but no field twice; an array may leave out fields at
its end. A field is required, has a default for its absence, or is optional, which also admits
null. A name of an enumeration is a string, or an object with that name as its one key and null
as its value.
-/

namespace RepoAudit.Json

open RepoAudit.Text

/-- The entry of a field in an object: none if it is absent, refused if it is there twice. -/
def entryOf? (entries : List (Option String × Json)) (name : String) : Option (Option Json) :=
  match entries.filter fun e => e.1 == some name with
  | [] => some none
  | [e] => some (some e.2)
  | _ => none

/-- The fields of a record, in the order of their names. -/
def fields? (names : List String) : Json → Option (List (Option Json))
  | .object entries =>
    if entries.all fun e => e.1.isSome then names.mapM (entryOf? entries) else none
  | .array items =>
    if items.length ≤ names.length then
      some (items.map some ++ List.replicate (names.length - items.length) none)
    else none
  | _ => none

/-- The field at a place of a record's fields. -/
def fieldAt (fields : List (Option Json)) (i : Nat) : Option Json :=
  (fields[i]?).join

/-- A field that has to be there. -/
def required {α : Type} (decode : Json → Option α) : Option Json → Option α
  | some j => decode j
  | none => none

/-- A field with a value for its absence. -/
def withDefault {α : Type} (default : α) (decode : Json → Option α) : Option Json → Option α
  | some j => decode j
  | none => some default

/-- A field that may be absent or null. -/
def optional {α : Type} (decode : Json → Option α) : Option Json → Option (Option α)
  | some .null => some none
  | some j => (decode j).map some
  | none => some none

/-- A string. -/
def string? : Json → Option String
  | .string s => s
  | _ => none

/-- A counter: a number written as digits alone and within the bound. -/
def counter? : Json → Option Nat
  | .number digits =>
    if digits.all Char.isDigit && digitsValue digits ≤ maxCounter then some (digitsValue digits)
    else none
  | _ => none

/-- An array of values of one kind. -/
def list? {α : Type} (decode : Json → Option α) : Json → Option (List α)
  | .array items => items.mapM decode
  | _ => none

/-- The name of an enumeration's member. -/
def name? : Json → Option String
  | .string s => s
  | .object [(key, .null)] => key
  | _ => none

end RepoAudit.Json
