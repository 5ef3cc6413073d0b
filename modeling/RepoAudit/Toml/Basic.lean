/-!
# TOML values

A TOML document is a table. Each table remembers how it came to be, since that decides whether it
may be opened or extended again; an array remembers whether its items are tables with headers of
their own. `define`, `openTable` and `openItem` are the only ways in which a document grows.
-/

namespace RepoAudit

/-- How a table came to be. -/
inductive TableOrigin where
  /-- It has a header of its own, or is the document. -/
  | headed
  /-- It was passed by the header of another table. -/
  | implied
  /-- It was passed by a dotted key. -/
  | dotted
  /-- It was written between braces. -/
  | inline
deriving DecidableEq, Repr

/-- A TOML value. -/
inductive Toml where
  /-- A string. -/
  | text (s : String)
  /-- A truth value. -/
  | boolean (b : Bool)
  /-- A number, which no setting takes. -/
  | number
  /-- A date, a time, or both, which no setting takes. -/
  | moment
  /-- An array; its items may be tables with headers. -/
  | array (headed : Bool) (items : List Toml)
  /-- A table. -/
  | table (origin : TableOrigin) (entries : List (String × Toml))

namespace Toml

/-- The entries of a table. -/
abbrev Entries := List (String × Toml)

/-- The value of a key. -/
def get? (entries : Entries) (key : String) : Option Toml :=
  (entries.find? fun e => e.1 == key).map (·.2)

/-- The entries with the value of a key replaced, or added at the end. -/
def put (entries : Entries) (key : String) (value : Toml) : Entries :=
  if (get? entries key).isSome then
    entries.map fun e => if e.1 == key then (key, value) else e
  else entries ++ [(key, value)]

/-- A change of a table, which may be refused. -/
abbrev Change := TableOrigin → Entries → Option (TableOrigin × Entries)

/-- A change of the last item of an array, which is a table. -/
def changeLast (change : Change) : List Toml → Option (List Toml)
  | [] => none
  | [.table origin entries] => (change origin entries).map fun (o, es) => [.table o es]
  | [_] => none
  | item :: items => (changeLast change items).map (item :: ·)

/-- Changes the table at the end of a path. Tables that are missing on the way are made; an array
of headed tables stands for its last item. A table between braces is closed, and a dotted key does
not pass a table that has a header. -/
def changeAt (dotted : Bool) : List String → Change → Change
  | [], change => change
  | key :: path, change => fun origin entries =>
    let inner := changeAt dotted path change
    match get? entries key with
    | none =>
      (inner (if dotted then .dotted else .implied) []).map fun (o, es) =>
        (origin, put entries key (.table o es))
    | some (.array true items) =>
      (changeLast inner items).map fun items => (origin, put entries key (.array true items))
    | some (.table o es) =>
      if o == .inline || (dotted && o == .headed) then none
      else (inner o es).map fun (o, es) => (origin, put entries key (.table o es))
    | some _ => none

/-- Gives a key its value. No key has two values, and a table reached by a dotted key is one that
dotted keys made. -/
def define (path : List String) (key : String) (value : Toml) : Change :=
  changeAt true path fun origin entries =>
    if (origin == .dotted) == path.isEmpty then none
    else if (get? entries key).isSome then none
    else some (origin, put entries key value)

/-- Opens the table of a header. A table has one header at most. -/
def openTable (path : List String) (key : String) : Change :=
  changeAt false path fun origin entries =>
    match get? entries key with
    | none => some (origin, put entries key (.table .headed []))
    | some (.table .implied es) => some (origin, put entries key (.table .headed es))
    | some _ => none

/-- Opens another item of an array of headed tables. -/
def openItem (path : List String) (key : String) : Change :=
  changeAt false path fun origin entries =>
    match get? entries key with
    | none => some (origin, put entries key (.array true [.table .headed []]))
    | some (.array true items) =>
      some (origin, put entries key (.array true (items ++ [.table .headed []])))
    | some _ => none

end Toml

end RepoAudit
