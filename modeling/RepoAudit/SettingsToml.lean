import RepoAudit.Settings
import RepoAudit.Toml.Reader

/-!
# Settings from TOML

The configuration file has a table for the store and the scans, one for the analyzers, and the
list of advisories. What is absent has its default; what is unknown is ignored. A record may also
be given as the array of its fields, and a date counts as a record without any of them.
-/

namespace RepoAudit

namespace Toml

/-- The fields of a record, in the order of their names. -/
def fields? (names : List String) : Toml → Option (List (Option Toml))
  | .table _ entries => some (names.map (get? entries))
  | .array _ items => some (names.mapIdx fun i _ => items[i]?)
  | .moment => some (names.map fun _ => none)
  | _ => none

/-- The field at a place of a record's fields. -/
def fieldAt (fields : List (Option Toml)) (i : Nat) : Option Toml :=
  (fields[i]?).join

/-- A field that has to be there. -/
def required {α : Type} (decode : Toml → Option α) : Option Toml → Option α
  | some v => decode v
  | none => none

/-- A field with a value for its absence. -/
def withDefault {α : Type} (default : α) (decode : Toml → Option α) : Option Toml → Option α
  | some v => decode v
  | none => some default

/-- A string. -/
def text? : Toml → Option String
  | .text s => some s
  | _ => none

/-- A truth value. -/
def boolean? : Toml → Option Bool
  | .boolean b => some b
  | _ => none

/-- An array of values of one kind. -/
def list? {α : Type} (decode : Toml → Option α) : Toml → Option (List α)
  | .array _ items => items.mapM decode
  | _ => none

end Toml

open Toml

/-- An advisory from a record. -/
def Advisory.ofToml? (v : Toml) : Option Advisory := do
  let fields ← fields? ["manifest", "vulnerable", "fixed", "description"] v
  let manifest ← withDefault defaultManifest text? (fieldAt fields 0)
  let vulnerable ← required text? (fieldAt fields 1)
  let fixed ← required text? (fieldAt fields 2)
  let description ← withDefault defaultDescription text? (fieldAt fields 3)
  some ⟨manifest, vulnerable, fixed, description⟩

/-- The table for the store and the scans. -/
structure ScanTable where
  /-- The directory of the store. -/
  storeDirectory : String
  /-- The patterns of files that a scan leaves out. -/
  excludes : List String
  /-- The repositories of a run that names none. -/
  repositories : List String

/-- The table when it is absent. -/
def ScanTable.default : ScanTable := ⟨Settings.defaultStore, [], []⟩

/-- Reads the table for the store and the scans. -/
def ScanTable.ofToml? (v : Toml) : Option ScanTable := do
  let fields ← fields? ["store_dir", "scan_exclude", "repos"] v
  let storeDirectory ← withDefault Settings.defaultStore text? (fieldAt fields 0)
  let excludes ← withDefault [] (list? text?) (fieldAt fields 1)
  let repositories ← withDefault [] (list? text?) (fieldAt fields 2)
  some ⟨storeDirectory, excludes, repositories⟩

/-- Reads the table for the analyzers: whether they are asked, and which are not. -/
def toolTableOfToml? (v : Toml) : Option (Bool × List String) := do
  let fields ← fields? ["enabled", "disabled"] v
  let enabled ← withDefault true boolean? (fieldAt fields 0)
  let disabled ← withDefault [] (list? text?) (fieldAt fields 1)
  some (enabled, disabled)

namespace Settings

/-- The settings in the entries of a document. -/
def ofEntries? (entries : Toml.Entries) : Option Settings := do
  let scans ← withDefault ScanTable.default ScanTable.ofToml? (get? entries "settings")
  let tools ← withDefault (true, []) toolTableOfToml? (get? entries "tools")
  let advisories ←
    withDefault Advisory.defaults (list? Advisory.ofToml?) (get? entries "advisories")
  some ⟨scans.storeDirectory, scans.excludes, scans.repositories, tools.1, tools.2, advisories⟩

/-- Reads a configuration file. -/
def read? (text : String) : Option Settings :=
  (Toml.read? text).bind ofEntries?

end Settings

end RepoAudit
