import RepoAudit.CommandLine.Execution
import RepoAudit.Instant.Epoch
import Std.Data.HashMap
import Std.Time.DateTime

/-!
# The program

Carries out a command line on the machine: the files that the command works on are read into a
world, the command is carried out there, and what it changed is written back. No program is
started, so version control and the analyzers count as not installed.
-/

namespace RepoAudit

/-- How deep directories are read. -/
def maxDirectoryDepth : Nat := 64

/-- The names of directories of which only the existence matters. -/
def unreadNames : List String := ["node_modules", ".git"]

/-- Adds what some directory entries hold to a list of tree entries. What cannot be read is left
out. -/
def readEntries : Nat → Route → List IO.FS.DirEntry → List (Route × Node) →
    IO (List (Route × Node))
  | 0, _, _, found => pure found
  | fuel + 1, route, entries, found =>
    entries.foldlM
      (fun found e => do
        let here := route ++ [e.fileName]
        if ← e.path.isDir then
          let found := (here, Node.directory) :: found
          if unreadNames.contains e.fileName then pure found
          else
            let inner ← try e.path.readDir catch _ => pure #[]
            readEntries fuel here inner.toList found
        else
          try pure ((here, Node.file (← IO.FS.readBinFile e.path)) :: found)
          catch _ => pure found)
      found

/-- The names of an absolute path whose dots are folded. -/
def routeOf (path : Path) : Route :=
  path.normalize.components.filterMap fun
    | .name n => some (String.ofList n)
    | _ => none

/-- The directories on the way to a route. -/
def waysTo (route : Route) : List (Route × Node) :=
  (List.range route.length).map fun n => (route.take (n + 1), Node.directory)

/-- What stands at an absolute path and below it, with the directories on the way. -/
def readPlace (path : Path) : IO (List (Route × Node)) := do
  let route := routeOf path
  let place := (← IO.currentDir) / path.text
  if ← place.isDir then
    readEntries maxDirectoryDepth route (← place.readDir).toList (waysTo route)
  else if ← place.pathExists then
    pure ((route, Node.file (← IO.FS.readBinFile place)) :: waysTo route.dropLast)
  else pure []

/-- A file tree with every route once. -/
def treeOf (entries : List (Route × Node)) : FileTree :=
  let byRoute : Std.HashMap Route Node := entries.foldl (fun m e => m.insert e.1 e.2) ∅
  ⟨byRoute.toList⟩

/-- Whether two nodes are the same. -/
def sameNode : Node → Node → Bool
  | .file a, .file b => a == b
  | .directory, .directory => true
  | _, _ => false

/-- Writes what a tree has and another one had not. -/
def writeChanges (before after : FileTree) : IO Unit := do
  let known : Std.HashMap Route Node := before.entries.foldl (fun m e => m.insert e.1 e.2) ∅
  let changed := after.entries.filter fun e => !(known[e.1]?.any (sameNode e.2))
  let ordered := changed.mergeSort fun a b => a.1.length ≤ b.1.length
  for (route, node) in ordered do
    match node with
    | .directory => IO.FS.createDirAll (FileTree.pathOf route).text
    | .file content => IO.FS.writeBinFile (FileTree.pathOf route).text content
  let kept : Std.HashMap Route Node := after.entries.foldl (fun m e => m.insert e.1 e.2) ∅
  for (route, node) in before.entries do
    match node with
    | .directory => pure ()
    | .file _ => if !kept.contains route then IO.FS.removeFile (FileTree.pathOf route).text

/-- A world with some files and a fixed instant. -/
def worldWith (files : FileTree) (here home : Path) (now : Instant) : World where
  files := files
  here := routeOf here
  home := home
  programs := fun _ => .missing
  calls := []
  clock := fun _ => now
  ticks := 0

/-- The places of the files that a command line works on. -/
def placesOf (workDirectory home : Path) (repoList : Option String) (arguments : List String)
    (now : Instant) : IO (List Path) := do
  let first := [workDirectory, home.entry ".security-auditor"]
  match CommandLine.read repoList arguments with
  | .error _ => pure []
  | .ok invocation =>
    let config := invocation.config.toList.map workDirectory.join
    let files := treeOf (← (first ++ config).mapM readPlace).flatten
    match invocation.places workDirectory (worldWith files workDirectory home now) with
    | (.ok places, _) => pure (first ++ config ++ places)
    | (.error _, _) => pure (first ++ config)

/-- Carries out a command line on the machine and gives the code it ends with. -/
def runOnMachine (arguments : List String) : IO UInt32 := do
  let workDirectory : Path := ⟨(← IO.currentDir).toString⟩
  let home : Path := ⟨(← IO.getEnv "HOME").getD "."⟩
  let repoList ← IO.getEnv "REPO_LIST"
  let now := Instant.ofNanoseconds (← Std.Time.Timestamp.now).toNanosecondsSinceUnixEpoch.val
  let places ← placesOf workDirectory home repoList arguments now
  let files := treeOf (← places.mapM readPlace).flatten
  let world := worldWith files workDirectory home now
  let (ending, after) := CommandLine.carryOut workDirectory repoList arguments world
  writeChanges files after.files
  IO.print ending.output
  IO.eprint ending.complaint
  pure ending.code.toUInt32

end RepoAudit

/-- The program. -/
def main (arguments : List String) : IO UInt32 :=
  RepoAudit.runOnMachine arguments
