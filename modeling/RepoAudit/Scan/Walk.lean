import RepoAudit.FileTree
import RepoAudit.Glob.Reader
import RepoAudit.Remedy.Basic

/-!
# Walking a repository

The files that a scan looks at: every file below its root, except those below a directory whose
name is skipped and those that an exclude pattern matches. They come in the order of their
components, whatever order the entries of a directory have.
-/

namespace RepoAudit

/-- What a scan looks at. -/
structure Scan where
  /-- The root of the repository. -/
  root : Path
  /-- The patterns of files that are left out, relative to the root. -/
  excludes : List Glob
  /-- The name of the store's directory, which may lie inside the repository. -/
  storeName : Option String

namespace Scan

/-- The scan of a root with some exclude patterns as written; one that cannot be read is
ignored. -/
def ofPatterns (root : Path) (patterns : List String) (storeName : Option String) : Scan :=
  ⟨root, patterns.filterMap Glob.read?, storeName⟩

/-- The names of directories that no scan enters. -/
def skippedNames : List String := ["node_modules", ".git", ".security-auditor"]

/-- Whether a directory of some name is not entered. -/
def skips (s : Scan) (name : String) : Bool :=
  skippedNames.contains name || s.storeName == some name

/-- The bytes of a route, with slashes between its names. -/
def routeBytes (r : Route) : Bytes :=
  ("/".intercalate r).toUTF8.toList

/-- Whether a file at a route from the root is looked at. -/
def admits (s : Scan) (r : Route) : Bool :=
  !r.dropLast.any s.skips && !s.excludes.any fun g => g.isMatch (routeBytes r)

/-- The order of routes: name by name. -/
def routeBefore : Route → Route → Bool
  | [], _ => true
  | _ :: _, [] => false
  | a :: as, b :: bs => if a = b then routeBefore as bs else a < b

/-- The routes below a route, from there. -/
def routesBelow (files : FileTree) (r : Route) : List Route :=
  files.fileRoutes.filterMap fun f =>
    if r.isPrefixOf f then some (f.drop r.length) else none

/-- The path of a route from some path. -/
def pathBelow (root : Path) (r : Route) : Path :=
  r.foldl Path.entry root

/-- A lone dash as a root stands for no directory. -/
def dash : Path := ⟨"-"⟩

/-- The routes from the root of the files that are looked at, in order. -/
def routes (s : Scan) (files : FileTree) (here : Route) : List Route :=
  if s.root.same dash then []
  else
    match files.lookup here s.root with
    | .error _ => []
    | .ok (_, .file _) => [[]].filter s.admits
    | .ok (r, .directory) => ((routesBelow files r).filter s.admits).mergeSort routeBefore

/-- The files that are looked at, in order. -/
def files (s : Scan) (files : FileTree) (here : Route) : List Path :=
  (s.routes files here).map (pathBelow s.root)

/-- The files that have one of some extensions, in any case. -/
def filesWith (s : Scan) (extensions : List String) (files : FileTree) (here : Route) : List Path :=
  (s.files files here).filter (Remedy.hasExtension extensions)

end Scan

end RepoAudit
