import RepoAudit.World
import RepoAudit.Proofs.FileTree.Route

/-!
# What file operations leave alone

The bytes of a file at a route, and which of them an operation changes: those at the route that its
path leads to, and no others. Making directories changes none at all.

## Main definitions

- `FileTree.fileAt` — the bytes of the file at a route

## Main statements

- `FileTree.fileAt_change`, `FileTree.fileAt_change_of_ne` — changing a file
- `FileTree.fileAt_makeDirectories` — making directories
- `FileTree.fileAt_rename` — moving a file
- `FileTree.fileAt_placeFiles` — the files that a program makes
-/

namespace RepoAudit.FileTree

open RepoAudit.Path

/-- The bytes of the file at a route. -/
def fileAt (t : FileTree) (r : Route) : Option ByteArray :=
  match t.node? r with
  | some (.file content) => some content
  | _ => none

theorem node?_cons (t : FileTree) (name : String) (rest : Route) :
    t.node? (name :: rest) = (t.entries.find? fun e => e.1 == name :: rest).map (·.2) := rfl

theorem find?_filter_of_ne {α : Type} (entries : List (Route × α)) {r r' : Route} (h : r' ≠ r) :
    ((entries.filter fun e => e.1 != r).find? fun e => e.1 == r') =
      entries.find? fun e => e.1 == r' := by
  rw [List.find?_filter]
  congr 1
  funext e
  by_cases he : e.1 = r'
  · simp [he, h]
  · simp [he]

theorem node?_unset_of_ne (t : FileTree) {r r' : Route} (h : r' ≠ r) :
    (t.unset r).node? r' = t.node? r' := by
  cases r' with
  | nil => rfl
  | cons name rest => rw [node?_cons, node?_cons, unset, find?_filter_of_ne t.entries h]

theorem node?_set_of_ne (t : FileTree) (n : Node) {r r' : Route} (h : r' ≠ r) :
    (t.set r n).node? r' = t.node? r' := by
  cases r' with
  | nil => rfl
  | cons name rest =>
    rw [node?_cons, node?_cons, set, List.find?_cons_of_neg (by simpa using h.symm),
      find?_filter_of_ne t.entries h]

theorem node?_set_self (t : FileTree) (n : Node) {r : Route} (h : r ≠ []) :
    (t.set r n).node? r = some n := by
  cases r with
  | nil => exact (h rfl).elim
  | cons name rest => rw [node?_cons, set, List.find?_cons_of_pos (by simp), Option.map_some]

theorem fileAt_set_of_ne (t : FileTree) (n : Node) {r r' : Route} (h : r' ≠ r) :
    (t.set r n).fileAt r' = t.fileAt r' := by
  rw [fileAt, fileAt, node?_set_of_ne t n h]

theorem fileAt_set_file (t : FileTree) (content : ByteArray) {r : Route} (h : r ≠ []) :
    (t.set r (.file content)).fileAt r = some content := by
  rw [fileAt, node?_set_self t _ h]

theorem fileAt_unset_of_ne (t : FileTree) {r r' : Route} (h : r' ≠ r) :
    (t.unset r).fileAt r' = t.fileAt r' := by
  rw [fileAt, fileAt, node?_unset_of_ne t h]

theorem lookup_file {t : FileTree} {here r : Route} {p : Path} {content : ByteArray}
    (h : t.lookup here p = .ok (r, .file content)) :
    r = p.routeFrom here ∧ t.fileAt r = some content := by
  rw [lookup] at h
  split at h
  · cases h
  · cases h
  · next parent name slash hplace =>
    split at h
    · cases h
    · cases h
    · next c hnode =>
      split at h
      · cases h
      · cases h
        exact ⟨(place_entry hplace).1.symm, by rw [fileAt, hnode]⟩

/-- What is found by a path that ends in a character of a name stands at its route. -/
theorem node?_of_lookup {t : FileTree} {here r : Route} {p : Path} {n : Node} {c : Char}
    (h : p.chars.getLast? = some c) (hslash : c ≠ '/') (hdot : c ≠ '.')
    (hlookup : t.lookup here p = .ok (r, n)) : t.node? (p.routeFrom here) = some n := by
  rw [lookup] at hlookup
  split at hlookup
  · cases hlookup
  · next hplace => exact (place_ne_directory h hslash hdot hplace).elim
  · next parent name slash hplace =>
    rw [(place_entry hplace).1]
    split at hlookup
    · cases hlookup
    · next hnode =>
      cases hlookup
      exact hnode
    · next hnode =>
      split at hlookup
      · cases hlookup
      · cases hlookup
        exact hnode

theorem node?_of_fileAt {t : FileTree} {r : Route} {content : ByteArray}
    (h : t.fileAt r = some content) : t.node? r = some (.file content) := by
  rw [fileAt] at h
  split at h
  · next hnode => rw [hnode, Option.some.inj h]
  · cases h

theorem readBytes_eq_ok {t : FileTree} {here : Route} {p : Path} {content : ByteArray}
    (h : t.readBytes here p = .ok content) : t.fileAt (p.routeFrom here) = some content := by
  rw [readBytes] at h
  split at h
  · cases h
  · cases h
  · next r c hlookup =>
    cases h
    obtain ⟨rfl, hfile⟩ := lookup_file hlookup
    exact hfile

theorem readBytes_of_lookup {t : FileTree} {here r : Route} {p : Path} {content : ByteArray}
    (h : t.lookup here p = .ok (r, .file content)) : t.readBytes here p = .ok content := by
  rw [readBytes, h]

/-- Bytes that are read are those of a file that is found. -/
theorem lookup_of_readBytes {t : FileTree} {here : Route} {p : Path} {content : ByteArray}
    (h : t.readBytes here p = .ok content) :
    t.lookup here p = .ok (p.routeFrom here, .file content) := by
  rw [readBytes] at h
  split at h
  · cases h
  · cases h
  · next r c hlookup =>
    cases h
    obtain ⟨rfl, -⟩ := lookup_file hlookup
    exact hlookup

theorem fromUTF8?_toUTF8 (text : String) : String.fromUTF8? text.toUTF8 = some text := by
  have hvalid : text.toUTF8.IsValidUTF8 := text.isValidUTF8
  rw [String.fromUTF8?, dif_pos hvalid]
  rfl

/-- A text that is read is the one that the bytes of the file spell. -/
theorem readText_eq_ok {t : FileTree} {here : Route} {p : Path} {text : String}
    (h : t.readText here p = .ok text) :
    ∃ content, t.fileAt (p.routeFrom here) = some content ∧
      String.fromUTF8? content = some text := by
  rw [readText] at h
  split at h
  · cases h
  · next content hbytes =>
    split at h
    · next s hs =>
      cases h
      exact ⟨content, readBytes_eq_ok hbytes, hs⟩
    · cases h

theorem readText_eq_of_routeFrom {t : FileTree} {here : Route} {p q : Path}
    {text text' : String} (hroute : p.routeFrom here = q.routeFrom here)
    (hp : t.readText here p = .ok text) (hq : t.readText here q = .ok text') : text = text' := by
  obtain ⟨content, hcontent, htext⟩ := readText_eq_ok hp
  obtain ⟨content', hcontent', htext'⟩ := readText_eq_ok hq
  rw [hroute, hcontent'] at hcontent
  obtain rfl := Option.some.inj hcontent
  exact Option.some.inj (htext.symm.trans htext')

/-- A file that is read stands at a name, which its path does not follow with a slash. -/
theorem exists_place_of_readText {t : FileTree} {here : Route} {p : Path} {text : String}
    (h : t.readText here p = .ok text) :
    ∃ parent name, t.place here p = .ok (.entry parent name false) := by
  rw [readText, readBytes, lookup] at h
  split at h
  · cases h
  · next content hbytes =>
    split at hbytes
    · cases hbytes
    · cases hbytes
    · next r c hlookup =>
      split at hlookup
      · cases hlookup
      · cases hlookup
      · next parent name slash hplace =>
        split at hlookup
        · cases hlookup
        · cases hlookup
        · cases slash with
          | true => cases hlookup
          | false => exact ⟨parent, name, hplace⟩

/-- What a change of a file's bytes comes to. -/
theorem change_eq_ok {t t' : FileTree} {here : Route} {p : Path} {f : Option ByteArray → ByteArray}
    (h : t.change here p f = .ok t') :
    ∃ parent name, p.routeFrom here = parent ++ [name] ∧ p.fileName? = some name.toList ∧
      t' = t.set (parent ++ [name]) (.file (f (t.fileAt (parent ++ [name])))) := by
  rw [change] at h
  split at h
  · cases h
  · cases h
  · next parent name slash hplace =>
    obtain ⟨hroute, hname⟩ := place_entry hplace
    split at h
    · cases h
    · split at h
      · cases h
      · next content hnode =>
        cases h
        exact ⟨parent, name, hroute, hname, by rw [fileAt, hnode]⟩
      · next hnode =>
        cases h
        exact ⟨parent, name, hroute, hname, by rw [fileAt, hnode]⟩

/-- A file that was changed has the new bytes. -/
theorem fileAt_change {t t' : FileTree} {here : Route} {p : Path}
    {f : Option ByteArray → ByteArray} (h : t.change here p f = .ok t') :
    t'.fileAt (p.routeFrom here) = some (f (t.fileAt (p.routeFrom here))) := by
  obtain ⟨parent, name, hroute, -, rfl⟩ := change_eq_ok h
  rw [hroute, fileAt_set_file _ _ (by simp)]

/-- Changing a file leaves every other file as it was. -/
theorem fileAt_change_of_ne {t t' : FileTree} {here r : Route} {p : Path}
    {f : Option ByteArray → ByteArray} (h : t.change here p f = .ok t')
    (hr : r ≠ p.routeFrom here) : t'.fileAt r = t.fileAt r := by
  obtain ⟨parent, name, hroute, -, rfl⟩ := change_eq_ok h
  rw [hroute] at hr
  exact fileAt_set_of_ne _ _ hr

theorem fileAt_makeDirectory {t t' : FileTree} {here : Route} {p : Path}
    (h : t.makeDirectory here p = .ok t') (r : Route) : t'.fileAt r = t.fileAt r := by
  rw [makeDirectory] at h
  split at h
  · cases h
  · cases h
  · next parent name slash hplace =>
    split at h
    · cases h
    · next hnode =>
      cases h
      by_cases hr : r = parent ++ [name]
      · rw [hr, fileAt, fileAt, node?_set_self _ _ (by simp), hnode]
      · exact fileAt_set_of_ne _ _ hr

theorem fileAt_makeChain (t : FileTree) (here : Route) (paths : List Path) (r : Route) :
    (t.makeChain here paths).1.fileAt r = t.fileAt r := by
  induction paths with
  | nil => rfl
  | cons p parents ih =>
    rw [makeChain]
    split
    · rfl
    split
    · next t' hmake => exact fileAt_makeDirectory hmake r
    · split
      · next t' e hchain =>
        rw [hchain] at ih
        exact ih
      · next t' hchain =>
        rw [hchain] at ih
        split
        · next t'' hmake => rw [fileAt_makeDirectory hmake r, ih]
        · exact ih
    · rfl

/-- Making directories leaves every file as it was. -/
theorem fileAt_makeDirectories (t : FileTree) (here : Route) (p : Path) (r : Route) :
    (t.makeDirectories here p).1.fileAt r = t.fileAt r :=
  fileAt_makeChain t here p.ancestors r

/-- A move brings the bytes of one file to another route and leaves all other files. -/
theorem fileAt_rename {t t' : FileTree} {here : Route} {source target : Path}
    (h : t.rename here source target = .ok t') :
    t'.fileAt (target.routeFrom here) = t.fileAt (source.routeFrom here) ∧
      ∀ r, r ≠ source.routeFrom here → r ≠ target.routeFrom here →
        t'.fileAt r = t.fileAt r := by
  rw [rename] at h
  split at h
  · cases h
  · cases h
  · next source content hlookup =>
    obtain ⟨rfl, hfile⟩ := lookup_file hlookup
    split at h
    · cases h
    · cases h
    · next parent name slash hplace =>
      have hroute := (place_entry hplace).1
      split at h
      · cases h
      · split at h
        · cases h
        · cases h
          rw [hroute]
          refine ⟨by rw [fileAt_set_file _ _ (by simp), hfile], fun r hsource htarget => ?_⟩
          rw [fileAt_set_of_ne _ _ htarget, fileAt_unset_of_ne _ hsource]

/-- The files that a program makes are at the routes of their names; all others stay. -/
theorem fileAt_placeFiles (directory : Path) (made : List (String × Option ByteArray))
    (t : FileTree) (here : Route) {r : Route}
    (h : ∀ file ∈ made, (directory.join ⟨file.1⟩).routeFrom here ≠ r) :
    (Act.placeFiles directory made t here).fileAt r = t.fileAt r := by
  induction made generalizing t with
  | nil => rfl
  | cons file made ih =>
    obtain ⟨name, content⟩ := file
    have hname : r ≠ (directory.join ⟨name⟩).routeFrom here :=
      (h (name, content) List.mem_cons_self).symm
    have hrest := fun t => ih t fun file hfile => h file (List.mem_cons_of_mem _ hfile)
    cases content with
    | none =>
      simp only [Act.placeFiles]
      rw [hrest, fileAt_makeDirectories]
    | some bytes =>
      simp only [Act.placeFiles]
      rw [hrest]
      cases (directory.join ⟨name⟩).parent? with
      | none =>
        split
        · next written hwrite => exact fileAt_change_of_ne hwrite hname
        · rfl
      | some parent =>
        have hparents := fileAt_makeDirectories t here parent r
        split
        · next written hwrite => exact (fileAt_change_of_ne hwrite hname).trans hparents
        · exact hparents

end RepoAudit.FileTree
