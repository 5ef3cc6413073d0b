import RepoAudit.Proofs.Scan.Walk

/-!
# The files of a scan

A scan of a directory lists each file that stands below it once, in the order of a walk, unless the
way to the file leads through a directory that is skipped or a pattern matches. Only a root that is
spelled as a lone dash is not read as a directory, and then nothing is listed.

## Main definitions

- `Scan.IsListed` — what a scan is to list
- `Scan.HasExtension` — a route whose last name has one of some extensions

## Main statements

- `Path.extensionOf?_eq_some_iff` — the extension of a name
- `Scan.routeFrom_pathBelow` — where the path of a listed file leads
- `Scan.files_ofPatterns` — the files that a scan lists
-/

namespace RepoAudit

open RepoAudit.Path

/-! ## Extensions -/

namespace Path

theorem takeWhile_reverse_append {ext : List Char} (h : '.' ∉ ext) (rest : List Char) :
    (ext.reverse ++ rest).takeWhile (· ≠ '.') = ext.reverse ++ rest.takeWhile (· ≠ '.') := by
  refine List.takeWhile_append_of_pos fun c hc => ?_
  rw [decide_eq_true_iff]
  rintro rfl
  exact h (List.mem_reverse.mp hc)

theorem extensionOf?_append {stem ext : List Char} (h : '.' ∉ ext) :
    extensionOf? (stem ++ '.' :: ext) = if stem = [] then none else some ext := by
  have htail : ((stem ++ '.' :: ext).reverse.takeWhile (· ≠ '.')) = ext.reverse := by
    rw [List.reverse_append, List.reverse_cons, List.append_assoc, takeWhile_reverse_append h]
    simp
  rw [extensionOf?, htail]
  by_cases hstem : stem = []
  · simp [hstem]
  · have hlength : ext.length ≠ stem.length + (ext.length + 1) := by omega
    simp [hstem, hlength]

theorem extensionOf?_of_notMem {name : List Char} (h : '.' ∉ name) : extensionOf? name = none := by
  have htail := takeWhile_reverse_append h []
  rw [List.append_nil, List.takeWhile_nil, List.append_nil] at htail
  rw [extensionOf?, htail]
  simp

/-- The extension of a name is what follows its last dot, unless the dot starts the name. -/
theorem extensionOf?_eq_some_iff {name ext : List Char} :
    extensionOf? name = some ext ↔ ∃ stem, stem ≠ [] ∧ '.' ∉ ext ∧ name = stem ++ '.' :: ext := by
  constructor
  · intro h
    by_cases hdot : '.' ∈ name
    · obtain ⟨ext', stem, hreverse, hext'⟩ := List.eq_append_cons_of_mem (List.mem_reverse.mpr hdot)
      have hname : name = stem.reverse ++ '.' :: ext'.reverse := by
        rw [← List.reverse_reverse name, hreverse]
        simp
      rw [hname, extensionOf?_append (by simpa using hext')] at h
      split at h
      · cases h
      · next hstem =>
        obtain rfl := Option.some.inj h
        exact ⟨stem.reverse, hstem, by simpa using hext', hname⟩
    · rw [extensionOf?_of_notMem hdot] at h
      cases h
  · rintro ⟨stem, hstem, hext, rfl⟩
    rw [extensionOf?_append hext, if_neg hstem]

/-! ## Paths of names -/

theorem stepRoute_of_isPlainName {name : String} (h : IsPlainName name.toList) (r : Route) :
    stepRoute r name.toList = r ++ [name] := by
  rw [stepRoute, if_neg (by simpa using h.ne_parent), if_neg (by simp [h.not_isSilent]),
    String.ofList_toList]

/-- A plain name behind a path is the file name. -/
theorem fileName?_entry {name : String} (h : IsPlainName name.toList) (p : Path) :
    (p.entry name).fileName? = some name.toList := by
  obtain ⟨lead, hsegments, -⟩ := segments_entry h.notMem p
  refine fileName?_of_getLast? ?_ h.ne_current h.ne_parent
  rw [hsegments, List.filter_append, List.filter_cons_of_pos (by simpa using h.ne_nil)]
  simp

end Path

namespace Scan

variable {t t' : FileTree} {here base r : Route} {root : Path}

/-- The path of a route leads on from where the root leads. -/
theorem routeFrom_pathBelow (h : ∀ name ∈ r, IsPlainName name.toList) (root : Path)
    (here : Route) : (pathBelow root r).routeFrom here = root.routeFrom here ++ r := by
  induction r using List.reverseRecOn with
  | nil => exact (List.append_nil _).symm
  | append_singleton front name ih =>
    have hname : IsPlainName name.toList := h name (by simp)
    have hfront := ih fun name' hname' => h name' (List.mem_append_left _ hname')
    rw [pathBelow, List.foldl_append, List.foldl_cons, List.foldl_nil,
      routeFrom_entry_of_notMem hname.notMem, stepRoute_of_isPlainName hname, ← List.append_assoc,
      ← hfront]
    rfl

/-- A route whose last name has one of some extensions, up to the case of its ASCII letters. -/
def HasExtension (extensions : List String) (r : Route) : Prop :=
  ∃ name ∈ r.getLast?, ∃ stem ext, name.toList = stem ++ '.' :: ext ∧ stem ≠ [] ∧ '.' ∉ ext ∧
    ∃ x ∈ extensions, x.toList.map Char.toLower = ext.map Char.toLower

theorem hasExtension_pathBelow_iff (h : ∀ name ∈ r, IsPlainName name.toList) (hr : r ≠ [])
    (extensions : List String) :
    Remedy.hasExtension extensions (pathBelow root r) = true ↔ HasExtension extensions r := by
  obtain ⟨front, name, rfl⟩ := List.eq_nil_or_concat' r |>.resolve_left hr
  have hname : (pathBelow root (front ++ [name])).extension? = extensionOf? name.toList := by
    rw [extension?, pathBelow, List.foldl_append, List.foldl_cons, List.foldl_nil,
      fileName?_entry (h name (by simp)), Option.bind_some]
  have hlast : ∀ name', name' ∈ (front ++ [name]).getLast? ↔ name = name' := by simp
  simp only [HasExtension, hlast, exists_eq_left']
  rw [Remedy.hasExtension, hname]
  constructor
  · intro hextension
    split at hextension
    · next ext hext =>
      obtain ⟨stem, hstem, hdot, hsplit⟩ := extensionOf?_eq_some_iff.mp hext
      obtain ⟨x, hx, hsame⟩ := List.any_eq_true.mp hextension
      exact ⟨stem, ext, hsplit, hstem, hdot, x, hx, beq_iff_eq.mp hsame⟩
    · cases hextension
  · rintro ⟨stem, ext, hsplit, hstem, hdot, x, hx, hsame⟩
    rw [extensionOf?_eq_some_iff.mpr ⟨stem, hstem, hdot, hsplit⟩]
    exact List.any_eq_true.mpr ⟨x, hx, beq_iff_eq.mpr hsame⟩

/-- A file that a scan is to list: the way to it leads through no directory that is skipped, and no
pattern that can be read matches it. -/
structure IsListed (t : FileTree) (base : Route) (patterns : List String)
    (storeName : Option String) (r : Route) : Prop where
  isFile : ∃ content, t.node? (base ++ r) = some (.file content)
  entered : ∀ name ∈ r.dropLast, name ≠ "node_modules" ∧ name ≠ ".git" ∧
    name ≠ ".security-auditor" ∧ storeName ≠ some name
  unmatched : ∀ pattern ∈ patterns, ∀ g, Glob.read? pattern = some g →
    g.isMatch (routeBytes r) = false

theorem mem_listing_ofPatterns_iff (h : t.IsTree) (hbase : t.node? base = some .directory)
    (root : Path) (patterns : List String) (storeName : Option String) :
    r ∈ (ofPatterns root patterns storeName).listing t base ↔
      IsListed t base patterns storeName r := by
  have hskips : ∀ name, (ofPatterns root patterns storeName).skips name = false ↔
      name ≠ "node_modules" ∧ name ≠ ".git" ∧ name ≠ ".security-auditor" ∧
        storeName ≠ some name := by
    intro name
    simp [skips, ofPatterns, skippedNames, and_assoc]
  have hexcludes : (∀ g ∈ (ofPatterns root patterns storeName).excludes,
        g.isMatch (routeBytes r) = false) ↔
      ∀ pattern ∈ patterns, ∀ g, Glob.read? pattern = some g →
        g.isMatch (routeBytes r) = false := by
    constructor
    · intro hall pattern hpattern g hg
      exact hall g (List.mem_filterMap.mpr ⟨pattern, hpattern, hg⟩)
    · intro hall g hg
      obtain ⟨pattern, hpattern, hread⟩ := List.mem_filterMap.mp hg
      exact hall pattern hpattern g hread
  rw [mem_listing_iff h hbase, admits_iff, hexcludes]
  constructor
  · rintro ⟨hfile, henters, hunmatched⟩
    exact ⟨hfile, fun name hname => (hskips name).mp (henters name hname), hunmatched⟩
  · rintro ⟨hfile, henters, hunmatched⟩
    exact ⟨hfile, fun name hname => (hskips name).mpr (henters name hname), hunmatched⟩

variable {s : Scan}

theorem plain_of_mem_listing (h : t.IsTree) (hbase : t.node? base = some .directory)
    (hr : r ∈ s.listing t base) : r ≠ [] ∧ ∀ name ∈ r, IsPlainName name.toList := by
  obtain ⟨⟨content, hfile⟩, -⟩ := (mem_listing_iff h hbase).mp hr
  exact ⟨ne_nil_of_file hbase hfile, fun name hname =>
    h.plain_of_node? hfile name (List.mem_append_right _ hname)⟩

/-- Different files have different paths. -/
theorem nodup_map_pathBelow (h : t.IsTree) (hbase : t.node? base = some .directory)
    (root : Path) : ((s.listing t base).map (pathBelow root)).Nodup := by
  refine (nodup_listing h).map_on fun r hr r' hr' hsame => ?_
  have hroute := congrArg (Path.routeFrom []) hsame
  rw [routeFrom_pathBelow (plain_of_mem_listing h hbase hr).2,
    routeFrom_pathBelow (plain_of_mem_listing h hbase hr').2] at hroute
  exact List.append_cancel_left hroute

/-- A root that is spelled as a lone dash is not walked. -/
theorem files_of_dash (hdash : s.root.same dash = true) (t : FileTree) (here : Route) :
    s.files t here = [] := by
  rw [files, routes, if_pos hdash, List.map_nil]

/-- What a scan lists of a directory does not depend on the order of the entries. -/
theorem files_eq_of_perm (h : t.IsTree) (hlookup : t.lookup here s.root = .ok (base, .directory))
    (hbase : t.node? base = some .directory) (hperm : t.entries.Perm t'.entries) :
    s.files t' here = s.files t here := by
  have hnode := h.node?_eq_of_perm hperm
  have h' := h.of_perm hperm
  cases hdash : s.root.same dash with
  | true => rw [files_of_dash hdash, files_of_dash hdash]
  | false =>
    have hlookup' : t'.lookup here s.root = .ok (base, .directory) := by
      rw [← FileTree.lookup_eq_of_node?_eq hnode, hlookup]
    have hbase' : t'.node? base = some .directory := by rw [← hnode, hbase]
    rw [files, files, routes_eq_listing h' hlookup' hbase' hdash,
      routes_eq_listing h hlookup hbase hdash]
    -- Both lists are sorted and have the same members, since the same stands at every route.
    have hmem : ∀ r, r ∈ s.listing t' base ↔ r ∈ s.listing t base := by
      intro r
      rw [mem_listing_iff h' hbase', mem_listing_iff h hbase, hnode]
    rw [eq_of_pairwise_routeBefore hmem (nodup_listing h') (nodup_listing h)
      (pairwise_listing h') (pairwise_listing h)]

/-- A scan lists all that it is to list unless its root is spelled as a lone dash. -/
theorem files_eq_listing_iff (h : t.IsTree)
    (hlookup : t.lookup here s.root = .ok (base, .directory))
    (hbase : t.node? base = some .directory) :
    s.files t here = (s.listing t base).map (pathBelow s.root) ↔
      s.root.same dash = false ∨ s.listing t base = [] := by
  cases hdash : s.root.same dash with
  | false =>
    refine iff_of_true ?_ (.inl rfl)
    rw [files, routes_eq_listing h hlookup hbase hdash]
  | true =>
    rw [files_of_dash hdash, eq_comm, List.map_eq_nil_iff]
    simp only [Bool.true_eq_false, false_or]

/-- The files with an extension are those that are listed and whose name has it. -/
theorem mem_filesWith_iff (h : t.IsTree) (hbase : t.node? base = some .directory)
    (hr : r ∈ s.listing t base) (extensions : List String) :
    pathBelow s.root r ∈ s.filesWith extensions t here ↔
      pathBelow s.root r ∈ s.files t here ∧ HasExtension extensions r := by
  obtain ⟨hne, hplain⟩ := plain_of_mem_listing h hbase hr
  rw [filesWith, List.mem_filter, hasExtension_pathBelow_iff hplain hne]

/-- The files that a scan lists are those below its root that it is to list, each once, in the order
of a walk, whatever the order of the entries; those with an extension are a part of them. Only a
root that is spelled as a lone dash has none. -/
theorem files_ofPatterns (htree : t.IsTree)
    (hlookup : t.lookup here root = .ok (base, .directory))
    (hbase : t.node? base = some .directory) (patterns : List String) (storeName : Option String) :
    let s := ofPatterns root patterns storeName
    let listed := (s.listing t base).map (pathBelow root)
    (∀ r, r ∈ s.listing t base ↔ IsListed t base patterns storeName r) ∧
      (∀ r ∈ s.listing t base, (pathBelow root r).routeFrom here = base ++ r) ∧ listed.Nodup ∧
      (s.files t here = listed ↔
        root.same dash = false ∨ ∀ r, ¬IsListed t base patterns storeName r) ∧
      (root.same dash = true → s.files t here = []) ∧
      (∀ t', t.entries.Perm t'.entries → s.files t' here = s.files t here) ∧
      ∀ extensions, (s.filesWith extensions t here).Sublist (s.files t here) ∧
        ∀ r ∈ s.listing t base, pathBelow root r ∈ s.filesWith extensions t here ↔
          pathBelow root r ∈ s.files t here ∧ HasExtension extensions r := by
  intro s listed
  have hmem : ∀ r, r ∈ s.listing t base ↔ IsListed t base patterns storeName r := fun r =>
    mem_listing_ofPatterns_iff htree hbase root patterns storeName
  have hroot : s.root = root := rfl
  have hnil : s.listing t base = [] ↔ ∀ r, ¬IsListed t base patterns storeName r := by
    rw [List.eq_nil_iff_forall_not_mem]
    exact forall_congr' fun r => not_congr (hmem r)
  have hbelow := FileTree.routeFrom_of_lookup hlookup
  rw [← hroot] at hlookup
  refine ⟨hmem, fun r hr => ?_, nodup_map_pathBelow htree hbase root, ?_, fun hdash => ?_,
    fun t' => files_eq_of_perm htree hlookup hbase, fun extensions => ⟨List.filter_sublist, ?_⟩⟩
  · rw [routeFrom_pathBelow (plain_of_mem_listing htree hbase hr).2, hbelow]
  · rw [← hnil]
    exact files_eq_listing_iff htree hlookup hbase
  · rw [← hroot] at hdash
    exact files_of_dash hdash t here
  · exact fun r hr => mem_filesWith_iff htree hbase hr extensions

/-- A directory with a source, and with another one in a directory that no scan enters. -/
def sourceTree (top : String) : FileTree :=
  ⟨[([top], .directory), ([top, "node_modules", "b.js"], .file ByteArray.empty),
    ([top, "a.js"], .file ByteArray.empty), ([top, "node_modules"], .directory)]⟩

theorem files_ofPatterns_sourceTree :
    (sourceTree "shop").IsTree ∧
      (sourceTree "shop").lookup [] ⟨"shop"⟩ = .ok (["shop"], .directory) ∧
      (sourceTree "shop").node? ["shop"] = some .directory ∧
      pathBelow ⟨"shop"⟩ ["a.js"] ∈
        (ofPatterns ⟨"shop"⟩ ["["] (some "state")).filesWith ["JS"] (sourceTree "shop") [] ∧
      pathBelow ⟨"shop"⟩ ["node_modules", "b.js"] ∉
        (ofPatterns ⟨"shop"⟩ ["["] (some "state")).files (sourceTree "shop") [] := by
  have htree : (sourceTree "shop").IsTree := by decide
  have hlookup : (sourceTree "shop").lookup [] ⟨"shop"⟩ = .ok (["shop"], .directory) := rfl
  have hbase : (sourceTree "shop").node? ["shop"] = some .directory := by decide
  obtain ⟨hmem, hbelow, -, hfiles, -, -, hwith⟩ :=
    files_ofPatterns htree hlookup hbase ["["] (some "state")
  have hlisted : IsListed (sourceTree "shop") ["shop"] ["["] (some "state") ["a.js"] := by
    refine ⟨⟨_, rfl⟩, by decide, fun pattern hpattern g hg => ?_⟩
    -- A pattern that cannot be read leaves nothing out.
    have hunread : (Glob.read? "[").isNone = true := by decide
    rw [List.mem_singleton.mp hpattern] at hg
    rw [hg] at hunread
    cases hunread
  have hshop := hfiles.mpr (.inl (by decide))
  refine ⟨htree, hlookup, hbase, ?_, fun hskipped => ?_⟩
  · rw [(hwith ["JS"]).2 _ ((hmem _).mpr hlisted), hshop]
    refine ⟨List.mem_map_of_mem ((hmem _).mpr hlisted), "a.js", rfl, ['a'], ['j', 's'], ?_⟩
    decide
  · rw [hshop] at hskipped
    obtain ⟨r, hr, hsame⟩ := List.mem_map.mp hskipped
    have hleads : (pathBelow ⟨"shop"⟩ ["node_modules", "b.js"]).routeFrom [] =
        ["shop", "node_modules", "b.js"] := by decide
    have hroute := hbelow r hr
    rw [hsame, hleads] at hroute
    obtain rfl := (List.cons.inj hroute).2
    exact (((hmem _).mp hr).entered "node_modules" (by decide)).1 rfl

/-- A scan of a directory that is spelled as a lone dash does not list the file in it, and one of
the same directory spelled with a dot before it does. -/
theorem not_mem_files_dash :
    (sourceTree "-").IsTree ∧ (sourceTree "-").lookup [] ⟨"-"⟩ = .ok (["-"], .directory) ∧
      (sourceTree "-").lookup [] ⟨"./-"⟩ = .ok (["-"], .directory) ∧
      IsListed (sourceTree "-") ["-"] [] none ["a.js"] ∧
      pathBelow ⟨"-"⟩ ["a.js"] ∉ (ofPatterns ⟨"-"⟩ [] none).files (sourceTree "-") [] ∧
      pathBelow ⟨"./-"⟩ ["a.js"] ∈ (ofPatterns ⟨"./-"⟩ [] none).files (sourceTree "-") [] := by
  have htree : (sourceTree "-").IsTree := by decide
  have hlookup : (sourceTree "-").lookup [] ⟨"./-"⟩ = .ok (["-"], .directory) := rfl
  have hbase : (sourceTree "-").node? ["-"] = some .directory := by decide
  have hlisted : IsListed (sourceTree "-") ["-"] [] none ["a.js"] :=
    ⟨⟨_, rfl⟩, by decide, fun pattern hpattern => nomatch hpattern⟩
  have hmem := (mem_listing_ofPatterns_iff htree hbase ⟨"./-"⟩ [] none).mpr hlisted
  refine ⟨htree, rfl, hlookup, hlisted, ?_, ?_⟩
  · rw [files_of_dash (by decide)]
    exact List.not_mem_nil
  · rw [files, routes_eq_listing htree hlookup hbase (by decide)]
    exact List.mem_map_of_mem hmem

end Scan

end RepoAudit
