import RepoAudit.Proofs.Scan.Agreement
import RepoAudit.Proofs.Scan.Files

/-!
# Scans by profile

A scan under one profile finds what the scan under all of them finds about the profile's weakness,
in the same order: no check reads, skips or reports a file differently because other checks run
beside it. A check of sources has at most one finding in a file, and the check of pins at most one
for an advisory.

## Main definitions

- `Profile.weakness?` — the weakness that the checks of a profile look for

## Main statements

- `Scan.filter_findings` — what a scan under one profile finds about another one's weakness
- `Scan.nodup_routeFrom_files` — no file is looked at twice
- `Scan.findings_partition` — the scans under single profiles are the parts of the scan under all
-/

namespace RepoAudit

/-- The weakness that the checks of a profile look for; the profile that runs them all has none of
its own. -/
def Profile.weakness? : Profile → Option Weakness
  | .markup => some .crossSiteScripting
  | .prompt => some .promptInjection
  | .dependency => some .missingAuthorization
  | .command => some .codeInjection
  | .all => none

theorem Profile.eq_of_weakness?_eq {p q : Profile} (h : p.weakness? = q.weakness?) : p = q := by
  cases p <;> cases q <;> cases h <;> rfl

/-- A list that is filtered and mapped, mapped back to what its members come from. -/
theorem map_filterMap_sublist {α β : Type} {g : α → Option β} {key : β → α}
    (h : ∀ a b, g a = some b → key b = a) (as : List α) :
    ((as.filterMap g).map key).Sublist as := by
  induction as with
  | nil => exact .slnil
  | cons a as ih =>
    cases hg : g a with
    | none =>
      rw [List.filterMap_cons_none hg]
      exact ih.cons a
    | some b =>
      rw [List.filterMap_cons_some hg, List.map_cons, h a b hg]
      exact ih.cons_cons a

variable {s : Scan} {advisories : List Advisory} {files : FileTree} {here : Route} {f : Finding}

namespace SourceCheck

variable {c : SourceCheck}

/-- The findings of a check tell its weakness. -/
theorem weakness_of_mem_findings (h : f ∈ c.findings s files here) :
    f.weakness = some c.weakness := by
  obtain ⟨path, -, text, -, hfinding⟩ := mem_findings.mp h
  obtain ⟨line, -, rfl⟩ := Option.map_eq_some_iff.mp hfinding
  rfl

/-- The findings of a check stand in different files of its language, in the order of the files. -/
theorem map_file_findings_sublist (c : SourceCheck) (s : Scan) (files : FileTree) (here : Route) :
    ((c.findings s files here).map (·.file)).Sublist (s.filesWith c.extensions files here) := by
  refine map_filterMap_sublist (fun path f hf => ?_) _
  split at hf
  · obtain ⟨line, -, rfl⟩ := Option.map_eq_some_iff.mp hf
    rfl
  · cases hf

theorem weakness?_profile (hc : c.IsBuiltIn) : c.profile.weakness? = some c.weakness := by
  rcases hc with rfl | rfl | rfl <;> rfl

end SourceCheck

theorem Advisory.weakness_of_finding? {a : Advisory} {root : Path}
    (h : a.finding? root files here = some f) : f.weakness = some .missingAuthorization := by
  obtain ⟨text, -, hpin⟩ := finding?_eq_some h
  obtain ⟨lead, -, rfl⟩ := Option.map_eq_some_iff.mp hpin
  rfl

namespace Scan

/-! ## One profile -/

/-- A scan under the profile of a check of sources runs that check. -/
theorem findings_profile {c : SourceCheck} (hc : c.IsBuiltIn) :
    s.findings c.profile advisories files here = c.findings s files here := by
  rcases hc with rfl | rfl | rfl <;>
    simp [findings, Profile.covers, SourceCheck.prompt, SourceCheck.markup, SourceCheck.command]

theorem findings_dependency : s.findings .dependency advisories files here =
    advisories.filterMap (Advisory.finding? s.root files here) := by
  simp [findings, Profile.covers, SourceCheck.prompt, SourceCheck.markup, SourceCheck.command]

/-- A scan under all profiles runs their checks one after the other. -/
theorem findings_all : s.findings .all advisories files here =
    [Profile.prompt, .markup, .dependency, .command].flatMap fun p =>
      s.findings p advisories files here := by
  simp [findings, Profile.covers, SourceCheck.prompt, SourceCheck.markup, SourceCheck.command]

theorem exists_isBuiltIn {p : Profile} (hp : p ≠ .all) :
    (∃ c : SourceCheck, c.IsBuiltIn ∧ c.profile = p) ∨ p = .dependency := by
  cases p with
  | markup => exact .inl ⟨.markup, .inr (.inl rfl), rfl⟩
  | prompt => exact .inl ⟨.prompt, .inl rfl, rfl⟩
  | dependency => exact .inr rfl
  | command => exact .inl ⟨.command, .inr (.inr rfl), rfl⟩
  | all => exact absurd rfl hp

/-- The findings of a scan under one profile tell the profile's weakness. -/
theorem weakness_of_mem_findings {p : Profile} (hp : p ≠ .all)
    (h : f ∈ s.findings p advisories files here) : f.weakness = p.weakness? := by
  obtain ⟨c, hc, rfl⟩ | rfl := exists_isBuiltIn hp
  · rw [findings_profile hc] at h
    rw [SourceCheck.weakness_of_mem_findings h, SourceCheck.weakness?_profile hc]
  · rw [findings_dependency] at h
    obtain ⟨a, -, ha⟩ := List.mem_filterMap.mp h
    exact Advisory.weakness_of_finding? ha

/-- A scan under one profile finds nothing about the weakness of another one. -/
theorem filter_findings {p q : Profile} (hq : q ≠ .all) :
    ((s.findings q advisories files here).filter fun f => f.weakness == p.weakness?) =
      if q = p then s.findings q advisories files here else [] := by
  split
  · next hsame =>
    refine List.filter_eq_self.mpr fun f hf => ?_
    rw [weakness_of_mem_findings hq hf, hsame, beq_self_eq_true]
  · next hother =>
    refine List.filter_eq_nil_iff.mpr fun f hf => ?_
    rw [weakness_of_mem_findings hq hf, beq_iff_eq]
    exact fun hsame => hother (Profile.eq_of_weakness?_eq hsame)

/-- A scan under one profile finds what the scan under all of them finds about its weakness. -/
theorem findings_eq_filter {p : Profile} (hp : p ≠ .all) : s.findings p advisories files here =
    (s.findings .all advisories files here).filter fun f => f.weakness == p.weakness? := by
  rw [findings_all, List.filter_flatMap]
  have hparts : ∀ q ∈ [Profile.prompt, .markup, .dependency, .command],
      ((s.findings q advisories files here).filter fun f => f.weakness == p.weakness?) =
        if q = p then s.findings q advisories files here else [] := by
    intro q hq
    refine filter_findings ?_
    rintro rfl
    simp at hq
  rw [List.flatMap_congr hparts]
  cases p with
  | all => exact absurd rfl hp
  | _ => simp

/-- What is found under all profiles is found under exactly one of the others. -/
theorem existsUnique_profile (h : f ∈ s.findings .all advisories files here) :
    ∃! p, p ≠ .all ∧ f ∈ s.findings p advisories files here := by
  rw [findings_all, List.mem_flatMap] at h
  obtain ⟨p, hmem, hf⟩ := h
  have hp : p ≠ .all := by
    rintro rfl
    simp at hmem
  refine ⟨p, ⟨hp, hf⟩, fun q ⟨hq, hfq⟩ => Profile.eq_of_weakness?_eq ?_⟩
  rw [← weakness_of_mem_findings hp hf, ← weakness_of_mem_findings hq hfq]

/-! ## One file -/

theorem nodup_routes (h : files.IsTree) : (s.routes files here).Nodup := by
  rw [routes]
  split
  · exact .nil
  · split
    · exact .nil
    · exact (List.nodup_singleton _).filter _
    · next r _ =>
      exact (List.mergeSort_perm _ _).nodup_iff.mpr ((nodup_routesBelow h r).filter _)

theorem plain_of_mem_routes (h : files.IsTree) {r : Route} (hr : r ∈ s.routes files here) :
    ∀ name ∈ r, Path.IsPlainName name.toList := by
  rw [routes] at hr
  split at hr
  · cases hr
  · split at hr
    · cases hr
    · obtain rfl := List.mem_singleton.mp (List.mem_of_mem_filter hr)
      exact fun name hname => absurd hname List.not_mem_nil
    · rw [List.mem_mergeSort] at hr
      obtain ⟨content, hfile⟩ := (mem_routesBelow_iff h).mp (List.mem_of_mem_filter hr)
      exact fun name hname => h.plain_of_node? hfile name (List.mem_append_right _ hname)

/-- No file is looked at twice. -/
theorem nodup_routeFrom_files (h : files.IsTree) (s : Scan) (here : Route) :
    ((s.files files here).map (·.routeFrom here)).Nodup := by
  rw [Scan.files, List.map_map]
  -- A path leads back to the route that it was made of, as no name in the tree is a dot or empty.
  refine (nodup_routes h).map_on fun r hr r' hr' hsame => ?_
  rw [Function.comp_apply, Function.comp_apply, routeFrom_pathBelow (plain_of_mem_routes h hr),
    routeFrom_pathBelow (plain_of_mem_routes h hr')] at hsame
  exact List.append_cancel_left hsame

/-- A check of sources has at most one finding in a file. -/
theorem nodup_routeFrom_findings (h : files.IsTree) (c : SourceCheck) (s : Scan) (here : Route) :
    ((c.findings s files here).map (·.file.routeFrom here)).Nodup := by
  have hfiles := ((c.map_file_findings_sublist s files here).trans List.filter_sublist).map
    (Path.routeFrom here)
  rw [List.map_map] at hfiles
  exact (nodup_routeFrom_files h s here).sublist hfiles

/-! ## The parts of a scan -/

/-- The scans under single profiles are the parts of the scan under all of them. Each is what the
whole tells about the profile's weakness, in the order of the whole; no finding is in two of them;
the findings about sources stand in files of the language, no two of one part in the same file; and
the findings about pins come from the advisories, at most one from each. -/
theorem findings_partition (htree : files.IsTree) (s : Scan) (advisories : List Advisory)
    (here : Route) :
    (∀ p, p ≠ .all → s.findings p advisories files here =
      (s.findings .all advisories files here).filter fun f => f.weakness == p.weakness?) ∧
    (s.findings .all advisories files here =
      [Profile.prompt, .markup, .dependency, .command].flatMap fun p =>
        s.findings p advisories files here) ∧
    (∀ f ∈ s.findings .all advisories files here,
      ∃! p, p ≠ .all ∧ f ∈ s.findings p advisories files here) ∧
    (∀ c : SourceCheck, c.IsBuiltIn →
      (∀ f ∈ s.findings c.profile advisories files here,
        f.file ∈ s.filesWith c.extensions files here) ∧
      ((s.findings c.profile advisories files here).map (·.file.routeFrom here)).Nodup) ∧
    (s.findings .dependency advisories files here =
      advisories.flatMap fun a => s.findings .dependency [a] files here) ∧
    ∀ a, (s.findings .dependency [a] files here).length ≤ 1 := by
  refine ⟨fun p hp => findings_eq_filter hp, findings_all, fun f hf => existsUnique_profile hf,
    fun c hc => ?_, ?_, fun a => ?_⟩
  · rw [findings_profile hc]
    exact ⟨fun f hf => (c.map_file_findings_sublist s files here).subset (List.mem_map_of_mem hf),
      nodup_routeFrom_findings htree c s here⟩
  · rw [findings_dependency, List.filterMap_eq_flatMap_toList]
    refine List.flatMap_congr fun a _ => ?_
    rw [findings_dependency, List.filterMap_eq_flatMap_toList, List.flatMap_singleton]
  · rw [findings_dependency]
    exact List.length_filterMap_le _ _

/-- A tree with a repository that has something for each check, the script in it twice. -/
def mixedTree : FileTree :=
  ⟨[(["r"], .directory),
    (["r", "a.py"], .file "import openai\nprompt = 'a' + user_input\n".toUTF8),
    (["r", "b.js"], .file "a.innerHTML = 'b' + c;\nd.innerHTML = 'b' + c;\n".toUTF8),
    (["r", "c.rb"], .file "system(\"ls #\x7bx\x7d\")\n".toUTF8),
    (["r", "requirements.txt"], .file "shopify-sdk==1.2.3\n".toUTF8)]⟩

theorem routes_mixedTree : Scan.routes ⟨⟨"r"⟩, [], none⟩ mixedTree [] =
    [["a.py"], ["b.js"], ["c.rb"], ["requirements.txt"]] := by
  have hlookup : mixedTree.lookup [] ⟨"r"⟩ = .ok (["r"], .directory) := rfl
  have hbelow : (routesBelow mixedTree ["r"]).filter (Scan.admits ⟨⟨"r"⟩, [], none⟩) =
      [["a.py"], ["b.js"], ["c.rb"], ["requirements.txt"]] := by decide
  have hsorted : [["a.py"], ["b.js"], ["c.rb"], ["requirements.txt"]].Pairwise
      fun r r' => routeBefore r r' = true := by decide
  rw [routes, if_neg (by decide)]
  dsimp only
  rw [hlookup]
  dsimp only
  rw [hbelow, List.mergeSort_of_pairwise hsorted]

theorem findings_partition_mixedTree :
    let s : Scan := ⟨⟨"r"⟩, [], none⟩
    mixedTree.IsTree ∧
      (s.findings .all Advisory.defaults mixedTree []).map (fun f => (f.weakness, f.line)) =
        [(some .promptInjection, some 2), (some .crossSiteScripting, some 1),
          (some .missingAuthorization, some 1), (some .codeInjection, some 1)] ∧
      (s.findings .markup Advisory.defaults mixedTree []).map (fun f => (f.weakness, f.line)) =
        [(some .crossSiteScripting, some 1)] := by
  intro s
  have htree : mixedTree.IsTree := by decide
  have hall : (s.findings .all Advisory.defaults mixedTree []).map (fun f => (f.weakness, f.line)) =
      [(some .promptInjection, some 2), (some .crossSiteScripting, some 1),
        (some .missingAuthorization, some 1), (some .codeInjection, some 1)] := by
    simp only [s, Scan.findings, SourceCheck.findings, Scan.filesWith, Scan.files,
      routes_mixedTree]
    decide +kernel
  obtain ⟨hfilter, -⟩ := findings_partition htree s Advisory.defaults []
  have hpart := congrArg (List.filter fun found => found.1 == some .crossSiteScripting) hall
  rw [List.filter_map] at hpart
  refine ⟨htree, hall, ?_⟩
  rw [hfilter .markup (by decide)]
  exact hpart

end Scan

end RepoAudit
