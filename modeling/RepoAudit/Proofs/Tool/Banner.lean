import RepoAudit.Proofs.Json.Extent
import RepoAudit.Proofs.Text.Blank
import RepoAudit.Tool.Report

/-!
# Banners before a report

An analyzer may print a banner before its report. Each analyzer has a bracket that opens its
reports, and its output is read from there. Two of the readers accept more than they look for, and
one looks for two brackets in different ways. So a banner in which the bracket of the report does
not occur is still not always passed: what is read then starts in the banner, and since a document
starts as it ends, it is no document.

## Main definitions

- `Tool.document` — the part of an output that is read
- `Tool.opening?` — the bracket that opens a report
- `Tool.passes` — whether a banner is passed

## Main statements

- `Tool.readChars?_eq_none` — what ends with another bracket than it starts with is no document
- `Tool.findings?_append` — the findings of a report behind a banner
-/

namespace RepoAudit.Tool

open RepoAudit.Text RepoAudit.Json

/-- The part of an output that is read as the document of an analyzer. -/
def document (output : List Char) : Tool → List Char
  | .bandit => fromBracket '{' output
  | .eslint => fromBracket '[' output
  | .brakeman => fromBracket '{' output
  | .pipAudit =>
    if (trimStart output).head? == some '[' then trimStart output else fromBracket '{' output

/-- The character that opens the document of an analyzer. -/
def opening? (output : List Char) (t : Tool) : Option Char :=
  (marks (t.document output)).head?

/-- Whether a banner before a report that a bracket opens is passed. -/
def passes (bracket : Char) (banner : List Char) : Tool → Bool
  | .bandit => bracket == '{' || banner.all isGap
  | .eslint => true
  | .brakeman => bracket == '{' || banner.all isGap
  | .pipAudit =>
    if bracket == '[' then isBlankText banner else (trimStart banner).head? != some '['

/-! ## What is read -/

theorem fromBracket_suffix (bracket : Char) (output : List Char) :
    fromBracket bracket output <:+ output := by
  rw [fromBracket]
  split
  · exact List.suffix_rfl
  · exact List.dropWhile_suffix _

theorem fromBracket_of_notMem {bracket : Char} {output : List Char} (h : bracket ∉ output) :
    fromBracket bracket output = output := by
  have hnil : output.dropWhile (· ≠ bracket) = [] := by
    rw [List.dropWhile_eq_nil_iff]
    intro c hc
    simpa using fun heq : c = bracket => h (heq ▸ hc)
  rw [fromBracket, hnil]

theorem fromBracket_append_cons {bracket : Char} {front : List Char} (h : bracket ∉ front)
    (rest : List Char) : fromBracket bracket (front ++ bracket :: rest) = bracket :: rest := by
  have hdrop : (front ++ bracket :: rest).dropWhile (· ≠ bracket) = bracket :: rest := by
    rw [List.dropWhile_append_of_pos, List.dropWhile_cons_of_neg (by simp)]
    intro c hc
    simpa using fun heq : c = bracket => h (heq ▸ hc)
  rw [fromBracket, hdrop]

theorem head?_fromBracket {bracket : Char} {output : List Char} (h : bracket ∈ output) :
    (fromBracket bracket output).head? = some bracket := by
  obtain ⟨front, rest, rfl, hfront⟩ := List.eq_append_cons_of_mem h
  rw [fromBracket_append_cons hfront]
  rfl

/-- A banner without the bracket of a report is passed on the way to it. -/
theorem fromBracket_append {bracket : Char} {banner report : List Char} (hbanner : bracket ∉ banner)
    (hreport : bracket ∈ report) :
    fromBracket bracket (banner ++ report) = fromBracket bracket report := by
  obtain ⟨front, rest, rfl, hfront⟩ := List.eq_append_cons_of_mem hreport
  have hboth : bracket ∉ banner ++ front := List.not_mem_append hbanner hfront
  rw [fromBracket_append_cons hfront, ← List.append_assoc, fromBracket_append_cons hboth]

theorem isArray_or_isObject_of_fields? {names : List String} {j : Json}
    {fields : List (Option Json)} (h : fields? names j = some fields) :
    (∃ items, j = .array items) ∨ ∃ entries, j = .object entries := by
  cases j with
  | array items => exact .inl ⟨items, rfl⟩
  | object entries => exact .inr ⟨entries, rfl⟩
  | _ => cases h

theorem isArray_of_list? {α : Type} {decode : Json → Option α} {j : Json} {as : List α}
    (h : list? decode j = some as) : ∃ items, j = .array items := by
  cases j with
  | array items => exact ⟨items, rfl⟩
  | _ => cases h

/-- The findings are decoded from the document, which is an array or, for all but one analyzer,
perhaps an object. -/
theorem exists_decode (root : Path) (t : Tool) :
    ∃ decode : Json → Option (List Finding),
      (∀ output, findings? root output t = (readChars? (t.document output)).bind decode) ∧
      ∀ j findings, decode j = some findings →
        (∃ items, j = .array items) ∨ t ≠ .eslint ∧ ∃ entries, j = .object entries := by
  cases t with
  | bandit =>
    refine ⟨_, fun output => rfl, fun j findings h => ?_⟩
    obtain ⟨fields, hfields, -⟩ := Option.bind_eq_some_iff.mp h
    exact (isArray_or_isObject_of_fields? hfields).imp_right fun h => ⟨by decide, h⟩
  | eslint =>
    refine ⟨_, fun output => rfl, fun j findings h => ?_⟩
    obtain ⟨files, hfiles, -⟩ := Option.bind_eq_some_iff.mp h
    exact .inl (isArray_of_list? hfiles)
  | brakeman =>
    refine ⟨_, fun output => rfl, fun j findings h => ?_⟩
    obtain ⟨fields, hfields, -⟩ := Option.bind_eq_some_iff.mp h
    exact (isArray_or_isObject_of_fields? hfields).imp_right fun h => ⟨by decide, h⟩
  | pipAudit =>
    refine ⟨_, fun output => rfl, fun j findings h => ?_⟩
    cases j with
    | array items => exact .inl ⟨items, rfl⟩
    | object entries => exact .inr ⟨by decide, entries, rfl⟩
    | _ => simp [wrappedDependencies?, list?] at h

/-! ## Brackets -/

theorem getLast?_marks_of_suffix {cs whole : List Char} (h : cs <:+ whole) {last : Char}
    (hlast : (marks cs).getLast? = some last) : (marks whole).getLast? = some last := by
  obtain ⟨front, rfl⟩ := h
  rw [marks_append, List.getLast?_append, hlast]
  rfl

/-- What ends with another bracket than it starts with is no document. -/
theorem readChars?_eq_none {cs whole : List Char} {j : Json} {first last : Char}
    (h : cs <:+ whole) (hlast : (marks whole).getLast? = some last)
    (hbrackets : Brackets j first last) (hbracket : first = '[' ∨ first = '{')
    (hne : (marks cs).head? ≠ some first) :
    readChars? cs = none := by
  cases hread : readChars? cs with
  | none => rfl
  | some j' =>
    exfalso
    obtain ⟨first', last', hfirst', hlast', hbrackets'⟩ := marks_of_readChars? hread
    obtain rfl : last' = last := Option.some.inj
      ((getLast?_marks_of_suffix h hlast').symm.trans hlast)
    apply hne
    rw [hfirst']
    rcases hbracket with rfl | rfl
    · rw [hbrackets'.array_first.mpr
        (hbrackets'.array_last.mp (hbrackets.array_last.mpr (hbrackets.array_first.mp rfl)))]
    · rw [hbrackets'.object_first.mpr
        (hbrackets'.object_last.mp (hbrackets.object_last.mpr (hbrackets.object_first.mp rfl)))]

/-! ## Banners -/

theorem notMem_of_isGap {banner : List Char} (h : banner.all isGap = true) : '{' ∉ banner :=
  fun hmem => absurd (List.all_eq_true.mp h _ hmem) (by decide)

theorem head?_marks_append {banner report : List Char} {c : Char}
    (h : (marks banner).head? = some c) : (marks (banner ++ report)).head? = some c := by
  rw [marks_append, List.head?_append, h]
  rfl

theorem head?_marks_of_head? {cs : List Char} {c : Char} (h : cs.head? = some c)
    (hc : isGap c = false) : (marks cs).head? = some c := by
  obtain ⟨rest, rfl⟩ := List.head?_eq_some_iff.mp h
  rw [marks_cons hc]
  rfl

theorem mem_of_head?_marks {cs : List Char} {c : Char} (h : (marks cs).head? = some c) : c ∈ cs :=
  (List.mem_filter.mp (List.mem_of_head? h)).1

/-- What is read from a brace on, or in full if there is none, starts with an array's bracket only
if the text does. -/
theorem head?_marks_fromBracket_ne {banner report : List Char} {c : Char}
    (hbanner : (marks banner).head? = some c) (hc : c ≠ '[') :
    (marks (fromBracket '{' (banner ++ report))).head? ≠ some '[' := by
  by_cases hbrace : '{' ∈ banner ++ report
  · rw [head?_marks_of_head? (head?_fromBracket hbrace) rfl]
    decide
  · rw [fromBracket_of_notMem hbrace, head?_marks_append hbanner]
    simpa using hc

theorem exists_head?_marks {banner : List Char} (h : banner.all isGap = false) :
    ∃ c, (marks banner).head? = some c := by
  obtain ⟨c, hc, hmark⟩ := List.all_eq_false.mp h
  have hmem : c ∈ marks banner := List.mem_filter.mpr ⟨hc, by simpa using hmark⟩
  exact ⟨_, List.head?_eq_some_head (List.ne_nil_of_mem hmem)⟩

/-- What is read of a report behind a banner, if its reader looks for a brace. -/
theorem read_fromBracket_append {report banner : List Char} {j : Json} {first last : Char}
    (hread : readChars? (fromBracket '{' report) = some j)
    (hfirst : (marks (fromBracket '{' report)).head? = some first)
    (hlast : (marks (fromBracket '{' report)).getLast? = some last)
    (hbrackets : Brackets j first last) (hbracket : first = '[' ∨ first = '{')
    (hbanner : first ∉ banner) :
    readChars? (fromBracket '{' (banner ++ report)) =
      if first == '{' || banner.all isGap then some j else none := by
  rcases hbracket with rfl | rfl
  · -- An array: there is no brace in the report, or it would be read from there.
    have hbrace : '{' ∉ report := by
      intro hmem
      rw [head?_marks_of_head? (head?_fromBracket hmem) rfl] at hfirst
      cases hfirst
    rw [fromBracket_of_notMem hbrace] at hread hlast
    cases hgap : banner.all isGap with
    | true =>
      have hboth : '{' ∉ banner ++ report := List.not_mem_append (notMem_of_isGap hgap) hbrace
      rw [fromBracket_of_notMem hboth, if_pos (by decide)]
      exact readChars?_append_gap (List.all_eq_true.mp hgap) hread
    | false =>
      obtain ⟨c, hc⟩ := exists_head?_marks hgap
      have hne : c ≠ '[' := fun heq => hbanner (heq ▸ mem_of_head?_marks hc)
      have hwhole := getLast?_marks_of_suffix (List.suffix_append banner report) hlast
      rw [if_neg (by decide)]
      exact readChars?_eq_none (fromBracket_suffix _ _) hwhole hbrackets (.inl rfl)
        (head?_marks_fromBracket_ne hc hne)
  · have hbrace : '{' ∈ report := (fromBracket_suffix _ _).subset (mem_of_head?_marks hfirst)
    rw [fromBracket_append hbanner hbrace, hread]
    rfl

/-! ## The reader that looks for two brackets -/

theorem isBlank_of_isGap {c : Char} (h : isGap c = true) : isBlank c = true := by
  simp only [isGap, Bool.or_eq_true, beq_iff_eq] at h
  rcases h with ((rfl | rfl) | rfl) | rfl <;> decide

theorem head?_trimStart_of_head?_marks {cs : List Char} {c : Char} (hc : isBlank c = false)
    (h : (marks cs).head? = some c) : (trimStart cs).head? = some c := by
  induction cs with
  | nil => cases h
  | cons d cs ih =>
    by_cases hd : isGap d = true
    · rw [marks_cons_of_isGap hd] at h
      rw [trimStart, List.dropWhile_cons_of_pos (isBlank_of_isGap hd)]
      exact ih h
    · rw [marks_cons (Bool.eq_false_iff.mpr hd), List.head?_cons, Option.some.injEq] at h
      rw [trimStart, List.dropWhile_cons_of_neg (by simp [h, hc]), List.head?_cons, h]

/-- A banner that is not blank starts with a character that no blank covers, and so does the report
behind it. -/
theorem exists_trimStart_append {banner : List Char} (h : isBlankText banner = false) :
    ∃ c rest, trimStart banner = c :: rest ∧ c ∈ banner ∧
      ∀ report, trimStart (banner ++ report) = c :: (rest ++ report) := by
  obtain ⟨c, hc, hblank⟩ := List.all_eq_false.mp h
  have hne : trimStart banner ≠ [] := by
    rw [trimStart, ne_eq, List.dropWhile_eq_nil_iff]
    exact fun hall => hblank (hall c hc)
  obtain ⟨d, rest, hrest⟩ := List.exists_cons_of_ne_nil hne
  refine ⟨d, rest, hrest, ?_, fun report => ?_⟩
  · exact (List.dropWhile_suffix _).subset (hrest ▸ List.mem_cons_self)
  · rw [trimStart, List.dropWhile_append, ← trimStart, hrest]
    rfl

theorem all_isGap_eq_false {banner : List Char} (h : isBlankText banner = false) :
    banner.all isGap = false := by
  obtain ⟨c, hc, hblank⟩ := List.all_eq_false.mp h
  exact List.all_eq_false.mpr ⟨c, hc, fun hgap => hblank (isBlank_of_isGap hgap)⟩

theorem document_of_head? {output : List Char} (h : (trimStart output).head? = some '[') :
    Tool.pipAudit.document output = trimStart output := by
  rw [document, h]
  rfl

theorem document_of_head?_ne {output : List Char} (h : (trimStart output).head? ≠ some '[') :
    Tool.pipAudit.document output = fromBracket '{' output := by
  rw [document, if_neg (by simpa using h)]

/-- A report that is a list behind a banner: only blanks are passed. -/
theorem read_list_append {report banner : List Char} {j : Json} {last : Char}
    (hhead : (trimStart report).head? = some '[')
    (hread : readChars? (trimStart report) = some j)
    (hlast : (marks (trimStart report)).getLast? = some last) (hbrackets : Brackets j '[' last)
    (hbanner : '[' ∉ banner) :
    readChars? (Tool.pipAudit.document (banner ++ report)) =
      if isBlankText banner then some j else none := by
  cases hblank : isBlankText banner with
  | true =>
    have htrim : trimStart (banner ++ report) = trimStart report :=
      trimStart_append (List.all_eq_true.mp hblank) report
    rw [document_of_head? (htrim ▸ hhead), htrim, hread]
    rfl
  | false =>
    -- What is read starts in the banner or at a brace in the list, and no object ends like a list.
    obtain ⟨c, rest, -, hc, htrim⟩ := exists_trimStart_append hblank
    obtain ⟨d, hd⟩ := exists_head?_marks (all_isGap_eq_false hblank)
    have hne : ∀ {e : Char}, e ∈ banner → e ≠ '[' := fun he heq => hbanner (heq ▸ he)
    have hwhole := getLast?_marks_of_suffix
      ((List.dropWhile_suffix _).trans (List.suffix_append banner report)) hlast
    rw [document_of_head?_ne (by rw [htrim]; simpa using hne hc)]
    exact readChars?_eq_none (fromBracket_suffix _ _) hwhole hbrackets (.inl rfl)
      (head?_marks_fromBracket_ne hd (hne (mem_of_head?_marks hd)))

/-- A report that is an object behind a banner: all is passed but what starts like a list. -/
theorem read_object_append {report banner : List Char} {j : Json} {last : Char}
    (hhead : (trimStart report).head? ≠ some '[')
    (hread : readChars? (fromBracket '{' report) = some j)
    (hfirst : (marks (fromBracket '{' report)).head? = some '{')
    (hlast : (marks (fromBracket '{' report)).getLast? = some last)
    (hbrackets : Brackets j '{' last) (hbanner : '{' ∉ banner) :
    readChars? (Tool.pipAudit.document (banner ++ report)) =
      if (trimStart banner).head? != some '[' then some j else none := by
  have hbrace : '{' ∈ report := (fromBracket_suffix _ _).subset (mem_of_head?_marks hfirst)
  cases hblank : isBlankText banner with
  | true =>
    have htrim : trimStart (banner ++ report) = trimStart report :=
      trimStart_append (List.all_eq_true.mp hblank) report
    have hnil : trimStart banner = [] :=
      List.dropWhile_eq_nil_iff.mpr (List.all_eq_true.mp hblank)
    rw [document_of_head?_ne (htrim ▸ hhead), fromBracket_append hbanner hbrace, hread, hnil]
    rfl
  | false =>
    obtain ⟨c, rest, hstart, hc, htrim⟩ := exists_trimStart_append hblank
    by_cases hlist : c = '['
    · -- All is read from the banner on, and no list ends like an object.
      have hhead' : (trimStart (banner ++ report)).head? = some '[' := by rw [htrim, hlist]; rfl
      have hwhole := getLast?_marks_of_suffix
        ((fromBracket_suffix _ _).trans (List.suffix_append banner report)) hlast
      rw [document_of_head? hhead', hstart, hlist]
      refine readChars?_eq_none (List.dropWhile_suffix _) hwhole hbrackets (.inr rfl) ?_
      rw [head?_marks_of_head? hhead' rfl]
      decide
    · have hhead' : (trimStart (banner ++ report)).head? ≠ some '[' := by
        rw [htrim]
        simpa using hlist
      rw [document_of_head?_ne hhead', fromBracket_append hbanner hbrace, hread, hstart,
        if_pos (by simpa using hlist)]

theorem read_pipAudit_append {report banner : List Char} {j : Json} {first last : Char}
    (hread : readChars? (Tool.pipAudit.document report) = some j)
    (hfirst : Tool.pipAudit.opening? report = some first)
    (hlast : (marks (Tool.pipAudit.document report)).getLast? = some last)
    (hbrackets : Brackets j first last) (hbracket : first = '[' ∨ first = '{')
    (hbanner : first ∉ banner) :
    readChars? (Tool.pipAudit.document (banner ++ report)) =
      if Tool.pipAudit.passes first banner then some j else none := by
  rw [opening?] at hfirst
  by_cases hhead : (trimStart report).head? = some '['
  · rw [document_of_head? hhead] at hread hfirst hlast
    rw [head?_marks_of_head? hhead rfl, Option.some.injEq] at hfirst
    subst hfirst
    exact read_list_append hhead hread hlast hbrackets hbanner
  · rw [document_of_head?_ne hhead] at hread hfirst hlast
    rcases hbracket with rfl | rfl
    · -- A list that does not start the report would stand behind a brace.
      exfalso
      by_cases hbrace : '{' ∈ report
      · rw [head?_marks_of_head? (head?_fromBracket hbrace) rfl] at hfirst
        cases hfirst
      · rw [fromBracket_of_notMem hbrace] at hfirst
        exact hhead (head?_trimStart_of_head?_marks (by decide) hfirst)
    · exact read_object_append hhead hread hfirst hlast hbrackets hbanner

/-! ## Findings -/

/-- What is read of a report behind a banner in which its bracket does not occur. -/
theorem read_document_append {report banner : List Char} {t : Tool} {j : Json} {first last : Char}
    (hread : readChars? (t.document report) = some j) (hfirst : t.opening? report = some first)
    (hlast : (marks (t.document report)).getLast? = some last) (hbrackets : Brackets j first last)
    (hbracket : first = '[' ∨ t ≠ .eslint ∧ first = '{') (hbanner : first ∉ banner) :
    readChars? (t.document (banner ++ report)) =
      if t.passes first banner then some j else none := by
  have hshape : first = '[' ∨ first = '{' := hbracket.imp_right And.right
  cases t with
  | bandit => exact read_fromBracket_append hread hfirst hlast hbrackets hshape hbanner
  | brakeman => exact read_fromBracket_append hread hfirst hlast hbrackets hshape hbanner
  | eslint =>
    obtain rfl := hbracket.resolve_right fun h => h.1 rfl
    have hmem : '[' ∈ report := (fromBracket_suffix _ _).subset (mem_of_head?_marks hfirst)
    rw [document, fromBracket_append hbanner hmem]
    exact hread
  | pipAudit => exact read_pipAudit_append hread hfirst hlast hbrackets hshape hbanner

/-- Behind a banner in which the bracket of an accepted report does not occur, the report has the
same findings if the banner is passed, and none are recognized otherwise. -/
theorem findings?_append {root : Path} {report : List Char} {t : Tool} {findings : List Finding}
    (h : findings? root report t = some findings) :
    ∃ bracket, t.opening? report = some bracket ∧ (bracket = '[' ∨ bracket = '{') ∧
      ∀ banner, bracket ∉ banner → findings? root (banner ++ report) t =
        if t.passes bracket banner then some findings else none := by
  obtain ⟨decode, hdecode, hshape⟩ := exists_decode root t
  rw [hdecode] at h
  obtain ⟨j, hread, hfindings⟩ := Option.bind_eq_some_iff.mp h
  obtain ⟨first, last, hfirst, hlast, hbrackets⟩ := marks_of_readChars? hread
  have hbracket : first = '[' ∨ t ≠ .eslint ∧ first = '{' :=
    (hshape j findings hfindings).imp hbrackets.array_first.mpr
      fun h => ⟨h.1, hbrackets.object_first.mpr h.2⟩
  refine ⟨first, hfirst, hbracket.imp_right And.right, fun banner hbanner => ?_⟩
  rw [hdecode, read_document_append hread hfirst hlast hbrackets hbracket hbanner]
  split
  · exact hfindings
  · rfl

/-- A report about one file. -/
def markupReport : List Char :=
  "[\x7b\"filePath\":\"a.js\",\"messages\":[\x7b\"message\":\"innerHTML\"\x7d]\x7d]".toList

theorem findings?_append_markupReport :
    ∃ findings, findings? ⟨"/r"⟩ markupReport .eslint = some findings ∧ findings.length = 1 ∧
      '[' ∉ "Old \x7b\x7d\n".toList ∧
      findings? ⟨"/r"⟩ ("Old \x7b\x7d\n".toList ++ markupReport) .eslint = some findings := by
  have hreport : ((findings? ⟨"/r"⟩ markupReport .eslint).map List.length) = some 1 := by
    decide +kernel
  obtain ⟨findings, hfindings, hlength⟩ := Option.map_eq_some_iff.mp hreport
  obtain ⟨bracket, hopening, -, hbanner⟩ := findings?_append hfindings
  obtain rfl : bracket = '[' := by
    have hfirst : opening? markupReport .eslint = some '[' := by decide +kernel
    exact Option.some.inj (hopening.symm.trans hfirst)
  exact ⟨findings, hfindings, hlength, by decide, hbanner _ (by decide)⟩

/-- The report of one vulnerable dependency, as a list. -/
def listReport : List Char :=
  "[\x7b\"name\":\"a\",\"version\":\"1\",\"vulns\":[\x7b\"id\":\"X\"\x7d]\x7d]".toList

/-- The report of one vulnerable dependency, wrapped in an object. -/
def wrappedReport : List Char :=
  "\x7b\"dependencies\":".toList ++ listReport ++ "\x7d".toList

/-- Both reports are accepted. Behind a banner in which its own bracket does not occur, the list is
never recognized, and the object is not when the banner starts with the other bracket. -/
theorem not_findings?_append_listReport :
    (findings? ⟨"/r"⟩ listReport .pipAudit).isSome ∧
    opening? listReport .pipAudit = some '[' ∧ '[' ∉ "Found 1\n".toList ∧
    (findings? ⟨"/r"⟩ ("Found 1\n".toList ++ listReport) .pipAudit).isNone ∧
    (findings? ⟨"/r"⟩ wrappedReport .pipAudit).isSome ∧
    opening? wrappedReport .pipAudit = some '{' ∧ '{' ∉ "[notice]\n".toList ∧
    (findings? ⟨"/r"⟩ ("[notice]\n".toList ++ wrappedReport) .pipAudit).isNone := by
  refine ⟨?_, ?_, ?_, ?_, ?_, ?_, ?_, ?_⟩ <;> decide +kernel

end RepoAudit.Tool
