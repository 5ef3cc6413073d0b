import RepoAudit.Proofs.Script.Rewriting
import RepoAudit.Proofs.Text.Lines

/-!
# Harmless scripts

A script is harmless when no right-hand side that it assigns as markup needs escaping. An orderly
script, in which no right-hand side holds another assignment, can be rewritten, and a rewritten
script is harmless. It stays so when a text without assignments is put in behind its prologue, as
long as there is no assignment in the prologue, either.

## Main definitions

- `assignedFrom` — the texts behind the assignments of a text
- `Harmless` — a text in which no right-hand side needs escaping
- `IsOrderly` — a script in which every right-hand side stands alone

## Main statements

- `Rewritten.harmless` — a rewritten script is harmless
- `IsOrderly.exists_rewritten` — an orderly script can be rewritten
- `Rewritten.exists_prologue` — the prologue of a rewritten script holds no assignment
-/

namespace RepoAudit.Script

open RepoAudit.Text

variable {before before' : Option Char} {cs cs' rest : List Char}

/-! ## Assignments -/

/-- The right-hand side at the start of a text, behind its blanks. -/
def rightHandSide (rest : List Char) : List Char :=
  trimEnd (expressionAt (trimStart rest))

/-- The texts behind the assignments in the text that follows a character, comparisons apart. -/
def assignedFrom (before : Option Char) (cs : List Char) : List (List Char) :=
  (piecesFrom assignment before 0 cs).filterMap fun
    | .found rest _ => if rest.head? = some '=' then none else some rest
    | .plain _ => none

@[simp] theorem assignedFrom_nil (before : Option Char) : assignedFrom before [] = [] := rfl

theorem assignedFrom_cons {c : Char} (h : assignment before (c :: cs) = none) :
    assignedFrom before (c :: cs) = assignedFrom (some c) cs := by
  rw [assignedFrom, piecesFrom, h]
  rfl

/-- A text in which no assignment starts is passed over. -/
theorem Silent.assignedFrom_append (h : Silent before cs rest) :
    assignedFrom before (cs ++ rest) = assignedFrom (lastAfter before cs) rest := by
  induction cs generalizing before with
  | nil => rfl
  | cons c cs ih =>
    obtain ⟨hhere, hlater⟩ := silent_cons.mp h
    rw [List.cons_append, assignedFrom_cons hhere, ih hlater, lastAfter_cons]

/-- The search is cut at an assignment. -/
theorem Assigns.piecesFrom_append {text : List Char} (h : Assigns text)
    (hword : continuesWord before = false) (rest : List Char) :
    piecesFrom assignment before 0 (text ++ rest) =
      .found rest text :: piecesFrom assignment (lastAfter before text) 0 rest := by
  have hmatch : assignment before (text ++ rest) = some (rest, text.length) :=
    assignment_eq_some.mpr ⟨hword, text, h, rfl, rfl⟩
  obtain ⟨c, tail, rfl⟩ := List.exists_cons_of_ne_nil h.ne_nil
  have hskip := Text.piecesFrom_append (r := assignment) (some c) tail rest
  rw [List.cons_append] at hmatch ⊢
  rw [piecesFrom, hmatch]
  simp only [List.length_cons, Nat.add_sub_cancel, hskip, lastAfter_cons]
  rw [← List.cons_append, ← List.length_cons (a := c), List.take_left]

theorem Assigns.assignedFrom_compared {text : List Char} (h : Assigns text)
    (hword : continuesWord before = false) (hequals : rest.head? = some '=') :
    assignedFrom before (text ++ rest) = assignedFrom (lastAfter before text) rest := by
  rw [assignedFrom, h.piecesFrom_append hword]
  exact List.filterMap_cons_none (if_pos hequals)

theorem Assigns.assignedFrom_assigned {text : List Char} (h : Assigns text)
    (hword : continuesWord before = false) (hequals : rest.head? ≠ some '=') :
    assignedFrom before (text ++ rest) = rest :: assignedFrom (lastAfter before text) rest := by
  rw [assignedFrom, h.piecesFrom_append hword]
  exact List.filterMap_cons_some (if_neg hequals)

theorem assignment_eq_none_of_head? (h : ∀ c ∈ cs.head?, c ≠ 'i' ∧ c ≠ 'o') :
    assignment before cs = none := by
  cases cs with
  | nil =>
    rw [assignment_eq_none_iff]
    intro _ text rest htext hcs
    exact htext.ne_nil (List.append_eq_nil_iff.mp hcs.symm).1
  | cons c cs => exact assignment_eq_none_of_head (h c rfl).1 (h c rfl).2

/-- What stands before a text matters only for an assignment at its start. -/
theorem assignedFrom_congr (h : assignment before cs = assignment before' cs) :
    assignedFrom before cs = assignedFrom before' cs := by
  cases cs with
  | nil => rfl
  | cons c cs => rw [assignedFrom, assignedFrom, piecesFrom, piecesFrom, h]

/-- The expression of a sink is the right-hand side of an assignment. -/
theorem exists_of_mem_sinks {s : Sink} (h : s ∈ sinks cs) :
    ∃ rest ∈ assignedFrom none cs, s.expression = rightHandSide rest := by
  obtain ⟨rest, text, next, line, hmem, hsink⟩ := exists_found_of_mem_sinksOf h
  obtain ⟨hequals, hexpression, -⟩ := expression_of_sinkAfter? hsink
  exact ⟨rest, List.mem_filterMap.mpr ⟨_, hmem, if_neg hequals⟩, hexpression⟩

/-! ## Harmless texts -/

/-- No right-hand side in the text that follows a character needs escaping. -/
def Harmless (before : Option Char) (cs : List Char) : Prop :=
  ∀ rest ∈ assignedFrom before cs, needsEscaping (rightHandSide rest) = false

/-- A harmless script has no sink that needs escaping. -/
theorem Harmless.unsafeSinks_eq_nil (h : Harmless none cs) : unsafeSinks cs = [] := by
  rw [unsafeSinks, List.filter_eq_nil_iff]
  intro s hs
  obtain ⟨rest, hrest, hexpression⟩ := exists_of_mem_sinks hs
  rw [hexpression, h rest hrest]
  exact Bool.false_ne_true

theorem needsEscaping_settle {expression : List Char}
    (h : needsEscaping expression = true → IsTidy expression) :
    needsEscaping (settle expression) = false := by
  rw [settle]
  split
  · next hneeds => exact (h hneeds).needsEscaping_escape hneeds
  · next hsafe => exact Bool.eq_false_iff.mpr hsafe

namespace RightHandSide

variable {gap expression tail tail' : List Char}

/-- What stands behind a right-hand side starts no assignment. -/
theorem head?_tail (h : RightHandSide before gap expression tail) :
    ∀ c ∈ tail.head?, c ≠ 'i' ∧ c ≠ 'o' := by
  obtain ⟨blanks, rest, rfl, -, hblanks, hcloses⟩ := h.exists_tail
  intro c hc
  cases blanks with
  | cons d blanks =>
    obtain rfl := Option.some.inj hc
    have hd := hblanks d List.mem_cons_self
    constructor
    · rintro rfl
      revert hd
      decide
    · rintro rfl
      revert hd
      decide
  | nil =>
    obtain rfl | ⟨d, rest, rfl, hd, -⟩ := hcloses
    · cases hc
    · obtain rfl := Option.some.inj hc
      have hnot : ∀ c ∈ enders, c ≠ 'i' ∧ c ≠ 'o' := by decide
      exact hnot d hd

/-- So it does after it is rewritten, whatever stands before it. -/
theorem assignment_tail (h : RightHandSide before gap expression tail) {b : Option Char}
    (htail : Rewritten b tail tail') (b₁ b₂ : Option Char) :
    assignment b₁ tail' = assignment b₂ tail' := by
  have hhead := h.head?_tail
  rw [← htail.head?_eq] at hhead
  rw [assignment_eq_none_of_head? hhead, assignment_eq_none_of_head? hhead]

/-- Something is assigned, not compared, after it is rewritten. -/
theorem equals_settle (h : RightHandSide before gap expression tail) {b : Option Char}
    (htail : Rewritten b tail tail') :
    (gap ++ (settle expression ++ tail')).head? ≠ some '=' := by
  cases gap with
  | cons c gap => exact h.equals
  | nil =>
    rw [settle]
    split
    · next hneeds =>
      obtain ⟨c, hc, hhead⟩ := (h.tidy hneeds).head?_escape hneeds
      rw [List.nil_append, List.head?_append, hhead]
      rintro hequals
      obtain rfl := Option.some.inj hequals
      exact absurd hc (by decide)
    · have hsame : (expression ++ tail').head? = (expression ++ tail).head? := by
        rw [List.head?_append, List.head?_append, htail.head?_eq]
      rw [List.nil_append, hsame]
      exact h.equals

end RightHandSide

/-- A rewritten script is harmless. -/
theorem Rewritten.harmless (h : Rewritten before cs cs') : Harmless before cs' := by
  induction h with
  | done =>
    intro rest hrest
    cases hrest
  | @plain before c cs cs' hnone h ih =>
    have hkept : assignment before (c :: cs') = none := by
      rw [assignment_eq_none_iff]
      intro hword
      have hsilent : Silent before [c] cs := silent_cons.mpr ⟨hnone, silent_nil _ _⟩
      have hmoved : Silent before [c] cs' := hsilent.transfer h.follows hword
      exact assignment_eq_none_iff.mp (silent_cons.mp hmoved).1 hword
    rw [Harmless, assignedFrom_cons hkept]
    exact ih
  | compared htext hword hequals h ih =>
    rw [Harmless, htext.assignedFrom_compared hword (h.head?_eq.trans hequals)]
    exact ih
  | @assigned before text gap expression tail tail' htext hword hside h ih =>
    have hsilent : Silent (lastAfter before text) (gap ++ settle expression) tail' :=
      hside.silent_settle (by rw [htext.lastAfter_eq]; rfl) h.follows
    have hfound : rightHandSide (gap ++ (settle expression ++ tail')) = settle expression :=
      hside.expression_settle h
    rw [Harmless, htext.assignedFrom_assigned hword (hside.equals_settle h),
      List.forall_mem_cons, hfound, ← List.append_assoc, hsilent.assignedFrom_append,
      assignedFrom_congr (hside.assignment_tail h _ _)]
    exact ⟨needsEscaping_settle hside.tidy, ih⟩

/-! ## Orderly scripts -/

/-- Whether a text is silent can be told place by place. -/
def decidableSilent (before : Option Char) :
    (cs rest : List Char) → Decidable (Silent before cs rest)
  | [], _ => isTrue (silent_nil _ _)
  | c :: cs, rest =>
    match decEq (assignment before (c :: (cs ++ rest))) none, decidableSilent (some c) cs rest with
    | isTrue hhere, isTrue hlater => isTrue (silent_cons.mpr ⟨hhere, hlater⟩)
    | isFalse hhere, _ => isFalse fun h => hhere (silent_cons.mp h).1
    | _, isFalse hlater => isFalse fun h => hlater (silent_cons.mp h).2

instance (before : Option Char) (cs rest : List Char) : Decidable (Silent before cs rest) :=
  decidableSilent before cs rest

/-- What stands behind the right-hand side at the start of a text. -/
def behindSide (rest : List Char) : List Char :=
  (trimStart rest).drop (rightHandSide rest).length

/-- No other assignment starts in the right-hand side at the start of a text that follows an equals
sign, and it can be read on its own if it is escaped. -/
def StandsAlone (rest : List Char) : Prop :=
  Silent (some '=') (indent rest ++ rightHandSide rest) (behindSide rest) ∧
    (needsEscaping (rightHandSide rest) = true → IsTidy (rightHandSide rest))

instance (rest : List Char) : Decidable (StandsAlone rest) :=
  inferInstanceAs (Decidable (_ ∧ _))

/-- Every right-hand side of a script stands alone. -/
def IsOrderly (content : List Char) : Prop :=
  ∀ rest ∈ assignedFrom none content, StandsAlone rest

instance (content : List Char) : Decidable (IsOrderly content) :=
  inferInstanceAs (Decidable (∀ rest ∈ assignedFrom none content, StandsAlone rest))

theorem append_behindSide (rest : List Char) :
    rightHandSide rest ++ behindSide rest = trimStart rest := by
  have hfront : rightHandSide rest <+: trimStart rest :=
    (trimEnd_isPrefix _).trans (List.take_prefix _ _)
  exact List.prefix_iff_eq_append.mp hfront

theorem StandsAlone.rightHandSide (h : StandsAlone rest)
    (hequals : rest.head? ≠ some '=') :
    RightHandSide (some '=') (indent rest) (rightHandSide rest) (behindSide rest) where
  blanks := fun _ => isBlank_of_mem_indent
  head := by
    rw [append_behindSide]
    exact head?_trimStart rest
  equals := by
    rwa [append_behindSide, indent_append_trimStart]
  expression_eq := by
    rw [append_behindSide]
    rfl
  silent := h.1
  tidy := h.2

/-- A text in which every right-hand side stands alone can be rewritten. -/
theorem exists_rewritten (h : ∀ rest ∈ assignedFrom before cs, StandsAlone rest) :
    ∃ cs', Rewritten before cs cs' := by
  induction hlength : cs.length using Nat.strongRecOn generalizing before cs with
  | ind n ih =>
    cases cs with
    | nil => exact ⟨[], .done⟩
    | cons c cs =>
      cases hmatch : assignment before (c :: cs) with
      | none =>
        rw [assignedFrom_cons hmatch] at h
        obtain ⟨cs', hcs'⟩ := ih cs.length (by rw [← hlength]; exact Nat.lt_succ_self _) h rfl
        exact ⟨c :: cs', .plain hmatch hcs'⟩
      | some hit =>
        obtain ⟨rest, k⟩ := hit
        obtain ⟨hword, text, htext, hcs, -⟩ := assignment_eq_some.mp hmatch
        have hpos := List.length_pos_iff.mpr htext.ne_nil
        rw [hcs] at h hlength ⊢
        rw [List.length_append] at hlength
        by_cases hequals : rest.head? = some '='
        · rw [htext.assignedFrom_compared hword hequals] at h
          obtain ⟨rest', hrest⟩ := ih rest.length (by omega) h rfl
          exact ⟨text ++ rest', .compared htext hword hequals hrest⟩
        · rw [htext.assignedFrom_assigned hword hequals, List.forall_mem_cons] at h
          obtain ⟨hside, hlater⟩ := h
          have hrest : rest = indent rest ++ (rightHandSide rest ++ behindSide rest) := by
            rw [append_behindSide, indent_append_trimStart]
          have hsplit : assignedFrom (lastAfter before text) rest =
              assignedFrom (lastAfter before (text ++ (indent rest ++ rightHandSide rest)))
                (behindSide rest) := by
            rw [htext.lastAfter_eq, lastAfter_append, htext.lastAfter_eq]
            conv => lhs; rw [hrest]
            rw [← List.append_assoc, hside.1.assignedFrom_append]
          rw [hsplit] at hlater
          have hshorter : (behindSide rest).length < n := by
            have hlengths := congrArg List.length hrest
            simp only [List.length_append] at hlengths
            omega
          obtain ⟨tail', htail⟩ := ih _ hshorter hlater rfl
          refine ⟨text ++ (indent rest ++ (settle (rightHandSide rest) ++ tail')), ?_⟩
          conv => arg 2; rw [hrest]
          refine .assigned htext hword ?_ htail
          rw [htext.lastAfter_eq]
          exact hside.rightHandSide hequals

/-! ## The prologue -/

/-- The marks with which a shebang line and a directive start. -/
def directiveMarks : List String :=
  ["#!", "'use", "\"use"]

/-- Whether a line starts like a shebang line or a directive. -/
def startsLikeDirective (line : List Char) : Bool :=
  directiveMarks.any fun mark => startsWith (trimStart line) mark.toList

/-- The first lines of a script, as long as they start like directives. -/
def leadingDirectives (content : List Char) : List (List Char) :=
  (splitTerminated content).takeWhile startsLikeDirective

/-- No markup property is named in a line. -/
def NamesNoProperty (line : List Char) : Prop :=
  ∀ property ∈ sinkProperties, contains line property.toList = false

instance (line : List Char) : Decidable (NamesNoProperty line) :=
  inferInstanceAs (Decidable (∀ property ∈ sinkProperties, _))

/-- A line of a text, and what follows it. -/
inductive Line : List Char → List Char → Prop where
  | terminated {front : List Char} (h : '\n' ∉ front) (rest : List Char) :
    Line (front ++ ['\n']) rest
  | last {line : List Char} (h : '\n' ∉ line) (hne : line ≠ []) : Line line []

theorem exists_line (h : cs ≠ []) : ∃ line rest, cs = line ++ rest ∧ Line line rest := by
  by_cases hmem : '\n' ∈ cs
  · obtain ⟨front, rest, rfl, hfront⟩ := List.eq_append_cons_of_mem hmem
    exact ⟨front ++ ['\n'], rest, by simp, .terminated hfront rest⟩
  · exact ⟨cs, [], (List.append_nil cs).symm, .last hmem h⟩

namespace Line

variable {line : List Char}

theorem splitTerminated_eq (h : Line line rest) :
    splitTerminated (line ++ rest) = line :: splitTerminated rest := by
  cases h with
  | terminated hfront rest =>
    rw [List.append_assoc, List.singleton_append, splitTerminated_append_cons hfront]
  | last hline hne =>
    rw [List.append_nil, splitTerminated_of_notMem hline, if_neg hne]
    rfl

theorem ne_nil (h : Line line rest) : line ≠ [] := by
  cases h with
  | terminated hfront rest => simp
  | last hline hne => exact hne

/-- There is no newline in a line but at its end. -/
theorem notMem_of_append {as bs : List Char} (h : Line (as ++ bs) rest) (hbs : bs ≠ []) :
    '\n' ∉ as := by
  generalize hline : as ++ bs = line at h
  cases h with
  | terminated hfront rest =>
    obtain ⟨front, c, rfl⟩ : ∃ front c, bs = front ++ [c] :=
      ⟨_, _, (List.dropLast_concat_getLast hbs).symm⟩
    rw [← List.append_assoc] at hline
    obtain ⟨rfl, -⟩ := List.append_inj' hline rfl
    exact fun hmem => hfront (List.mem_append_left front hmem)
  | last hall hne =>
    rw [← hline] at hall
    exact fun hmem => hall (List.mem_append_left bs hmem)

/-- A text without newlines at the start of a line and what follows it is in the line. -/
theorem isPrefix_of_notMem {as : List Char} (h : Line line rest) (has : '\n' ∉ as)
    (hinit : as <+: line ++ rest) : as <+: line := by
  cases h with
  | terminated hfront rest =>
    rcases List.prefix_or_prefix_of_prefix hinit (List.prefix_append _ rest) with hle | hle
    · exact hle
    · exact absurd (hle.subset (by simp)) has
  | last hline hne => rwa [List.append_nil] at hinit

/-- No assignment starts in a line that names no property. -/
theorem silent (h : Line line rest) (hnames : NamesNoProperty line) (before : Option Char) :
    Silent before line rest := by
  rintro u v rfl hv
  rw [assignment_eq_none_iff]
  rintro - text tail ⟨property, hproperty, blanks, -, sign, -, rfl⟩ hsplit
  have hnot : ¬property.toList <+: v := by
    rintro ⟨more, rfl⟩
    have hinfix : property.toList <:+: u ++ (property.toList ++ more) :=
      ⟨u, more, List.append_assoc _ _ _⟩
    exact Bool.false_ne_true ((hnames property hproperty).symm.trans (contains_iff.mpr hinfix))
  have hproperties : ∀ property ∈ sinkProperties, '\n' ∉ property.toList := by decide
  have hinit : property.toList <+: v ++ rest := by
    rw [hsplit, List.append_assoc, List.append_assoc]
    exact List.prefix_append _ _
  generalize hline : u ++ v = line at h
  cases h with
  | terminated hfront rest =>
    obtain ⟨front, c, rfl⟩ : ∃ front c, v = front ++ [c] :=
      ⟨_, _, (List.dropLast_concat_getLast hv).symm⟩
    rw [← List.append_assoc] at hline
    obtain ⟨rfl, hc⟩ := List.append_inj' hline rfl
    obtain rfl : c = '\n' := (List.cons.inj hc).1
    rcases List.prefix_or_prefix_of_prefix hinit (List.prefix_append _ rest) with hle | hle
    · exact hnot hle
    · exact hproperties property hproperty (hle.subset (by simp))
  | last hall hne =>
    rw [List.append_nil] at hinit
    exact hnot hinit

end Line

theorem startsLikeDirective_iff {line : List Char} : startsLikeDirective line = true ↔
    ∃ mark ∈ directiveMarks, mark.toList <+: trimStart line := by
  simp only [startsLikeDirective, List.any_eq_true, startsWith, List.isPrefixOf_iff_prefix]

/-- A line that belongs to a prologue starts like a directive. -/
theorem prologueOf_cons_of_not {line : List Char} (h : ¬startsLikeDirective line = true)
    (first : Bool) (lines : List (List Char)) : prologueOf first (line :: lines) = [] := by
  rw [prologueOf, if_neg]
  intro hcond
  have hmark : ∀ mark : String, startsWith (trim line) mark.toList = true →
      mark.toList <+: trimStart line := fun mark hstart =>
    (List.isPrefixOf_iff_prefix.mp hstart).trans (trimEnd_isPrefix _)
  refine h (startsLikeDirective_iff.mpr ?_)
  simp only [isDirective, Bool.or_eq_true, Bool.and_eq_true] at hcond
  obtain ⟨-, hshebang⟩ | ⟨hsingle | hdouble, -⟩ := hcond
  · exact ⟨"#!", by decide, hmark "#!" hshebang⟩
  · exact ⟨"'use", by decide, List.IsPrefix.trans (by decide) (hmark "'use " hsingle)⟩
  · exact ⟨"\"use", by decide, List.IsPrefix.trans (by decide) (hmark "\"use " hdouble)⟩

/-- A line starts like a directive after it is rewritten only if it did before. -/
theorem Rewritten.startsLikeDirective_of {line line' rest' : List Char}
    (h : Rewritten before (line ++ rest) (line' ++ rest')) (hline : Line line rest)
    (hline' : Line line' rest') (hstarts : startsLikeDirective line' = true) :
    startsLikeDirective line = true := by
  obtain ⟨mark, hmark, hinit⟩ := startsLikeDirective_iff.mp hstarts
  have hmarks : ∀ mark ∈ directiveMarks, mark.toList ≠ [] ∧ '\n' ∉ mark.toList ∧
      '=' ∉ mark.toList ∧ mark.toList.head?.all (fun c => !isBlank c) = true := by decide
  obtain ⟨hne, hnewline, hequals, hhead⟩ := hmarks mark hmark
  have hsplit := indent_append_trimStart line'
  have hblanks : ∀ c ∈ indent line', isBlank c = true := fun _ => isBlank_of_mem_indent
  have hindent : '\n' ∉ indent line' := by
    rw [← hsplit] at hline'
    refine hline'.notMem_of_append ?_
    rintro hnil
    rw [hnil] at hinit
    exact hne (List.prefix_nil.mp hinit)
  have hfront : indent line' ++ mark.toList <+: line' ++ rest' := by
    refine List.IsPrefix.trans ?_ (List.prefix_append line' rest')
    conv => arg 2; rw [← hsplit]
    exact (List.prefix_append_right_inj _).mpr hinit
  have hkept : indent line' ++ mark.toList <+: line := by
    refine hline.isPrefix_of_notMem (by simp [hindent, hnewline]) (h.isPrefix_of_notMem ?_ hfront)
    intro hmem
    rcases List.mem_append.mp hmem with hmem | hmem
    · exact absurd (hblanks _ hmem) (by decide)
    · exact hequals hmem
  obtain ⟨more, rfl⟩ := hkept
  refine startsLikeDirective_iff.mpr ⟨mark, hmark, ?_⟩
  have hstart : ∀ c ∈ (mark.toList ++ more).head?, isBlank c = false := by
    intro c hc
    obtain ⟨d, ds, hd⟩ := List.exists_cons_of_ne_nil hne
    rw [hd] at hc hhead
    obtain rfl : d = c := Option.some.inj hc
    simpa using hhead
  rw [List.append_assoc, trimStart_append hblanks, trimStart_eq_self hstart]
  exact List.prefix_append _ _

/-- The prologue of a rewritten script holds no assignment, if the lines that start like directives
name no property, and it ends with a line or with the script. -/
theorem Rewritten.exists_prologue (h : Rewritten before cs cs') (first : Bool)
    (hword : continuesWord before = false)
    (hnames : ∀ line ∈ leadingDirectives cs, NamesNoProperty line) :
    ∃ lead rest, (prologueOf first (splitTerminated cs')).flatten = lead ∧ cs' = lead ++ rest ∧
      Silent before lead rest ∧ (rest = [] ∨ continuesWord (lastAfter before lead) = false) := by
  induction hlength : cs.length using Nat.strongRecOn generalizing before cs cs' first with
  | ind n ih =>
    -- A script without a prologue.
    have hempty : prologueOf first (splitTerminated cs') = [] → ∃ lead rest,
        (prologueOf first (splitTerminated cs')).flatten = lead ∧ cs' = lead ++ rest ∧
          Silent before lead rest ∧ (rest = [] ∨ continuesWord (lastAfter before lead) = false) :=
      fun hnil => ⟨[], cs', by rw [hnil]; rfl, rfl, silent_nil _ _, .inr hword⟩
    by_cases hcs : cs = []
    · have hcs' : cs' = [] := List.head?_eq_none_iff.mp (by rw [h.head?_eq, hcs]; rfl)
      exact hempty (by rw [hcs']; rfl)
    obtain ⟨line, rest, rfl, hline⟩ := exists_line hcs
    by_cases hstarts : startsLikeDirective line = true
    · rw [leadingDirectives, hline.splitTerminated_eq, List.takeWhile_cons_of_pos hstarts,
        List.forall_mem_cons] at hnames
      obtain ⟨hline₁, hlater⟩ := hnames
      obtain ⟨ds, rfl, hrest⟩ := h.exists_of_silent (hline.silent hline₁ before)
      have hkept : Line line ds ∧ (ds = [] ∨ continuesWord (lastAfter before line) = false) := by
        cases hline with
        | terminated hfront rest =>
          exact ⟨.terminated hfront ds, .inr (by rw [lastAfter_append]; rfl)⟩
        | last hall hne =>
          obtain rfl : ds = [] := List.head?_eq_none_iff.mp (by rw [hrest.head?_eq]; rfl)
          exact ⟨.last hall hne, .inl rfl⟩
      rw [hkept.1.splitTerminated_eq] at hempty ⊢
      by_cases hcond : prologueOf first (line :: splitTerminated ds) = []
      · exact hempty hcond
      · have hcons : prologueOf first (line :: splitTerminated ds) =
            line :: prologueOf false (splitTerminated ds) := by
          rw [prologueOf] at hcond ⊢
          split
          · rfl
          · next hnot => exact absurd (if_neg hnot) hcond
        rw [hcons]
        obtain rfl | hword' := hkept.2
        · exact ⟨line, [], by simp [splitTerminated, prologueOf], rfl,
            hkept.1.silent hline₁ before, .inl rfl⟩
        · have hpos := List.length_pos_iff.mpr hline.ne_nil
          obtain ⟨lead, rest', hlead, rfl, hsilent, hend⟩ := ih rest.length
            (by rw [← hlength, List.length_append]; omega) hrest false hword' hlater rfl
          refine ⟨line ++ lead, rest', by rw [List.flatten_cons, hlead],
            (List.append_assoc _ _ _).symm, ?_, by rwa [lastAfter_append]⟩
          exact silent_append.mpr ⟨hkept.1.silent hline₁ before, hsilent⟩
    · have hcs' : cs' ≠ [] := by
        rintro rfl
        have hhead := h.head?_eq
        obtain ⟨c, tail, hc⟩ := List.exists_cons_of_ne_nil hcs
        rw [hc] at hhead
        cases hhead
      obtain ⟨line', rest', rfl, hline'⟩ := exists_line hcs'
      refine hempty ?_
      rw [hline'.splitTerminated_eq]
      exact prologueOf_cons_of_not (mt (h.startsLikeDirective_of hline hline') hstarts) _ _

end RepoAudit.Script
