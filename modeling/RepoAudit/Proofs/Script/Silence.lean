import RepoAudit.Proofs.Script.Sink
import RepoAudit.Proofs.Script.Tidy

/-!
# Texts without assignments

A text is silent before another one when no assignment of markup starts in it, though one that
started in it could go on behind it. A silent text stays silent when it is escaped: what is put in
between its parts neither starts an assignment nor completes one.

## Main definitions

- `Silent` — no assignment starts in a text
- `Follows` — a text completes no more assignments than another one

## Main statements

- `Silent.transfer` — what stands behind a silent text may change
- `Silent.escape` — an expression is silent after it is escaped
-/

namespace RepoAudit.Script

open RepoAudit.Text

variable {before before' : Option Char} {c : Char} {cs rest rest' : List Char}

/-! ## Silence -/

/-- No assignment starts in a text that stands between a character and another text. -/
def Silent (before : Option Char) (cs rest : List Char) : Prop :=
  ∀ u v, cs = u ++ v → v ≠ [] → assignment (lastAfter before u) (v ++ rest) = none

@[simp] theorem silent_nil (before : Option Char) (rest : List Char) : Silent before [] rest := by
  intro u v huv hv
  exact absurd (List.append_eq_nil_iff.mp huv.symm).2 hv

theorem silent_cons : Silent before (c :: cs) rest ↔
    assignment before (c :: (cs ++ rest)) = none ∧ Silent (some c) cs rest := by
  constructor
  · intro h
    refine ⟨h [] (c :: cs) rfl (List.cons_ne_nil c cs), fun u v huv hv => ?_⟩
    have hlater := h (c :: u) v (by rw [huv, List.cons_append]) hv
    rwa [lastAfter_cons] at hlater
  · rintro ⟨hhere, hlater⟩ u v huv hv
    cases u with
    | nil =>
      rw [List.nil_append] at huv
      rw [← huv]
      exact hhere
    | cons d u =>
      obtain ⟨rfl, rfl⟩ := List.cons.inj huv
      rw [lastAfter_cons]
      exact hlater u v rfl hv

theorem silent_append {cs' : List Char} : Silent before (cs ++ cs') rest ↔
    Silent before cs (cs' ++ rest) ∧ Silent (lastAfter before cs) cs' rest := by
  induction cs generalizing before with
  | nil => simp
  | cons c cs ih =>
    rw [List.cons_append, silent_cons, silent_cons, ih, lastAfter_cons, List.append_assoc, and_assoc]

/-! ## Assignments -/

/-- The characters of an assignment, apart from its blanks. -/
def assignmentMarks : List Char :=
  "innerHTMLouter+=".toList

theorem Assigns.mem_marks {text : List Char} (h : Assigns text) (hc : c ∈ text) :
    c ∈ assignmentMarks ∨ isBlank c = true := by
  obtain ⟨property, hproperty, blanks, hblanks, sign, hsign, rfl⟩ := h
  have hname : ∀ property ∈ sinkProperties, ∀ c ∈ property.toList, c ∈ assignmentMarks := by
    decide
  have hsigns : ∀ sign ∈ assignmentSigns, ∀ c ∈ sign, c ∈ assignmentMarks := by decide
  rcases List.mem_append.mp hc with hc | hc
  · rcases List.mem_append.mp hc with hc | hc
    · exact .inl (hname property hproperty c hc)
    · exact .inr (hblanks c hc)
  · exact .inl (hsigns sign hsign c hc)

/-- An assignment starts like one of the properties. -/
theorem Assigns.exists_start {text : List Char} (h : Assigns text) :
    ∃ c d rest, text = c :: d :: rest ∧ (c = 'i' ∧ d = 'n' ∨ c = 'o' ∧ d = 'u') := by
  obtain ⟨property, hproperty, blanks, -, sign, -, rfl⟩ := h
  simp only [sinkProperties, List.mem_cons, List.not_mem_nil, or_false] at hproperty
  rcases hproperty with rfl | rfl
  · exact ⟨'i', 'n', _, rfl, .inl ⟨rfl, rfl⟩⟩
  · exact ⟨'o', 'u', _, rfl, .inr ⟨rfl, rfl⟩⟩

/-- A plus sign in an assignment is followed by the equals sign at its end. -/
theorem Assigns.eq_of_plus {text as bs : List Char} (h : Assigns text)
    (hplus : text = as ++ '+' :: bs) : bs = ['='] := by
  obtain ⟨property, hproperty, blanks, hblanks, sign, hsign, rfl⟩ := h
  have hname : ∀ property ∈ sinkProperties, '+' ∉ property.toList := by decide
  have hlead : '+' ∉ property.toList ++ blanks := by
    intro hmem
    rcases List.mem_append.mp hmem with hmem | hmem
    · exact hname property hproperty hmem
    · have hblank := hblanks _ hmem
      revert hblank
      decide
  rcases append_eq_append_cases hplus with ⟨v, -, hv⟩ | ⟨v, hv, hlead', hplus'⟩
  · simp only [assignmentSigns, List.mem_cons, List.not_mem_nil, or_false] at hsign
    rcases hsign with rfl | rfl
    · cases v with
      | nil => cases hv
      | cons d v => simp at hv
    · cases v with
      | nil =>
        cases hv
        rfl
      | cons d v =>
        obtain ⟨-, hv⟩ := List.cons.inj hv
        cases v with
        | nil => cases hv
        | cons d v => simp at hv
  · cases v with
    | nil => exact absurd rfl hv
    | cons d v =>
      obtain ⟨rfl, -⟩ := List.cons.inj hplus'
      exact absurd (by rw [hlead']; simp) hlead

theorem assignment_eq_none_iff : assignment before cs = none ↔
    (continuesWord before = false → ∀ text rest, Assigns text → cs ≠ text ++ rest) := by
  constructor
  · rintro h hword text rest htext rfl
    have hsome : assignment before (text ++ rest) = some (rest, text.length) :=
      assignment_eq_some.mpr ⟨hword, text, htext, rfl, rfl⟩
    rw [h] at hsome
    cases hsome
  · intro h
    cases hmatch : assignment before cs with
    | none => rfl
    | some hit =>
      obtain ⟨rest, n⟩ := hit
      obtain ⟨hword, text, htext, hcs, -⟩ := assignment_eq_some.mp hmatch
      exact absurd hcs (h hword text rest htext)

/-- A text that starts with another character starts no assignment. -/
theorem assignment_eq_none_of_head (hi : c ≠ 'i') (ho : c ≠ 'o') :
    assignment before (c :: cs) = none := by
  rw [assignment_eq_none_iff]
  intro hword text rest htext hcs
  obtain ⟨d, e, tail, rfl, ⟨rfl, -⟩ | ⟨rfl, -⟩⟩ := htext.exists_start
  · exact hi (List.cons.inj hcs).1
  · exact ho (List.cons.inj hcs).1

theorem silent_of_forall (h : ∀ c ∈ cs, c ≠ 'i' ∧ c ≠ 'o') (before : Option Char)
    (rest : List Char) : Silent before cs rest := by
  induction cs generalizing before with
  | nil => exact silent_nil _ _
  | cons c cs ih =>
    obtain ⟨⟨hi, ho⟩, hcs⟩ := List.forall_mem_cons.mp h
    exact silent_cons.mpr ⟨assignment_eq_none_of_head hi ho, ih hcs _⟩

theorem silent_of_blanks (h : ∀ c ∈ cs, isBlank c = true) (before : Option Char)
    (rest : List Char) : Silent before cs rest := by
  refine silent_of_forall (fun c hc => ⟨?_, ?_⟩) before rest
  · rintro rfl
    exact absurd (h 'i' hc) (by decide)
  · rintro rfl
    exact absurd (h 'o' hc) (by decide)

/-- What stands before a text does not matter when no assignment starts with the text. -/
theorem Silent.of_head (h : Silent before cs rest) (hhead : ∀ c ∈ cs.head?, c ≠ 'i' ∧ c ≠ 'o') :
    Silent before' cs rest := by
  cases cs with
  | nil => exact silent_nil _ _
  | cons c cs =>
    obtain ⟨hi, ho⟩ := hhead c rfl
    exact silent_cons.mpr ⟨assignment_eq_none_of_head hi ho, (silent_cons.mp h).2⟩

/-- The start of a call of the helper is silent. -/
theorem silent_helper (before : Option Char) (rest : List Char) :
    Silent before "sanitize(".toList rest := by
  have hsplit : "sanitize(".toList = ['s', 'a', 'n'] ++ 'i' :: (['t'] ++ 'i' :: "ze(".toList) := rfl
  have hname : ∀ before c cs, c ≠ 'n' → assignment before ('i' :: c :: cs) = none := by
    intro before c cs hc
    rw [assignment_eq_none_iff]
    rintro - text rest htext hcs
    obtain ⟨d, e, tail, rfl, ⟨-, rfl⟩ | ⟨rfl, -⟩⟩ := htext.exists_start
    · exact hc (List.cons.inj (List.cons.inj hcs).2).1
    · exact absurd (List.cons.inj hcs).1 (by decide)
  rw [hsplit]
  refine silent_append.mpr ⟨silent_of_forall (by decide) _ _, silent_cons.mpr ⟨?_, ?_⟩⟩
  · exact hname _ _ _ (by decide)
  refine silent_append.mpr ⟨silent_of_forall (by decide) _ _, silent_cons.mpr ⟨?_, ?_⟩⟩
  · exact hname _ _ _ (by decide)
  · exact silent_of_forall (by decide) _ _

/-! ## What stands behind -/

/-- Whatever of an assignment may follow a text when another text stands behind it, may follow it
as it was. -/
def Follows (rest rest' : List Char) : Prop :=
  ∀ u v, u ≠ [] → Assigns (u ++ v) → v <+: rest' → v <+: rest

/-- No assignment goes on with a character that is in none. -/
theorem follows_of_head (hmarks : c ∉ assignmentMarks) (hblank : isBlank c = false) :
    Follows rest (c :: cs) := by
  intro u v _ htext hv
  cases v with
  | nil => exact List.nil_prefix
  | cons d v =>
    obtain ⟨rfl, -⟩ := List.cons_prefix_cons.mp hv
    rcases htext.mem_marks (List.mem_append_right u List.mem_cons_self) with hmem | hmem
    · exact absurd hmem hmarks
    · rw [hblank] at hmem
      cases hmem

/-- Nor with a plus sign between blanks. -/
theorem follows_sign : Follows rest (' ' :: '+' :: ' ' :: cs) := by
  intro u v _ htext hv
  obtain rfl | ⟨v₁, rfl, hv₁⟩ := List.prefix_cons_iff.mp hv
  · exact List.nil_prefix
  obtain rfl | ⟨v₂, rfl, hv₂⟩ := List.prefix_cons_iff.mp hv₁
  · -- An assignment does not end with a blank.
    obtain ⟨lead, hlead, -⟩ := htext.eq_append_equals
    have hlast := congrArg List.getLast? hlead
    simp at hlast
  · have hsplit : u ++ ' ' :: '+' :: v₂ = (u ++ [' ']) ++ '+' :: v₂ := by simp
    obtain rfl := htext.eq_of_plus hsplit
    obtain ⟨hblank, -⟩ := List.cons_prefix_cons.mp hv₂
    cases hblank

/-- What stands before and behind a silent text may change. -/
theorem Silent.transfer (h : Silent before cs rest) (hrest : Follows rest rest')
    (hbefore : continuesWord before = false) : Silent before' cs rest' := by
  intro u v hcs hv
  have hnone := h u v hcs hv
  rw [assignment_eq_none_iff] at hnone ⊢
  intro hword text tail htext hsplit
  have hword' : continuesWord (lastAfter before u) = false := by
    cases u with
    | nil => exact hbefore
    | cons c u =>
      rw [lastAfter_cons] at hword ⊢
      exact hword
  rcases append_eq_append_cases hsplit with ⟨w, rfl, hw⟩ | ⟨w, hw, rfl, htail⟩
  · -- The assignment would go on behind the text.
    obtain ⟨more, hmore⟩ := hrest v w hv htext ⟨tail, hw.symm⟩
    refine hnone hword' (v ++ w) more htext ?_
    rw [← hmore, List.append_assoc]
  · exact hnone hword' text (w ++ rest) htext (List.append_assoc _ _ _)

/-! ## Escaping -/

/-- Behind blanks a word is not continued unless it was before them. -/
theorem continuesWord_lastAfter (h : ∀ c ∈ cs, isBlank c = true)
    (hbefore : continuesWord before = false) : continuesWord (lastAfter before cs) = false := by
  cases hlast : cs.getLast? with
  | none =>
    rw [List.getLast?_eq_none_iff.mp hlast, lastAfter_nil]
    exact hbefore
  | some c =>
    rw [lastAfter, hlast]
    exact isWord_of_isBlank (h c (List.mem_of_getLast? hlast))

/-- A silent text stands between blanks when it is trimmed. -/
theorem Silent.exists_trim (h : Silent before cs rest) (hbefore : continuesWord before = false) :
    ∃ b tail, continuesWord b = false ∧ (∀ c ∈ tail, isBlank c = true) ∧ tail <:+ cs ∧
      Silent b (trim cs) (tail ++ rest) := by
  obtain ⟨lead, tail, hcs, hlead, htail⟩ := Text.exists_trim cs
  rw [hcs, List.append_assoc, silent_append, silent_append] at h
  exact ⟨_, tail, continuesWord_lastAfter hlead hbefore, htail, ⟨lead ++ trim cs, hcs.symm⟩, h.2.1⟩

theorem silent_wrap (h : Silent before cs rest) (hbefore : continuesWord before = false) :
    Silent before' (wrap cs) rest' := by
  have hsplit : wrap cs = "sanitize(".toList ++ (cs ++ [')']) := by
    simp [wrap, helperName]
  rw [hsplit]
  refine silent_append.mpr ⟨silent_helper _ _, silent_append.mpr ⟨?_, ?_⟩⟩
  · exact h.transfer (follows_of_head (by decide) (by decide)) hbefore
  · exact silent_of_forall (by decide) _ _

theorem silent_escapeInside (h : Silent before cs rest) (hbefore : continuesWord before = false) :
    Silent before' (escapeInside cs) ('}' :: rest') := by
  obtain ⟨b, tail, hb, -, -, htrim⟩ := h.exists_trim hbefore
  rw [escapeInside]
  split
  · exact htrim.transfer (follows_of_head (by decide) (by decide)) hb
  · exact silent_wrap htrim hb

/-- Up to a brace, a rewritten template starts as the template did. -/
theorem Interpolated.isPrefix {copy : Nat} {cs cs' as : List Char} (h : Interpolated copy cs cs')
    (has : '{' ∉ as) (hinit : as <+: cs') : as <+: cs := by
  have hcons : ∀ {c : Char} {cs cs' : List Char},
      (∀ {as}, '{' ∉ as → as <+: cs' → as <+: cs) →
        ∀ {as}, '{' ∉ as → as <+: c :: cs' → as <+: c :: cs := by
    intro c cs cs' ih as has hinit
    obtain rfl | ⟨as, rfl, hrest⟩ := List.prefix_cons_iff.mp hinit
    · exact List.nil_prefix
    · rw [List.mem_cons, not_or] at has
      exact (List.prefix_cons_inj c).mpr (ih has.2 hrest)
  induction h generalizing as with
  | nil => exact hinit
  | copied h ih => exact hcons ih has hinit
  | backslash h ih => exact hcons ih has hinit
  | plain hc hdollar h ih => exact hcons ih has hinit
  | inside hbraces h ih =>
    refine hcons (fun {as} has hinit => ?_) has hinit
    obtain rfl | ⟨as, rfl, hrest⟩ := List.prefix_cons_iff.mp hinit
    · exact List.nil_prefix
    · exact absurd List.mem_cons_self has

theorem isPrefix_of_notMem {as bs : List Char} (h : as <+: bs ++ rest)
    (hlast : bs.getLast? = some c) (hc : c ∉ as) : as <+: bs := by
  rcases List.prefix_or_prefix_of_prefix h (List.prefix_append bs rest) with has | hbs
  · exact has
  · exact absurd (hbs.subset (List.mem_of_getLast? hlast)) hc

/-- The first character of a rewritten template starts an assignment only if it did before. -/
theorem Interpolated.assignment_eq_none {copy : Nat} {cs cs' : List Char}
    (h : Interpolated copy cs cs') (hlast : cs.getLast? = some backtick)
    (hnone : assignment before (cs ++ rest) = none) (rest' : List Char) :
    assignment before (cs' ++ rest') = none := by
  rw [assignment_eq_none_iff] at hnone ⊢
  intro hword text tail htext hsplit
  have hnot : ∀ c, c ∉ assignmentMarks → isBlank c = false → c ∉ text := by
    intro c hmarks hblank hmem
    rcases htext.mem_marks hmem with hmem | hmem
    · exact hmarks hmem
    · rw [hblank] at hmem
      cases hmem
  have hfront : text <+: cs' ++ rest' := ⟨tail, hsplit.symm⟩
  have hinside := isPrefix_of_notMem hfront (h.getLast?_eq.trans hlast)
    (hnot backtick (by decide) (by decide))
  obtain ⟨more, hmore⟩ := h.isPrefix (hnot '{' (by decide) (by decide)) hinside
  refine hnone hword text (more ++ rest) htext ?_
  rw [← hmore, List.append_assoc]

/-- A silent template is silent after it is rewritten, whatever stands behind it. -/
theorem Interpolated.silent {copy : Nat} {cs cs' : List Char} (h : Interpolated copy cs cs')
    (hsilent : Silent before cs rest) (hlast : ∀ c ∈ cs.getLast?, c = backtick)
    (rest' : List Char) : Silent before cs' rest' := by
  have hcons : ∀ {copy : Nat} {before : Option Char} {c : Char} {cs cs' : List Char},
      Interpolated copy (c :: cs) (c :: cs') → Silent before (c :: cs) rest →
        (∀ d ∈ (c :: cs).getLast?, d = backtick) →
          ((∀ d ∈ cs.getLast?, d = backtick) → Silent (some c) cs' rest') →
            Silent before (c :: cs') rest' := by
    intro copy before c cs cs' h hsilent hlast ih
    obtain ⟨hnone, -⟩ := silent_cons.mp hsilent
    have hend : (c :: cs).getLast? = some backtick := by
      cases hd : (c :: cs).getLast? with
      | none => simp at hd
      | some d => rw [hlast d hd]
    refine silent_cons.mpr ⟨h.assignment_eq_none hend hnone rest', ih fun d hd => hlast d ?_⟩
    rw [List.getLast?_cons, Option.mem_def.mp hd]
    rfl
  induction h generalizing before with
  | nil => exact silent_nil _ _
  | copied h ih => exact hcons (.copied h) hsilent hlast (ih (silent_cons.mp hsilent).2)
  | backslash h ih => exact hcons (.backslash h) hsilent hlast (ih (silent_cons.mp hsilent).2)
  | plain hc hdollar h ih =>
    exact hcons (.plain hc hdollar h) hsilent hlast (ih (silent_cons.mp hsilent).2)
  | @inside inside cs cs' hbraces h ih =>
    obtain ⟨tail, rfl⟩ : ∃ tail, cs' = '}' :: tail := List.head?_eq_some_iff.mp h.head?_eq
    have hinner := (silent_cons.mp (silent_cons.mp hsilent).2).2
    rw [silent_append] at hinner
    have hend : ∀ d ∈ ('}' :: cs).getLast?, d = backtick := by
      intro d hd
      refine hlast d ?_
      rw [← List.cons_append, ← List.cons_append, List.getLast?_append, Option.mem_def.mp hd]
      rfl
    refine silent_cons.mpr ⟨assignment_eq_none_of_head (by decide) (by decide),
      silent_cons.mpr ⟨assignment_eq_none_of_head (by decide) (by decide),
        silent_append.mpr ⟨silent_escapeInside hinner.1 rfl, ?_⟩⟩⟩
    refine (ih hinner.2 hend).of_head ?_
    rintro c ⟨⟩
    decide

/-- A silent operand is silent after it is escaped. -/
theorem silent_escapeOperand {o : List Char} (h : Silent before o rest)
    (hbefore : continuesWord before = false) (htidy : (classify o).IsTidy)
    (hrest : ∀ tail, (∀ c ∈ tail, isBlank c = true) → tail <:+ o → Follows (tail ++ rest) rest') :
    Silent before' (escapeOperand o) rest' := by
  obtain ⟨b, tail, hb, hblanks, hsuffix, htrim⟩ := h.exists_trim hbefore
  have hkept : Silent before' (trim o) rest' := htrim.transfer (hrest tail hblanks hsuffix) hb
  rw [escapeOperand]
  obtain ⟨quote, -, -, hkind⟩ | ⟨hquoted, hkind⟩ | ⟨-, hkind⟩ | hkind := classify_cases o
  · rw [hkind]
    exact hkept
  · rw [hkind] at htidy ⊢
    have hlast : ∀ c ∈ (trim o).getLast?, c = backtick := by
      intro c hc
      exact Option.some.inj (hc.symm.trans (isQuotedBy_iff.mp hquoted).2.2)
    have htemplate := (interpolated_escapeTemplate htidy).silent htrim hlast rest'
    refine htemplate.of_head ?_
    intro c hc
    have hhead := (isQuotedBy_iff.mp (isQuotedBy_escapeTemplate hquoted htidy)).2.1
    obtain rfl := Option.some.inj (hhead.symm.trans hc)
    decide
  · rw [hkind]
    exact hkept
  · rw [hkind]
    exact silent_wrap htrim hb

theorem silent_intercalate {os : List (List Char)} (h : Silent before (['+'].intercalate os) rest)
    (hbefore : continuesWord before = false) (htidy : ∀ o ∈ os, (classify o).IsTidy)
    (hlast : ∀ c ∈ (['+'].intercalate os).getLast?, isBlank c = false)
    (hrest : Follows rest rest') :
    Silent before' ([' ', '+', ' '].intercalate (os.map escapeOperand)) rest' := by
  induction os generalizing before before' with
  | nil => exact silent_nil _ _
  | cons o os ih =>
    obtain ⟨ho, hos⟩ := List.forall_mem_cons.mp htidy
    cases os with
    | nil =>
      rw [List.intercalate_singleton] at h hlast
      rw [List.map_singleton, List.intercalate_singleton]
      refine silent_escapeOperand h hbefore ho fun tail hblanks hsuffix => ?_
      -- There is no blank at the end of the last operand.
      cases hc : tail.getLast? with
      | none =>
        rw [List.getLast?_eq_none_iff.mp hc]
        exact hrest
      | some c =>
        obtain ⟨front, rfl⟩ := hsuffix
        have hnot := hlast c (by rw [List.getLast?_append, hc]; rfl)
        rw [hblanks c (List.mem_of_getLast? hc)] at hnot
        cases hnot
    | cons o' os =>
      rw [List.intercalate_cons_cons] at h hlast
      rw [List.append_assoc, silent_append, List.singleton_append, silent_cons] at h
      obtain ⟨hfirst, -, hlater⟩ := h
      rw [List.map_cons, List.map_cons, List.intercalate_cons_cons, ← List.map_cons]
      have hend : ∀ c ∈ (['+'].intercalate (o' :: os)).getLast?, isBlank c = false := by
        intro c hc
        refine hlast c ?_
        rw [List.getLast?_append, Option.mem_def.mp hc]
        rfl
      rw [List.append_assoc]
      refine silent_append.mpr
        ⟨?_, silent_append.mpr ⟨silent_of_forall (by decide) _ _, ?_⟩⟩
      · exact silent_escapeOperand hfirst hbefore ho fun tail _ _ => follows_sign
      · exact ih hlater rfl hos hend

/-- A silent expression is silent after it is escaped. -/
theorem IsTidy.silent_escape {expression : List Char} (h : IsTidy expression)
    (hneeds : needsEscaping expression = true) (hsilent : Silent before expression rest)
    (hbefore : continuesWord before = false)
    (hlast : ∀ c ∈ expression.getLast?, isBlank c = false) (hrest : Follows rest rest') :
    Silent before' (escape expression) rest' := by
  have hjoin : ['+'].intercalate (operands expression) = expression :=
    intercalate_operandsFrom Nesting.start expression
  rw [escape_eq hneeds]
  rw [← hjoin] at hsilent hlast
  exact silent_intercalate hsilent hbefore h hlast hrest

end RepoAudit.Script
