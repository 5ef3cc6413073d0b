import RepoAudit.Proofs.Script.Acceptance
import RepoAudit.Proofs.Text.Offset

/-!
# Interpolations, counted and read

A template is cut at its interpolations by counting braces, whatever they stand in. The reading of
an expression meets the same interpolations with strings, nested templates and brackets told apart.
Both find the same byte ranges exactly when the braces in each interpolation balance, those of its
strings included, and each is still one piece of code to a reading in which strings end with their
line.

## Main definitions

- `insideRanges` — the byte ranges that are cut out of a template
- `codeRanges` — the byte ranges of the code that a reading enters and leaves in a template
- `IsTemplateLiteral` — a text from a quote of a template to the one that closes it
- `Cuts` — a template and its interpolations, as they are read

## Main statements

- `IsTemplateLiteral.exists_cuts` — every template literal is made of text and interpolations
- `insideRanges_eq_codeRanges_iff` — when counting and reading agree
-/

namespace RepoAudit.Script

open RepoAudit.Text Nesting

/-! ## Ranges -/

/-- The byte ranges of the interpolations among some stretches that start at a byte offset. -/
def insideRanges (offset : Nat) : List Stretch → List (Nat × Nat)
  | [] => []
  | .verbatim cs :: rest => insideRanges (offset + byteLength cs) rest
  | .inside cs :: rest =>
    (offset, offset + byteLength cs) :: insideRanges (offset + byteLength cs) rest

/-- The byte ranges of the code that is entered and left, outermost, in the rest of a template,
given where code that has been entered starts. The template ends when nothing is open around the
text. -/
def codeRangesFrom (lineBound : Bool) (s : Nesting) (offset : Nat) (entered : Option Nat) :
    List Char → List (Nat × Nat)
  | [] => []
  | c :: cs =>
    let t := s.step lineBound c
    let next := offset + c.utf8Size
    if t.outer.length = 0 then []
    else if t.outer.length = 1 then
      (entered.map fun start => (start, offset)).toList ++ codeRangesFrom lineBound t next none cs
    else codeRangesFrom lineBound t next (some (entered.getD next)) cs

/-- The byte ranges of the code that is entered and left, outermost, in a template. -/
def codeRanges (lineBound : Bool) (template : List Char) : List (Nat × Nat) :=
  codeRangesFrom lineBound start 0 none template

/-- A text from a quote that opens a template to the quote that closes it. -/
def IsTemplateLiteral (t : List Char) : Prop :=
  t.head? = some backtick ∧ closesAtEnd start t = true

instance : DecidablePred IsTemplateLiteral :=
  fun t => inferInstanceAs (Decidable (t.head? = some backtick ∧ closesAtEnd start t = true))

/-- How many characters are read before the code of an interpolation is left; none if it is not. -/
def codeLength? (lineBound : Bool) (s : Nesting) : List Char → Option Nat
  | [] => none
  | c :: cs =>
    if (s.step lineBound c).outer.length < 2 then some 0
    else (codeLength? lineBound (s.step lineBound c) cs).map (· + 1)

/-- A text is read as the code of an interpolation: the brace behind it leaves the code, and nothing
in it does. -/
def IsCode (lineBound : Bool) (inside : List Char) : Prop :=
  codeLength? lineBound inInterpolation (inside ++ ['}']) = some inside.length

instance (lineBound : Bool) : DecidablePred (IsCode lineBound) :=
  fun inside => inferInstanceAs
    (Decidable (codeLength? lineBound inInterpolation (inside ++ ['}']) = some inside.length))

/-- What follows the opening quote of a template, from a byte offset on, and its interpolations with
their offsets. -/
inductive Cuts : Nat → List Char → List (Nat × List Char) → Prop where
  | close {offset : Nat} : Cuts offset [backtick] []
  | backslash {offset : Nat} (c : Char) {cs : List Char} {codes : List (Nat × List Char)}
    (h : Cuts (offset + 1 + c.utf8Size) cs codes) : Cuts offset ('\\' :: c :: cs) codes
  | char {offset : Nat} {c : Char} {cs : List Char} {codes : List (Nat × List Char)}
    (hquote : c ≠ backtick) (hslash : c ≠ '\\') (hdollar : ¬(c = '$' ∧ cs.head? = some '{'))
    (h : Cuts (offset + c.utf8Size) cs codes) : Cuts offset (c :: cs) codes
  | code {offset : Nat} {inside cs : List Char} {codes : List (Nat × List Char)}
    (hinside : IsCode false inside) (h : Cuts (offset + 2 + byteLength inside + 1) cs codes) :
    Cuts offset ('$' :: '{' :: (inside ++ '}' :: cs)) ((offset + 2, inside) :: codes)

/-- The byte range of an interpolation. -/
def rangeOf (code : Nat × List Char) : Nat × Nat :=
  (code.1, code.1 + byteLength code.2)

variable {s t : Nesting} {lineBound : Bool} {c : Char} {cs rest : List Char}
  {codes : List (Nat × List Char)} {offset : Nat}

/-! ## Reading the code of an interpolation -/

/-- What a character does to the frames: it leaves them, opens one, changes the counts of code, or
closes the innermost one, and code is closed by a brace alone. -/
theorem step_cases (s : Nesting) (lineBound : Bool) (c : Char) :
    ((s.step lineBound c).frame = s.frame ∧ (s.step lineBound c).outer = s.outer) ∨
    (∃ f, (s.step lineBound c).frame = f ∧ (s.step lineBound c).outer = s.frame :: s.outer) ∨
    (∃ b k b' k', s.frame = .code b k ∧ (s.step lineBound c).frame = .code b' k' ∧
      (s.step lineBound c).outer = s.outer) ∨
    (s.step lineBound c = s.pop ∧ ∀ b k, s.frame = .code b k → c = '}') := by
  obtain ⟨frame, outer, escaped, dollar⟩ := s
  cases escaped with
  | true => exact .inl ⟨rfl, rfl⟩
  | false =>
    cases frame with
    | quoted quote =>
      simp only [step, Bool.false_eq_true, if_false]
      split_ifs
      · exact .inl ⟨rfl, rfl⟩
      · exact .inr (.inr (.inr ⟨rfl, fun _ _ h => by cases h⟩))
      · exact .inl ⟨rfl, rfl⟩
    | template =>
      simp only [step, Bool.false_eq_true, if_false]
      split_ifs
      · exact .inr (.inl ⟨_, rfl, rfl⟩)
      · exact .inl ⟨rfl, rfl⟩
      · exact .inr (.inr (.inr ⟨rfl, fun _ _ h => by cases h⟩))
      · exact .inl ⟨rfl, rfl⟩
    | code brackets braces =>
      simp only [step, stepCode, Bool.false_eq_true, if_false]
      split_ifs with _ _ _ _ _ hclose
      · exact .inr (.inl ⟨_, rfl, rfl⟩)
      · exact .inr (.inl ⟨_, rfl, rfl⟩)
      · exact .inr (.inr (.inl ⟨_, _, _, _, rfl, rfl, rfl⟩))
      · exact .inr (.inr (.inl ⟨_, _, _, _, rfl, rfl, rfl⟩))
      · exact .inr (.inr (.inl ⟨_, _, _, _, rfl, rfl, rfl⟩))
      · cases braces with
        | zero => exact .inr (.inr (.inr ⟨rfl, fun _ _ _ => hclose⟩))
        | succ braces => exact .inr (.inr (.inl ⟨_, _, _, _, rfl, rfl, rfl⟩))
      · exact .inl ⟨rfl, rfl⟩

/-- The code of an interpolation of a template, or something in that code. -/
def InCode (s : Nesting) : Prop :=
  ∃ inner brackets braces,
    s.frame :: s.outer = inner ++ [.code brackets braces, .template, .code 0 0]

theorem inCode_inInterpolation : InCode inInterpolation :=
  ⟨[], 0, 0, rfl⟩

theorem InCode.exists_length (h : InCode s) : ∃ n, s.outer.length = n + 2 := by
  obtain ⟨inner, brackets, braces, hframes⟩ := h
  have hlength := congrArg List.length hframes
  simp only [List.length_cons, List.length_append, List.length_nil] at hlength
  exact ⟨inner.length, by omega⟩

/-- A character stays in the code of an interpolation, or it is the brace that leaves it. -/
theorem InCode.step (h : InCode s) (lineBound : Bool) (c : Char) :
    InCode (s.step lineBound c) ∨
      (c = '}' ∧ s.step lineBound c = inTemplate false false) := by
  obtain ⟨inner, brackets, braces, hframes⟩ := h
  obtain ⟨hframe, houter⟩ | ⟨f, hframe, houter⟩ | ⟨b, k, b', k', hcode, hframe, houter⟩ |
    ⟨hpop, hclose⟩ := step_cases s lineBound c
  · exact .inl ⟨inner, brackets, braces, by rw [hframe, houter, hframes]⟩
  · exact .inl ⟨f :: inner, brackets, braces, by rw [hframe, houter, hframes, List.cons_append]⟩
  · cases inner with
    | nil =>
      obtain ⟨-, htail⟩ := List.cons.inj hframes
      exact .inl ⟨[], b', k', by rw [hframe, houter, htail]; rfl⟩
    | cons g inner =>
      obtain ⟨-, htail⟩ := List.cons.inj hframes
      exact .inl ⟨.code b' k' :: inner, brackets, braces, by rw [hframe, houter, htail]; rfl⟩
  · rw [hpop, pop]
    cases inner with
    | nil =>
      obtain ⟨hcode, htail⟩ := List.cons.inj hframes
      rw [htail]
      exact .inr ⟨hclose _ _ hcode, rfl⟩
    | cons g inner =>
      obtain ⟨-, htail⟩ := List.cons.inj hframes
      rw [htail]
      refine .inl ⟨inner, brackets, braces, ?_⟩
      cases inner <;> rfl

theorem codeLength?_cons_of_inCode (h : InCode (s.step lineBound c)) :
    codeLength? lineBound s (c :: cs) =
      (codeLength? lineBound (s.step lineBound c) cs).map (· + 1) := by
  obtain ⟨n, hn⟩ := h.exists_length
  rw [codeLength?, if_neg (by omega)]

theorem codeLength?_cons_of_leaves (h : s.step lineBound c = inTemplate false false) :
    codeLength? lineBound s (c :: cs) = some 0 := by
  rw [codeLength?, h, if_pos (by decide)]

/-- Where code is left does not depend on what stands behind that place. -/
theorem codeLength?_append {n : Nat} (as bs : List Char) (hn : n < as.length) :
    codeLength? lineBound s (as ++ bs) = some n ↔ codeLength? lineBound s as = some n := by
  induction as generalizing s n with
  | nil => cases hn
  | cons a as ih =>
    rw [List.cons_append, codeLength?, codeLength?]
    split
    · rfl
    · rw [Option.map_eq_some_iff, Option.map_eq_some_iff]
      refine exists_congr fun m => and_congr_left ?_
      rintro rfl
      exact ih (Nat.lt_of_succ_lt_succ hn)

theorem isCode_iff (inside rest : List Char) : IsCode lineBound inside ↔
    codeLength? lineBound inInterpolation (inside ++ '}' :: rest) = some inside.length := by
  have hsplit : inside ++ '}' :: rest = (inside ++ ['}']) ++ rest := by simp
  rw [hsplit, codeLength?_append _ _ (by simp)]
  rfl

/-- Code that has been entered is left where it ends, and the template goes on behind the brace. -/
theorem codeRangesFrom_entered (h : InCode s) (offset entered : Nat) (cs : List Char) :
    codeRangesFrom lineBound s offset (some entered) cs =
      match codeLength? lineBound s cs with
      | some n => (entered, offset + byteLength (cs.take n)) ::
          codeRangesFrom lineBound (inTemplate false false)
            (offset + byteLength (cs.take n) + 1) none (cs.drop (n + 1))
      | none => [] := by
  induction cs generalizing s offset with
  | nil => rfl
  | cons c cs ih =>
    obtain hcode | ⟨rfl, hleaves⟩ := h.step lineBound c
    · obtain ⟨n, hn⟩ := hcode.exists_length
      rw [codeLength?_cons_of_inCode hcode, codeRangesFrom, if_neg (by omega), if_neg (by omega),
        Option.getD_some, ih hcode]
      cases codeLength? lineBound (s.step lineBound c) cs with
      | none => rfl
      | some m => simp [Nat.add_assoc]
    · rw [codeLength?_cons_of_leaves hleaves, codeRangesFrom, hleaves]
      rfl

/-! ## Reading the text of a template -/

/-- At its quote, the template is closed. -/
theorem codeRangesFrom_backtick (dollar : Bool) (offset : Nat) (cs : List Char) :
    codeRangesFrom lineBound (inTemplate false dollar) offset none (backtick :: cs) = [] := by
  have hstep : (inTemplate false dollar).step lineBound backtick = start := by
    cases dollar <;> rfl
  rw [codeRangesFrom, hstep]
  rfl

theorem codeRangesFrom_backslash (dollar : Bool) (offset : Nat) (c : Char) (cs : List Char) :
    codeRangesFrom lineBound (inTemplate false dollar) offset none ('\\' :: c :: cs) =
      codeRangesFrom lineBound (inTemplate false false) (offset + 1 + c.utf8Size) none cs := by
  have hslash : (inTemplate false dollar).step lineBound '\\' = inTemplate true false := by
    cases dollar <;> rfl
  rw [codeRangesFrom, hslash, codeRangesFrom]
  rfl

theorem codeRangesFrom_char {dollar : Bool} (hopen : dollar = true → c ≠ '{')
    (hquote : c ≠ backtick) (hslash : c ≠ '\\') (offset : Nat) (cs : List Char) :
    codeRangesFrom lineBound (inTemplate false dollar) offset none (c :: cs) =
      codeRangesFrom lineBound (inTemplate false (c = '$')) (offset + c.utf8Size) none cs := by
  have hbrace : ¬(dollar = true ∧ c = '{') := fun h => hopen h.1 h.2
  have hstep : (inTemplate false dollar).step lineBound c = inTemplate false (c = '$') := by
    simp [inTemplate, Nesting.step, hbrace, hslash, hquote]
  rw [codeRangesFrom, hstep]
  rfl

theorem codeRangesFrom_dollar (dollar : Bool) (offset : Nat) (cs : List Char) :
    codeRangesFrom lineBound (inTemplate false dollar) offset none ('$' :: '{' :: cs) =
      codeRangesFrom lineBound inInterpolation (offset + 2) (some (offset + 2)) cs := by
  rw [codeRangesFrom_char (fun _ => by decide) (by decide) (by decide), codeRangesFrom]
  rfl

/-! ## Template literals -/

/-- What is closed by the last character of a text leaves the code of an interpolation at a brace,
and the template goes on behind it. -/
theorem InCode.exists_code (h : InCode s) (hcloses : closesAtEnd s cs = true) :
    ∃ inside tail, cs = inside ++ '}' :: tail ∧ codeLength? false s cs = some inside.length ∧
      closesAtEnd (inTemplate false false) tail = true := by
  induction cs generalizing s with
  | nil => cases hcloses
  | cons c cs ih =>
    have hrest : s.step false c ≠ start → closesAtEnd (s.step false c) cs = true := by
      intro hstep
      rw [closesAtEnd, if_neg hstep, Bool.and_eq_true] at hcloses
      exact hcloses.2
    obtain hcode | ⟨rfl, hleaves⟩ := h.step false c
    · have hne : s.step false c ≠ start := by
        intro hstart
        obtain ⟨n, hn⟩ := hcode.exists_length
        rw [hstart] at hn
        cases hn
      obtain ⟨inside, tail, rfl, hlength, htail⟩ := ih hcode (hrest hne)
      refine ⟨c :: inside, tail, rfl, ?_, htail⟩
      rw [codeLength?_cons_of_inCode hcode, hlength]
      rfl
    · rw [hleaves] at hrest
      exact ⟨[], cs, rfl, codeLength?_cons_of_leaves hleaves, hrest (inTemplate_ne_start _ _)⟩

/-- What is closed by the last character of a text is made of text and interpolations. -/
theorem exists_cuts {dollar : Bool} (hdollar : dollar = true → cs.head? ≠ some '{')
    (h : closesAtEnd (inTemplate false dollar) cs = true) (offset : Nat) :
    ∃ codes, Cuts offset cs codes := by
  induction hlength : cs.length using Nat.strongRecOn generalizing dollar cs offset with
  | ind n ih =>
    cases cs with
    | nil => cases h
    | cons c cs =>
      rw [List.length_cons] at hlength
      by_cases hslash : c = '\\'
      · subst hslash
        cases cs with
        | nil => cases dollar <;> cases h
        | cons d cs =>
          rw [closesAtEnd_inTemplate_backslash] at h
          obtain ⟨codes, hcodes⟩ := ih cs.length (by rw [← hlength, List.length_cons]; omega)
            (head?_ne_of_false cs) h (offset + 1 + d.utf8Size) rfl
          exact ⟨codes, .backslash d hcodes⟩
      by_cases hquote : c = backtick
      · subst hquote
        obtain rfl := closesAtEnd_inTemplate_backtick.mp h
        exact ⟨[], .close⟩
      have hopen : dollar = true → c ≠ '{' := fun hd hc => hdollar hd (by rw [hc]; rfl)
      rw [closesAtEnd_inTemplate_char hopen hquote hslash] at h
      by_cases hmark : c = '$' ∧ cs.head? = some '{'
      · obtain ⟨rfl, hhead⟩ := hmark
        obtain ⟨rest, rfl⟩ := List.head?_eq_some_iff.mp hhead
        have henter : closesAtEnd inInterpolation rest = true := by
          rw [← h]
          exact (closesAtEnd_cons (t := inInterpolation) rfl rfl (by decide)).symm
        obtain ⟨inside, tail, rfl, hinside, htail⟩ :=
          inCode_inInterpolation.exists_code henter
        obtain ⟨codes, hcodes⟩ := ih tail.length
          (by rw [← hlength, List.length_cons, List.length_append, List.length_cons]; omega)
          (head?_ne_of_false tail) htail (offset + 2 + byteLength inside + 1) rfl
        exact ⟨_, .code ((isCode_iff inside tail).mpr hinside) hcodes⟩
      · obtain ⟨codes, hcodes⟩ := ih cs.length (by omega)
          (fun hd hhead => hmark ⟨of_decide_eq_true hd, hhead⟩) h (offset + c.utf8Size) rfl
        exact ⟨codes, .char hquote hslash hmark hcodes⟩

/-- Every template literal is made of text and interpolations. -/
theorem IsTemplateLiteral.exists_cuts {t : List Char} (h : IsTemplateLiteral t) :
    ∃ cs codes, t = backtick :: cs ∧ Cuts 1 cs codes := by
  obtain ⟨hhead, hcloses⟩ := h
  obtain ⟨cs, rfl⟩ := List.head?_eq_some_iff.mp hhead
  have hrest : closesAtEnd (inTemplate false false) cs = true := by
    rw [← hcloses]
    exact (closesAtEnd_cons (t := inTemplate false false) rfl rfl (inTemplate_ne_start _ _)).symm
  obtain ⟨codes, hcodes⟩ := Script.exists_cuts (head?_ne_of_false cs) hrest 1
  exact ⟨cs, codes, rfl, hcodes⟩

namespace Cuts

/-- The interpolations are read as code. -/
theorem isCode (h : Cuts offset cs codes) : ∀ code ∈ codes, IsCode false code.2 := by
  induction h with
  | close => simp
  | backslash c h ih => exact ih
  | char hquote hslash hdollar h ih => exact ih
  | code hinside h ih => exact List.forall_mem_cons.mpr ⟨hinside, ih⟩

/-- The bytes of an interpolation are those in its range. -/
theorem between?_eq {lead : List Char} (h : Cuts offset cs codes) (hlead : byteLength lead = offset) :
    ∀ code ∈ codes, between? (rangeOf code).1 (rangeOf code).2 (lead ++ cs) = some code.2 := by
  induction h generalizing lead with
  | close => simp
  | @backslash offset c cs codes h ih =>
    have hnext : byteLength (lead ++ ['\\', c]) = offset + 1 + c.utf8Size := by
      rw [byteLength_append, hlead, Nat.add_assoc]
      rfl
    simpa using ih hnext
  | @char offset c cs codes hquote hslash hdollar h ih =>
    have hnext : byteLength (lead ++ [c]) = offset + c.utf8Size := by
      rw [byteLength_append, hlead]
      rfl
    simpa using ih hnext
  | @code offset inside cs codes hinside h ih =>
    have hopen : byteLength (lead ++ ['$', '{']) = offset + 2 := by
      rw [byteLength_append, hlead]
      rfl
    have hnext : byteLength (lead ++ ['$', '{'] ++ inside ++ ['}']) =
        offset + 2 + byteLength inside + 1 := by
      rw [byteLength_append, byteLength_append, hopen]
      rfl
    have hhere := between?_append (lead ++ ['$', '{']) inside ('}' :: cs)
    rw [hopen] at hhere
    refine List.forall_mem_cons.mpr ⟨by simpa [rangeOf] using hhere, by simpa using ih hnext⟩

/-- A reading finds the interpolations at their places exactly if it reads each as code. -/
theorem codeRangesFrom_eq_iff (h : Cuts offset cs codes) (lineBound : Bool) {dollar : Bool}
    (hdollar : dollar = true → cs.head? ≠ some '{') :
    codeRangesFrom lineBound (inTemplate false dollar) offset none cs = codes.map rangeOf ↔
      ∀ code ∈ codes, IsCode lineBound code.2 := by
  induction h generalizing dollar with
  | close => simp [codeRangesFrom_backtick]
  | backslash c h ih =>
    rw [codeRangesFrom_backslash]
    exact ih (head?_ne_of_false _)
  | char hquote hslash hmark h ih =>
    rw [codeRangesFrom_char (fun hd hc => hdollar hd (by rw [hc]; rfl)) hquote hslash]
    exact ih fun hd hhead => hmark ⟨of_decide_eq_true hd, hhead⟩
  | @code offset inside cs codes hinside h ih =>
    have hiff : IsCode lineBound inside ↔
        codeLength? lineBound inInterpolation (inside ++ '}' :: cs) = some inside.length :=
      isCode_iff inside cs
    rw [codeRangesFrom_dollar, codeRangesFrom_entered inCode_inInterpolation,
      List.forall_mem_cons, List.map_cons, hiff]
    constructor
    · intro heq
      split at heq
      · next n hn =>
        obtain ⟨hhead, htail⟩ := List.cons.inj heq
        -- The code is left where the bytes of the interpolation end.
        have hbytes : byteLength ((inside ++ '}' :: cs).take n) = byteLength inside :=
          Nat.add_left_cancel (Prod.mk.inj hhead).2
        obtain ⟨htake, hdrop⟩ :=
          append_inj_of_byteLength (List.take_append_drop n (inside ++ '}' :: cs)) hbytes
        have hlength : n = inside.length := by
          have htaken := congrArg List.length htake
          have hleft := congrArg List.length hdrop
          rw [List.length_take] at htaken
          rw [List.length_drop, List.length_cons] at hleft
          omega
        subst hlength
        refine ⟨hn, (ih (head?_ne_of_false cs)).mp ?_⟩
        simpa using htail
      · cases heq
    · rintro ⟨hcode, hcodes⟩
      rw [hcode]
      have htail := (ih (head?_ne_of_false cs)).mpr hcodes
      simpa [rangeOf] using htail

end Cuts

/-! ## Counting braces -/

theorem insideRanges_consVerbatim (offset : Nat) (c : Char) (ss : List Stretch) :
    insideRanges offset (consVerbatim c ss) = insideRanges (offset + c.utf8Size) ss := by
  cases ss with
  | nil => rfl
  | cons stretch ss =>
    cases stretch with
    | verbatim cs => rw [consVerbatim, insideRanges, insideRanges, byteLength_cons, Nat.add_assoc]
    | inside cs => rfl

theorem insideRanges_dollar {inside : List Char}
    (h : insideLength 0 (inside ++ rest) = inside.length) (offset : Nat) :
    insideRanges offset (stretchesFrom 0 0 ('$' :: '{' :: (inside ++ rest))) =
      rangeOf (offset + 2, inside) ::
        insideRanges (offset + 2 + byteLength inside) (stretchesFrom 0 0 rest) := by
  rw [stretchesFrom_dollar h]
  rfl

/-- Counting braces finds the interpolations at their places exactly if the braces of each
balance. -/
theorem Cuts.insideRanges_eq_iff (h : Cuts offset cs codes) :
    insideRanges offset (stretchesFrom 0 0 cs) = codes.map rangeOf ↔
      ∀ code ∈ codes, bracesAfter 0 code.2 = some 0 := by
  induction h with
  | close => simp [stretchesFrom, consVerbatim, insideRanges, backtick]
  | backslash c h ih =>
    rw [stretchesFrom_backslash, insideRanges_consVerbatim, stretchesFrom_copied,
      insideRanges_consVerbatim]
    exact ih
  | char hquote hslash hdollar h ih =>
    rw [stretchesFrom_plain hslash hdollar, insideRanges_consVerbatim]
    exact ih
  | @code offset inside cs codes hinside h ih =>
    have hbrace : insideRanges (offset + 2 + byteLength inside) (stretchesFrom 0 0 ('}' :: cs)) =
        insideRanges (offset + 2 + byteLength inside + 1) (stretchesFrom 0 0 cs) := by
      rw [stretchesFrom_plain (by decide) (by simp), insideRanges_consVerbatim]
      rfl
    obtain ⟨counted, rest, hsplit, hlength, hend⟩ := exists_inside 0 (inside ++ '}' :: cs)
    rw [hsplit] at hlength
    rw [List.forall_mem_cons, List.map_cons]
    constructor
    · intro heq
      rw [hsplit, insideRanges_dollar hlength] at heq
      obtain ⟨hhead, htail⟩ := List.cons.inj heq
      have hbytes : byteLength inside = byteLength counted :=
        Nat.add_left_cancel (Prod.mk.inj hhead).2.symm
      obtain ⟨rfl, rfl⟩ := append_inj_of_byteLength hsplit hbytes
      rw [hbrace] at htail
      obtain hnil | ⟨-, -, hbraces⟩ := hend
      · cases hnil
      · exact ⟨hbraces, ih.mp htail⟩
    · rintro ⟨hbraces, hcodes⟩
      have hall : insideLength 0 (inside ++ '}' :: cs) = inside.length := by
        rw [insideLength_append hbraces, insideLength_cons]
        exact Nat.zero_add _
      rw [insideRanges_dollar hall, hbrace, ih.mpr hcodes]

/-! ## Agreement -/

/-- The ranges that are cut out of a template literal are those of the code that is entered and left
in it, whether strings end with their line or not, exactly if each of these ranges holds a text
whose braces balance, wherever they stand, and which is still one piece of code when strings end
with their line. -/
theorem insideRanges_eq_codeRanges_iff {t : List Char} (h : IsTemplateLiteral t) :
    (insideRanges 0 (stretches t) = codeRanges false t ∧
      insideRanges 0 (stretches t) = codeRanges true t) ↔
      ∀ range ∈ codeRanges false t, ∃ inside, between? range.1 range.2 t = some inside ∧
        bracesAfter 0 inside = some 0 ∧ IsCode true inside := by
  obtain ⟨cs, codes, rfl, hcuts⟩ := h.exists_cuts
  have hread : ∀ lineBound, codeRanges lineBound (backtick :: cs) = codes.map rangeOf ↔
      ∀ code ∈ codes, IsCode lineBound code.2 := fun lineBound =>
    hcuts.codeRangesFrom_eq_iff lineBound (head?_ne_of_false cs)
  have hcounted : insideRanges 0 (stretches (backtick :: cs)) = codes.map rangeOf ↔
      ∀ code ∈ codes, bracesAfter 0 code.2 = some 0 := by
    rw [stretches, stretchesFrom_plain (by decide) (fun hmark => absurd hmark.1 (by decide)),
      insideRanges_consVerbatim]
    exact hcuts.insideRanges_eq_iff
  have hquote : byteLength [backtick] = 1 := rfl
  have hbytes := hcuts.between?_eq hquote
  rw [(hread false).mpr hcuts.isCode, List.forall_mem_map]
  constructor
  · rintro ⟨hranges, htrue⟩ code hcode
    exact ⟨code.2, hbytes code hcode, hcounted.mp hranges code hcode,
      (hread true).mp (htrue.symm.trans hranges) code hcode⟩
  · intro hall
    have hcodes : ∀ code ∈ codes, bracesAfter 0 code.2 = some 0 ∧ IsCode true code.2 := by
      intro code hcode
      obtain ⟨inside, hinside, hboth⟩ := hall code hcode
      obtain rfl := Option.some.inj ((hbytes code hcode).symm.trans hinside)
      exact hboth
    have hranges := hcounted.mpr fun code hcode => (hcodes code hcode).1
    have htrue := (hread true).mpr fun code hcode => (hcodes code hcode).2
    exact ⟨hranges, hranges.trans htrue.symm⟩

/-- A template with a nested template, strings and braces inside its interpolations. -/
def nestedTemplate : List Char :=
  "\x60é$\x7bf(\x7ba: \x60<b>$\x7bx\x7d</b>\x60\x7d) + '\x7b\x7d'\x7d-$\x7by\x7d\x60".toList

theorem agrees_nestedTemplate :
    IsTemplateLiteral nestedTemplate ∧
      ((insideRanges 0 (stretches nestedTemplate) = codeRanges false nestedTemplate ∧
        insideRanges 0 (stretches nestedTemplate) = codeRanges true nestedTemplate) ↔
        ∀ range ∈ codeRanges false nestedTemplate, ∃ inside,
          between? range.1 range.2 nestedTemplate = some inside ∧
            bracesAfter 0 inside = some 0 ∧ IsCode true inside) ∧
      codeRanges false nestedTemplate = [(5, 33), (37, 38)] := by
  have hliteral : IsTemplateLiteral nestedTemplate := by decide +kernel
  exact ⟨hliteral, insideRanges_eq_codeRanges_iff hliteral, by decide +kernel⟩

/-- A string with a brace ends the range that is cut out inside of the string. -/
theorem not_agrees_quotedBrace :
    ¬∀ t, IsTemplateLiteral t → insideRanges 0 (stretches t) = codeRanges false t ∧
      insideRanges 0 (stretches t) = codeRanges true t := by
  intro h
  have hranges := (h "\x60a$\x7bf(\"\x7d\")\x7db\x60".toList (by decide +kernel)).1
  exact absurd hranges (by decide +kernel)

end RepoAudit.Script
