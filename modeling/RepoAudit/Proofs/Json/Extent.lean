import Mathlib.Data.List.TakeWhile
import RepoAudit.Proofs.Json.RoundTrip

/-!
# Where a value starts and ends

A value is read from a part of the text, which its first and its last character tell apart: an array
is the only value that starts with an opening bracket and the only one that ends with a closing one,
and so is an object with its braces. So the last mark of a document tells what its first one is, and
the other way round.

## Main definitions

- `Json.Frames` — the texts that values are read from
- `Json.marks` — the characters of a text that are no gaps

## Main statements

- `Json.frames_of_read` — what is read is framed
- `Json.marks_of_readChars?` — the first and the last mark of a document
- `Json.readChars?_append_gap` — gaps before a document do not matter
-/

namespace RepoAudit.Json

open RepoAudit.Text

/-- A character that a number may have. -/
def isNumeral (c : Char) : Bool :=
  c.isDigit || c == '-' || c == '+' || c == '.' || c == 'e' || c == 'E'

/-- The characters of a text that are no gaps. -/
def marks (cs : List Char) : List Char :=
  cs.filter fun c => !isGap c

/-- The first and the last mark of a text, as they tell an array or an object from other values. -/
structure Brackets (j : Json) (first last : Char) : Prop where
  /-- An array starts with a bracket. -/
  array_first : first = '[' ↔ ∃ items, j = .array items
  /-- An array ends with a bracket. -/
  array_last : last = ']' ↔ ∃ items, j = .array items
  /-- An object starts with a brace. -/
  object_first : first = '{' ↔ ∃ entries, j = .object entries
  /-- An object ends with a brace. -/
  object_last : last = '}' ↔ ∃ entries, j = .object entries

/-- The texts that values are read from, without the gaps around them. -/
inductive Frames : Json → List Char → Prop
  /-- Null is a word. -/
  | null : Frames .null ['n', 'u', 'l', 'l']
  /-- A truth value is a word. -/
  | bool (b : Bool) :
    Frames (.bool b) (if b then ['t', 'r', 'u', 'e'] else ['f', 'a', 'l', 's', 'e'])
  /-- A number is what it was read from. -/
  | number {digits : List Char} (hne : digits ≠ []) (h : ∀ c ∈ digits, isNumeral c = true) :
    Frames (.number digits) digits
  /-- A string stands between quotes. -/
  | string (s : Option String) (inner : List Char) : Frames (.string s) ('"' :: inner ++ ['"'])
  /-- An array stands between brackets. -/
  | array (items : List Json) (inner : List Char) : Frames (.array items) ('[' :: inner ++ [']'])
  /-- An object stands between braces. -/
  | object (entries : List (Option String × Json)) (inner : List Char) :
    Frames (.object entries) ('{' :: inner ++ ['}'])

theorem skipGap_suffix (cs : List Char) : skipGap cs <:+ cs :=
  List.dropWhile_suffix _

/-! ## Strings and numbers -/

theorem readHex4?_suffix {cs rest : List Char} {n : Nat} (h : readHex4? cs = some (n, rest)) :
    rest <:+ cs := by
  unfold readHex4? at h
  split at h
  · next a b c d _ =>
    obtain ⟨_, -, h⟩ := Option.bind_eq_some_iff.mp h
    obtain ⟨_, -, h⟩ := Option.bind_eq_some_iff.mp h
    obtain ⟨_, -, h⟩ := Option.bind_eq_some_iff.mp h
    obtain ⟨_, -, h⟩ := Option.bind_eq_some_iff.mp h
    cases h
    exact List.suffix_append [a, b, c, d] _
  · cases h

theorem readUnit?_suffix {cs rest : List Char} {u : Unit16} (h : readUnit? cs = some (u, rest)) :
    rest <:+ cs := by
  unfold readUnit? at h
  split at h
  · next tail =>
    obtain ⟨⟨n, tail'⟩, hhex, h⟩ := Option.map_eq_some_iff.mp h
    cases h
    exact (readHex4?_suffix hhex).trans (List.suffix_append ['\\', 'u'] tail)
  · next c tail _ =>
    have hrest : rest = tail := by
      split at h <;> cases h <;> rfl
    rw [hrest]
    exact List.suffix_append ['\\', c] tail
  · cases h
  · split at h
    · cases h
    · cases h
      exact List.suffix_cons _ _
  · cases h

/-- A string's body ends with its closing quote. -/
theorem readUnits?_suffix {fuel : Nat} {cs rest : List Char} {us : List Unit16}
    (h : readUnits? fuel cs = some (us, rest)) : '"' :: rest <:+ cs := by
  induction fuel generalizing cs us with
  | zero => cases h
  | succ fuel ih =>
    unfold readUnits? at h
    split at h
    · cases h
    · next heq =>
      cases heq
      cases h
      exact List.suffix_rfl
    · next heq _ =>
      cases heq
      split at h
      · cases h
      · next u tail hunit =>
        obtain ⟨⟨us', rest'⟩, hunits, h⟩ := Option.map_eq_some_iff.mp h
        cases h
        exact (ih hunits).trans (readUnit?_suffix hunit)

theorem readString?_suffix {cs rest : List Char} {s : Option String}
    (h : readString? cs = some (s, rest)) : '"' :: rest <:+ cs := by
  obtain ⟨⟨us, rest'⟩, hunits, h⟩ := Option.map_eq_some_iff.mp h
  cases h
  exact readUnits?_suffix hunits

theorem takeDigits_eq {cs digits rest : List Char} (h : takeDigits cs = (digits, rest)) :
    cs = digits ++ rest ∧ ∀ c ∈ digits, isNumeral c = true := by
  cases h
  refine ⟨List.takeWhile_append_dropWhile.symm, fun c hc => ?_⟩
  simp [isNumeral, List.mem_takeWhile_imp hc]

theorem readInteger?_eq {cs digits rest : List Char} (h : readInteger? cs = some (digits, rest)) :
    cs = digits ++ rest ∧ digits ≠ [] ∧ ∀ c ∈ digits, isNumeral c = true := by
  unfold readInteger? at h
  split at h
  · split at h
    · split at h
      · cases h
      · cases h
        exact ⟨rfl, by simp, by simp [isNumeral]⟩
    · cases h
      exact ⟨rfl, by simp, by simp [isNumeral]⟩
  · split at h
    next found tail htake =>
    split at h
    · cases h
    · next hne =>
      cases h
      obtain ⟨heq, hnumeral⟩ := takeDigits_eq htake
      exact ⟨heq, by simpa using hne, hnumeral⟩

/-- A mark, perhaps a sign, and digits. -/
theorem numeral_of_takeDigits (marks : List Char) {body digits rest : List Char}
    (hmarks : ∀ c ∈ marks, isNumeral c = true)
    (h : (if (takeDigits body).1.isEmpty then none
      else some (marks ++ (takeDigits body).1, (takeDigits body).2)) = some (digits, rest)) :
    marks ++ body = digits ++ rest ∧ ∀ c ∈ digits, isNumeral c = true := by
  split at h
  · cases h
  · cases h
    obtain ⟨heq, hnumeral⟩ := takeDigits_eq (Prod.eta (takeDigits body)).symm
    refine ⟨?_, List.forall_mem_append.mpr ⟨hmarks, hnumeral⟩⟩
    rw [List.append_assoc, ← heq]

theorem readFraction?_eq {cs digits rest : List Char} (h : readFraction? cs = some (digits, rest)) :
    cs = digits ++ rest ∧ ∀ c ∈ digits, isNumeral c = true := by
  unfold readFraction? at h
  split at h
  · exact numeral_of_takeDigits ['.'] (by simp [isNumeral]) h
  · cases h
    exact ⟨rfl, by simp⟩

theorem readExponent?_eq {cs digits rest : List Char} (h : readExponent? cs = some (digits, rest)) :
    cs = digits ++ rest ∧ ∀ c ∈ digits, isNumeral c = true := by
  unfold readExponent? at h
  split at h
  · next e body =>
    split at h
    · next he =>
      have hmark : isNumeral e = true := by
        rcases Bool.or_eq_true_iff.mp he with he | he <;> rw [of_decide_eq_true he] <;> decide
      dsimp only at h
      split at h
      · exact numeral_of_takeDigits [e, '+'] (by simpa using ⟨hmark, by decide⟩) h
      · exact numeral_of_takeDigits [e, '-'] (by simpa using ⟨hmark, by decide⟩) h
      · exact numeral_of_takeDigits [e] (by simpa using hmark) h
    · cases h
      exact ⟨rfl, by simp⟩
  · cases h
    exact ⟨rfl, by simp⟩

/-- The parts of a number behind its sign are what is read of its text. -/
theorem numeral_of_parts {sign body integer fraction exponent cs₁ cs₂ rest : List Char}
    (hsign : ∀ c ∈ sign, isNumeral c = true) (hinteger : readInteger? body = some (integer, cs₁))
    (hfraction : readFraction? cs₁ = some (fraction, cs₂))
    (hexponent : readExponent? cs₂ = some (exponent, rest)) :
    sign ++ body = sign ++ integer ++ fraction ++ exponent ++ rest ∧
      sign ++ integer ++ fraction ++ exponent ≠ [] ∧
        ∀ c ∈ sign ++ integer ++ fraction ++ exponent, isNumeral c = true := by
  obtain ⟨rfl, hne, hdigits⟩ := readInteger?_eq hinteger
  obtain ⟨rfl, hplaces⟩ := readFraction?_eq hfraction
  obtain ⟨rfl, hpower⟩ := readExponent?_eq hexponent
  refine ⟨by simp, by simp [hne], ?_⟩
  simp only [List.forall_mem_append]
  exact ⟨⟨⟨hsign, hdigits⟩, hplaces⟩, hpower⟩

/-- A number is what it was read from. -/
theorem readNumber?_eq {cs digits rest : List Char} (h : readNumber? cs = some (digits, rest)) :
    cs = digits ++ rest ∧ digits ≠ [] ∧ ∀ c ∈ digits, isNumeral c = true := by
  unfold readNumber? at h
  dsimp only at h
  split at h
  all_goals
    obtain ⟨⟨integer, cs₁⟩, hinteger, h⟩ := Option.bind_eq_some_iff.mp h
    obtain ⟨⟨fraction, cs₂⟩, hfraction, h⟩ := Option.bind_eq_some_iff.mp h
    obtain ⟨⟨exponent, cs₃⟩, hexponent, h⟩ := Option.bind_eq_some_iff.mp h
    cases h
  · have hsign : ∀ c ∈ ['-'], isNumeral c = true := by simp [isNumeral]
    exact numeral_of_parts hsign hinteger hfraction hexponent
  · have hsign : ∀ c ∈ ([] : List Char), isNumeral c = true := by simp
    exact numeral_of_parts hsign hinteger hfraction hexponent

/-! ## Values -/

theorem exists_inner {first last : Char} {tail rest : List Char} (h : last :: rest <:+ tail) :
    ∃ inner, first :: tail = first :: inner ++ [last] ++ rest := by
  obtain ⟨inner, rfl⟩ := h
  exact ⟨inner, by simp⟩

/-- What is left of a text from which a framed value was read. -/
theorem suffix_of_frames {cs body rest : List Char} (h : skipGap cs = body ++ rest) : rest <:+ cs :=
  (h ▸ List.suffix_append body rest).trans (skipGap_suffix cs)

/-- What some fuel reads as a value is framed. -/
def FramesValues (fuel : Nat) : Prop :=
  ∀ cs j rest, readValue? fuel cs = some (j, rest) →
    ∃ body, skipGap cs = body ++ rest ∧ Frames j body

/-- What some fuel reads as items goes up to a closing bracket. -/
def ClosesItems (fuel : Nat) : Prop :=
  ∀ cs js rest, readItems? fuel cs = some (js, rest) → ']' :: rest <:+ cs

/-- What some fuel reads as entries goes up to a closing brace. -/
def ClosesEntries (fuel : Nat) : Prop :=
  ∀ cs es rest, readEntries? fuel cs = some (es, rest) → '}' :: rest <:+ cs

theorem framesValues_succ {fuel : Nat} (hitems : ClosesItems fuel) (hentries : ClosesEntries fuel) :
    FramesValues (fuel + 1) := by
  intro cs j rest h
  rw [readValue?] at h
  split at h
  · next heq => cases h; exact ⟨_, heq, .null⟩
  · next heq => cases h; exact ⟨_, heq, .bool true⟩
  · next heq => cases h; exact ⟨_, heq, .bool false⟩
  · next heq =>
    obtain ⟨⟨s, tail⟩, hstring, h⟩ := Option.map_eq_some_iff.mp h
    cases h
    obtain ⟨inner, hinner⟩ := exists_inner (readString?_suffix hstring)
    exact ⟨_, heq.trans hinner, .string s inner⟩
  · next items heq =>
    -- Either way, the closing bracket is in what stands behind the opening one.
    have hclose : ']' :: rest <:+ items ∧ ∃ js, j = .array js := by
      split at h
      · next htail =>
        cases h
        exact ⟨htail ▸ skipGap_suffix items, _, rfl⟩
      · obtain ⟨⟨js, tail⟩, hread, h⟩ := Option.map_eq_some_iff.mp h
        cases h
        exact ⟨(hitems _ _ _ hread).trans (skipGap_suffix items), js, rfl⟩
    obtain ⟨hsuffix, js, rfl⟩ := hclose
    obtain ⟨inner, hinner⟩ := exists_inner hsuffix
    exact ⟨_, heq.trans hinner, .array js inner⟩
  · next entries heq =>
    have hclose : '}' :: rest <:+ entries ∧ ∃ es, j = .object es := by
      split at h
      · next htail =>
        cases h
        exact ⟨htail ▸ skipGap_suffix entries, _, rfl⟩
      · obtain ⟨⟨es, tail⟩, hread, h⟩ := Option.map_eq_some_iff.mp h
        cases h
        exact ⟨(hentries _ _ _ hread).trans (skipGap_suffix entries), es, rfl⟩
    obtain ⟨hsuffix, es, rfl⟩ := hclose
    obtain ⟨inner, hinner⟩ := exists_inner hsuffix
    exact ⟨_, heq.trans hinner, .object es inner⟩
  · obtain ⟨⟨digits, tail⟩, hnumber, h⟩ := Option.map_eq_some_iff.mp h
    cases h
    obtain ⟨hdigits, hne, hnumeral⟩ := readNumber?_eq hnumber
    exact ⟨digits, hdigits, .number hne hnumeral⟩

theorem closesItems_succ {fuel : Nat} (hvalues : FramesValues fuel) (hitems : ClosesItems fuel) :
    ClosesItems (fuel + 1) := by
  intro cs js rest h
  rw [readItems?] at h
  split at h
  · cases h
  · next j tail hvalue =>
    obtain ⟨body, hbody, -⟩ := hvalues _ _ _ hvalue
    have htail := suffix_of_frames hbody
    split at h
    · next heq =>
      cases h
      exact (heq ▸ skipGap_suffix tail).trans htail
    · next more heq =>
      obtain ⟨⟨js', rest'⟩, hread, h⟩ := Option.map_eq_some_iff.mp h
      cases h
      have hmore : more <:+ tail :=
        (List.suffix_cons ',' more).trans (heq ▸ skipGap_suffix tail)
      exact ((hitems _ _ _ hread).trans hmore).trans htail
    · cases h

theorem closesEntries_succ {fuel : Nat} (hvalues : FramesValues fuel)
    (hentries : ClosesEntries fuel) : ClosesEntries (fuel + 1) := by
  intro cs es rest h
  rw [readEntries?] at h
  split at h
  · next keyed hquote =>
    have hkeyed : keyed <:+ cs :=
      (List.suffix_cons '"' keyed).trans (hquote ▸ skipGap_suffix cs)
    split at h
    · cases h
    · next key after hkey =>
      have hafter : after <:+ keyed :=
        (List.suffix_cons '"' after).trans (readString?_suffix hkey)
      split at h
      · next valued hcolon =>
        have hvalued : valued <:+ after :=
          (List.suffix_cons ':' valued).trans (hcolon ▸ skipGap_suffix after)
        split at h
        · cases h
        · next j tail hvalue =>
          obtain ⟨body, hbody, -⟩ := hvalues _ _ _ hvalue
          have htail := (((suffix_of_frames hbody).trans hvalued).trans hafter).trans hkeyed
          split at h
          · next heq =>
            cases h
            exact (heq ▸ skipGap_suffix tail).trans htail
          · next more heq =>
            obtain ⟨⟨es', rest'⟩, hread, h⟩ := Option.map_eq_some_iff.mp h
            cases h
            have hmore : more <:+ tail :=
              (List.suffix_cons ',' more).trans (heq ▸ skipGap_suffix tail)
            exact ((hentries _ _ _ hread).trans hmore).trans htail
          · cases h
      · cases h
  · cases h

/-- What is read is framed, and items and entries are read up to what closes them. -/
theorem frames_of_read (fuel : Nat) :
    FramesValues fuel ∧ ClosesItems fuel ∧ ClosesEntries fuel := by
  induction fuel with
  | zero =>
    refine ⟨?_, ?_, ?_⟩ <;>
    · intro cs x rest h
      simp [readValue?, readItems?, readEntries?] at h
  | succ fuel ih =>
    obtain ⟨hvalues, hitems, hentries⟩ := ih
    exact ⟨framesValues_succ hitems hentries, closesItems_succ hvalues hitems,
      closesEntries_succ hvalues hentries⟩

/-! ## Documents -/

theorem marks_append (as bs : List Char) : marks (as ++ bs) = marks as ++ marks bs :=
  List.filter_append _ _

theorem marks_cons_of_isGap {c : Char} (hc : isGap c = true) (cs : List Char) :
    marks (c :: cs) = marks cs :=
  List.filter_cons_of_neg (by simp [hc])

theorem marks_cons {c : Char} (hc : isGap c = false) (cs : List Char) :
    marks (c :: cs) = c :: marks cs :=
  List.filter_cons_of_pos (by simp [hc])

theorem marks_skipGap (cs : List Char) : marks (skipGap cs) = marks cs := by
  induction cs with
  | nil => rfl
  | cons c cs ih =>
    by_cases hc : isGap c = true
    · rw [skipGap, List.dropWhile_cons_of_pos hc, marks_cons_of_isGap hc]
      exact ih
    · rw [skipGap_of_head (Bool.eq_false_iff.mpr hc)]

theorem brackets_of_notMem {j : Json} {first last : Char} (harray : ∀ items, j ≠ .array items)
    (hobject : ∀ entries, j ≠ .object entries) (hfirst : first ≠ '[' ∧ first ≠ '{')
    (hlast : last ≠ ']' ∧ last ≠ '}') : Brackets j first last where
  array_first := iff_of_false hfirst.1 fun ⟨items, h⟩ => harray items h
  array_last := iff_of_false hlast.1 fun ⟨items, h⟩ => harray items h
  object_first := iff_of_false hfirst.2 fun ⟨entries, h⟩ => hobject entries h
  object_last := iff_of_false hlast.2 fun ⟨entries, h⟩ => hobject entries h

theorem isNumeral_ne {c : Char} (h : isNumeral c = true) :
    isGap c = false ∧ c ≠ '[' ∧ c ≠ '{' ∧ c ≠ ']' ∧ c ≠ '}' := by
  refine ⟨?_, ?_, ?_, ?_, ?_⟩
  · rw [isGap]
    simp only [Bool.or_eq_false_iff, beq_eq_false_iff_ne]
    refine ⟨⟨⟨?_, ?_⟩, ?_⟩, ?_⟩ <;> rintro rfl <;> revert h <;> decide
  all_goals
    rintro rfl
    revert h
    decide

/-- A framed text starts and ends with a mark. -/
theorem Frames.exists_brackets {j : Json} {body : List Char} (h : Frames j body) :
    ∃ first last, (marks body).head? = some first ∧ (marks body).getLast? = some last ∧
      Brackets j first last := by
  have hmarked : ∀ (inner : List Char) (first last : Char), isGap first = false →
      isGap last = false → (marks (first :: inner ++ [last])).head? = some first ∧
        (marks (first :: inner ++ [last])).getLast? = some last := by
    intro inner first last hfirst hlast
    rw [List.cons_append, marks_cons hfirst, marks_append, marks_cons hlast, ← List.cons_append]
    exact ⟨rfl, List.getLast?_concat⟩
  cases h with
  | null =>
    refine ⟨'n', 'l', rfl, rfl, brackets_of_notMem (by simp) (by simp) ?_ ?_⟩ <;> decide
  | bool b =>
    cases b with
    | true =>
      refine ⟨'t', 'e', rfl, rfl, brackets_of_notMem (by simp) (by simp) ?_ ?_⟩ <;> decide
    | false =>
      refine ⟨'f', 'e', rfl, rfl, brackets_of_notMem (by simp) (by simp) ?_ ?_⟩ <;> decide
  | number hne hnumeral =>
    have hmarks : marks body = body :=
      List.filter_eq_self.mpr fun c hc => by simp [(isNumeral_ne (hnumeral c hc)).1]
    rw [hmarks]
    refine ⟨_, _, List.head?_eq_some_head hne, List.getLast?_eq_some_getLast hne,
      brackets_of_notMem (by simp) (by simp) ?_ ?_⟩
    · obtain ⟨-, hfirst⟩ := isNumeral_ne (hnumeral _ (List.head_mem hne))
      exact ⟨hfirst.1, hfirst.2.1⟩
    · obtain ⟨-, hlast⟩ := isNumeral_ne (hnumeral _ (List.getLast_mem hne))
      exact hlast.2.2
  | string s inner =>
    obtain ⟨hfirst, hlast⟩ := hmarked inner '"' '"' rfl rfl
    refine ⟨_, _, hfirst, hlast, brackets_of_notMem (by simp) (by simp) ?_ ?_⟩ <;> decide
  | array items inner =>
    obtain ⟨hfirst, hlast⟩ := hmarked inner '[' ']' rfl rfl
    exact ⟨_, _, hfirst, hlast, by simp, by simp, by simp, by simp⟩
  | object entries inner =>
    obtain ⟨hfirst, hlast⟩ := hmarked inner '{' '}' rfl rfl
    exact ⟨_, _, hfirst, hlast, by simp, by simp, by simp, by simp⟩

/-- The first and the last mark of a document. -/
theorem marks_of_readChars? {cs : List Char} {j : Json} (h : readChars? cs = some j) :
    ∃ first last, (marks cs).head? = some first ∧ (marks cs).getLast? = some last ∧
      Brackets j first last := by
  rw [readChars?] at h
  split at h
  · next j' rest hvalue =>
    split at h
    · next hrest =>
      cases h
      obtain ⟨body, hbody, hframes⟩ := (frames_of_read _).1 _ _ _ hvalue
      have hmarks : marks cs = marks body := by
        rw [← marks_skipGap cs, hbody, marks_append, ← marks_skipGap rest,
          List.isEmpty_iff.mp hrest]
        exact List.append_nil _
      rw [hmarks]
      exact hframes.exists_brackets
    · cases h
  · cases h

/-! ## Gaps before a document -/

/-- What is read with some fuel is read with more. -/
theorem read_mono (fuel : Nat) :
    (∀ cs r, readValue? fuel cs = some r → readValue? (fuel + 1) cs = some r) ∧
    (∀ cs r, readItems? fuel cs = some r → readItems? (fuel + 1) cs = some r) ∧
    (∀ cs r, readEntries? fuel cs = some r → readEntries? (fuel + 1) cs = some r) := by
  -- The readers call each other with one fuel less, so the three are proved together.
  induction fuel with
  | zero =>
    refine ⟨?_, ?_, ?_⟩ <;>
    · intro cs r h
      simp [readValue?, readItems?, readEntries?] at h
  | succ fuel ih =>
    obtain ⟨ihvalue, ihitems, ihentries⟩ := ih
    refine ⟨fun cs r h => ?_, fun cs r h => ?_, fun cs r h => ?_⟩
    · rw [readValue?] at h ⊢
      split at h
      · exact h
      · exact h
      · exact h
      · exact h
      · split at h
        · exact h
        · obtain ⟨found, hitems, rfl⟩ := Option.map_eq_some_iff.mp h
          rw [ihitems _ _ hitems]
          rfl
      · split at h
        · exact h
        · obtain ⟨found, hentries, rfl⟩ := Option.map_eq_some_iff.mp h
          rw [ihentries _ _ hentries]
          rfl
      · exact h
    · rw [readItems?] at h ⊢
      split at h
      · cases h
      · next j tail hvalue =>
        simp only [ihvalue _ _ hvalue]
        split at h
        · exact h
        · obtain ⟨found, hitems, rfl⟩ := Option.map_eq_some_iff.mp h
          rw [ihitems _ _ hitems]
          rfl
        · cases h
    · rw [readEntries?] at h ⊢
      split at h
      · split at h
        · cases h
        · split at h
          · split at h
            · cases h
            · next j tail hvalue =>
              simp only [ihvalue _ _ hvalue]
              split at h
              · exact h
              · obtain ⟨found, hentries, rfl⟩ := Option.map_eq_some_iff.mp h
                rw [ihentries _ _ hentries]
                rfl
              · cases h
          · cases h
      · cases h

theorem readValue?_mono {fuel fuel' : Nat} (hle : fuel ≤ fuel') {cs : List Char}
    {r : Json × List Char} (h : readValue? fuel cs = some r) : readValue? fuel' cs = some r := by
  induction hle with
  | refl => exact h
  | step _ ih => exact (read_mono _).1 _ _ ih

/-- Gaps before a document do not matter. -/
theorem readChars?_append_gap {gap cs : List Char} (hgap : ∀ c ∈ gap, isGap c = true) {j : Json}
    (h : readChars? cs = some j) : readChars? (gap ++ cs) = some j := by
  have hskip : skipGap (gap ++ cs) = skipGap cs := List.dropWhile_append_of_pos hgap
  have hread : ∀ fuel, readValue? fuel (gap ++ cs) = readValue? fuel cs := by
    intro fuel
    cases fuel with
    | zero => rw [readValue?, readValue?]
    | succ fuel => rw [readValue?, readValue?, hskip]
  rw [readChars?] at h
  split at h
  · next j' rest hvalue =>
    have hle : 2 * cs.length + 2 ≤ 2 * (gap ++ cs).length + 2 := by
      rw [List.length_append]
      omega
    rw [readChars?, hread, readValue?_mono hle hvalue]
    exact h
  · cases h

end RepoAudit.Json
