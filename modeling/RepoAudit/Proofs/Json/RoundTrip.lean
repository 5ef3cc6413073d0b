import Mathlib.Tactic.SplitIfs
import RepoAudit.Json.Printer
import RepoAudit.Json.Reader
import RepoAudit.Proofs.Text.Number

/-!
# Reading printed JSON

The pretty form of a value reads back as that value, as long as its strings are texts and its
numbers are natural numbers. The reader is driven by fuel; twice the length of the printed form is
enough for a value, for the items of an array and for the entries of an object.

## Main definitions

- `Json.IsWritten` — the values whose printed form is read back
- `Json.Delimits` — the texts that may follow a printed value

## Main statements

- `Json.readValue?_prettyAt` — a value is read from its printed form, whatever delimits it
- `Json.read?_pretty` — a document is read from its printed form
-/

namespace RepoAudit.Json

open RepoAudit.Text

mutual

/-- A value whose strings are texts and whose numbers are natural numbers. -/
def IsWritten : Json → Prop
  | .number digits => ∃ n, digits = Nat.toDigits 10 n
  | .string s => s.isSome
  | .array items => ItemsWritten items
  | .object entries => EntriesWritten entries
  | _ => True

/-- `IsWritten` for each of some values. -/
def ItemsWritten : List Json → Prop
  | [] => True
  | j :: js => IsWritten j ∧ ItemsWritten js

/-- `IsWritten` for each of some entries, whose keys are texts. -/
def EntriesWritten : List (Option String × Json) → Prop
  | [] => True
  | (k, j) :: es => k.isSome ∧ IsWritten j ∧ EntriesWritten es

end

/-- A text that ends a value which stands before it: it is empty or starts with a comma or a
newline. -/
def Delimits : List Char → Prop
  | [] => True
  | c :: _ => c = ',' ∨ c = '\n'

/-! ## Gaps -/

theorem skipGap_newLine (level : Nat) (cs : List Char) :
    skipGap (newLine level ++ cs) = skipGap cs := by
  have hblank : ∀ n, skipGap (List.replicate n ' ' ++ cs) = skipGap cs := by
    intro n
    induction n with
    | zero => rfl
    | succ n ih =>
      rw [List.replicate_succ, List.cons_append, skipGap, List.dropWhile_cons_of_pos (by decide)]
      exact ih
  rw [newLine, List.cons_append, skipGap, List.dropWhile_cons_of_pos (by decide)]
  exact hblank _

theorem skipGap_of_head {c : Char} {cs : List Char} (hc : isGap c = false) :
    skipGap (c :: cs) = c :: cs := by
  rw [skipGap, List.dropWhile_cons_of_neg (by simp [hc])]

/-! ## Strings -/

theorem hexValue?_hexDigit : ∀ n < 16, hexValue? (hexDigit n) = some n := by
  decide

/-- The escape of a character is one unit, and that unit spells the character. -/
theorem readUnit?_escape (c : Char) (rest : List Char) :
    ∃ u, readUnit? (escape c ++ rest) = some (u, rest) ∧
      ∀ us, spell? (u :: us) = (spell? us).map (c :: ·) := by
  unfold escape
  by_cases hquote : c = '"'
  · subst hquote; exact ⟨.char '"', rfl, fun _ => rfl⟩
  by_cases hslash : c = '\\'
  · subst hslash; exact ⟨.char '\\', rfl, fun _ => rfl⟩
  by_cases hline : c = '\n'
  · subst hline; exact ⟨.char '\n', rfl, fun _ => rfl⟩
  by_cases hreturn : c = '\r'
  · subst hreturn; exact ⟨.char '\r', rfl, fun _ => rfl⟩
  by_cases htab : c = '\t'
  · subst htab; exact ⟨.char '\t', rfl, fun _ => rfl⟩
  rw [if_neg hquote, if_neg hslash, if_neg hline, if_neg hreturn, if_neg htab]
  by_cases hback : c.toNat = 8
  · have hc : c = Char.ofNat 8 := by rw [← hback, Char.ofNat_toNat]
    subst hc; exact ⟨.char (Char.ofNat 8), rfl, fun _ => rfl⟩
  by_cases hfeed : c.toNat = 12
  · have hc : c = Char.ofNat 12 := by rw [← hfeed, Char.ofNat_toNat]
    subst hc; exact ⟨.char (Char.ofNat 12), rfl, fun _ => rfl⟩
  rw [if_neg hback, if_neg hfeed]
  by_cases hcontrol : c.toNat < 32
  · -- a control without a letter of its own is written as four hexadecimal digits
    refine ⟨.unit c.toNat, ?_, fun us => ?_⟩
    · have hhigh : hexValue? (hexDigit (c.toNat / 16)) = some (c.toNat / 16) :=
        hexValue?_hexDigit _ (by omega)
      have hlow : hexValue? (hexDigit (c.toNat % 16)) = some (c.toNat % 16) :=
        hexValue?_hexDigit _ (by omega)
      have hzero : hexValue? '0' = some 0 := by decide
      have hsum : c.toNat / 16 * 16 + c.toNat % 16 = c.toNat := by omega
      rw [if_pos hcontrol]
      simp [readUnit?, readHex4?, hhigh, hlow, hzero, hsum]
    · have hhigh : isHighHalf c.toNat = false := by simp [isHighHalf]; omega
      have hlow : isLowHalf c.toNat = false := by simp [isLowHalf]; omega
      rw [spell?.eq_def]
      simp [hhigh, hlow, Char.ofNat_toNat]
  · refine ⟨.char c, ?_, fun _ => rfl⟩
    rw [if_neg hcontrol, List.cons_append, List.nil_append, readUnit?.eq_def]
    split
    · simp_all
    · simp_all
    · simp_all
    · next heq =>
      obtain ⟨rfl, rfl⟩ := List.cons.inj heq
      rw [if_neg hcontrol]
    · simp_all

theorem escape_ne_quote (c : Char) (rest tail : List Char) : escape c ++ rest ≠ '"' :: tail := by
  unfold escape
  by_cases hquote : c = '"'
  · simp [hquote]
  · split_ifs <;> simp_all

theorem length_escape_pos (c : Char) : 0 < (escape c).length := by
  unfold escape
  split_ifs <;> simp

theorem readUnits?_quoted (cs rest : List Char) (fuel : Nat)
    (hfuel : (cs.flatMap escape).length < fuel) :
    ∃ us, readUnits? fuel (cs.flatMap escape ++ '"' :: rest) = some (us, rest) ∧
      spell? us = some cs := by
  induction cs generalizing fuel with
  | nil =>
    obtain ⟨fuel, rfl⟩ : ∃ n, fuel = n + 1 := ⟨fuel - 1, by simp at hfuel; omega⟩
    exact ⟨[], rfl, rfl⟩
  | cons c cs ih =>
    obtain ⟨fuel, rfl⟩ : ∃ n, fuel = n + 1 := ⟨fuel - 1, by omega⟩
    have hlength := length_escape_pos c
    rw [List.flatMap_cons, List.length_append] at hfuel
    obtain ⟨u, hunit, hspell⟩ := readUnit?_escape c (cs.flatMap escape ++ '"' :: rest)
    obtain ⟨us, hunits, htext⟩ := ih fuel (by omega)
    refine ⟨u :: us, ?_, by rw [hspell, htext]; rfl⟩
    rw [List.flatMap_cons, List.append_assoc]
    rw [readUnits?.eq_3 _ _ (fun tail => escape_ne_quote c _ tail), hunit]
    simp only [hunits, Option.map_some]

theorem readString?_quoted (s : String) (rest : List Char) :
    ∃ tail, quoted (some s) ++ rest = '"' :: tail ∧ readString? tail = some (some s, rest) := by
  refine ⟨s.toList.flatMap escape ++ '"' :: rest, by simp [quoted, quote], ?_⟩
  obtain ⟨us, hunits, htext⟩ := readUnits?_quoted s.toList rest
    ((s.toList.flatMap escape ++ '"' :: rest).length + 1)
    (by simp only [List.length_append, List.length_cons]; omega)
  rw [readString?, hunits]
  simp [htext]

/-! ## Numbers -/

theorem Delimits.not_isDigit {c : Char} {rest : List Char} (h : Delimits (c :: rest)) :
    c.isDigit = false := by
  rcases h with rfl | rfl <;> decide

theorem takeDigits_append {digits rest : List Char} (hd : ∀ c ∈ digits, c.isDigit = true)
    (hr : Delimits rest) : takeDigits (digits ++ rest) = (digits, rest) := by
  rw [takeDigits, List.takeWhile_append_of_pos hd, List.dropWhile_append_of_pos hd]
  cases rest with
  | nil => simp
  | cons c rest =>
    rw [List.takeWhile_cons_of_neg (by simp [hr.not_isDigit]),
      List.dropWhile_cons_of_neg (by simp [hr.not_isDigit]), List.append_nil]

/-- The first digit of a positive number is not zero. -/
theorem head_toDigits_ne_zero {n : Nat} (hn : 0 < n) {digits : List Char} :
    Nat.toDigits 10 n ≠ '0' :: digits := by
  induction n using Nat.strongRecOn generalizing digits with
  | ind n ih =>
    by_cases hsmall : n < 10
    · rw [Nat.toDigits_of_lt_base hsmall]
      intro h
      have : n.digitChar = '0' := (List.cons.inj h).1
      rw [Nat.digitChar_eq_zero] at this
      omega
    · rw [Nat.toDigits_of_base_le (by decide) (by omega)]
      intro h
      cases hq : Nat.toDigits 10 (n / 10) with
      | nil => exact Nat.toDigits_ne_nil hq
      | cons d ds =>
        rw [hq, List.cons_append] at h
        have hd : d = '0' := (List.cons.inj h).1
        exact ih (n / 10) (by omega) (by omega) (hd ▸ hq)

theorem readInteger?_toDigits (n : Nat) {rest : List Char} (hr : Delimits rest) :
    readInteger? (Nat.toDigits 10 n ++ rest) = some (Nat.toDigits 10 n, rest) := by
  by_cases hn : n = 0
  · subst hn
    rw [Nat.toDigits_zero]
    cases rest with
    | nil => rfl
    | cons c rest => simp [readInteger?, hr.not_isDigit]
  · have hzero : ∀ tail, Nat.toDigits 10 n ++ rest = '0' :: tail → False := by
      intro tail h
      cases hq : Nat.toDigits 10 n with
      | nil => exact Nat.toDigits_ne_nil hq
      | cons d ds =>
        rw [hq, List.cons_append] at h
        exact head_toDigits_ne_zero (by omega) ((List.cons.inj h).1 ▸ hq)
    rw [readInteger?.eq_3 _ hzero, takeDigits_append (fun c => isDigit_of_mem_toDigits) hr]
    simp [Nat.toDigits_ne_nil]

theorem readNumber?_toDigits (n : Nat) {rest : List Char} (hr : Delimits rest) :
    readNumber? (Nat.toDigits 10 n ++ rest) = some (Nat.toDigits 10 n, rest) := by
  have hfraction : readFraction? rest = some ([], rest) := by
    rcases rest with _ | ⟨c, rest⟩
    · rfl
    · rcases hr with rfl | rfl <;> rfl
  have hexponent : readExponent? rest = some ([], rest) := by
    rcases rest with _ | ⟨c, rest⟩
    · rfl
    · rcases hr with rfl | rfl <;> rfl
  have hsign : ∀ tail, Nat.toDigits 10 n ++ rest = '-' :: tail → False := by
    intro tail h
    cases hq : Nat.toDigits 10 n with
    | nil => exact Nat.toDigits_ne_nil hq
    | cons d ds =>
      have hd : d.isDigit = true := isDigit_of_mem_toDigits (n := n) (by rw [hq]; simp)
      rw [hq, List.cons_append] at h
      rw [(List.cons.inj h).1] at hd
      exact absurd hd (by decide)
  rw [readNumber?.eq_2 _ hsign]
  simp [readInteger?_toDigits n hr, hfraction, hexponent]

/-! ## Values -/

theorem readValue?_newLine (fuel level : Nat) (cs : List Char) :
    readValue? fuel (newLine level ++ cs) = readValue? fuel cs := by
  cases fuel with
  | zero => rfl
  | succ fuel => rw [readValue?.eq_2, readValue?.eq_2, skipGap_newLine]

theorem readItems?_newLine (fuel level : Nat) (cs : List Char) :
    readItems? fuel (newLine level ++ cs) = readItems? fuel cs := by
  cases fuel with
  | zero => rfl
  | succ fuel => rw [readItems?.eq_2, readItems?.eq_2, readValue?_newLine]

theorem readEntries?_newLine (fuel level : Nat) (cs : List Char) :
    readEntries? fuel (newLine level ++ cs) = readEntries? fuel cs := by
  cases fuel with
  | zero => rfl
  | succ fuel => rw [readEntries?.eq_2, readEntries?.eq_2, skipGap_newLine]

theorem readValue?_space (fuel : Nat) (cs : List Char) :
    readValue? fuel (' ' :: cs) = readValue? fuel cs := by
  have hskip : skipGap (' ' :: cs) = skipGap cs := List.dropWhile_cons_of_pos (by decide)
  cases fuel with
  | zero => rfl
  | succ fuel => rw [readValue?.eq_2, readValue?.eq_2, hskip]

/-- A value that starts with a digit is a number. -/
theorem readValue?_of_isDigit {c : Char} (cs : List Char) (fuel : Nat) (hc : c.isDigit = true) :
    readValue? (fuel + 1) (c :: cs) =
      (readNumber? (c :: cs)).map fun p => (.number p.1, p.2) := by
  have hne : ∀ d : Char, d.isDigit = false → c ≠ d := by
    rintro d hd rfl
    rw [hc] at hd
    cases hd
  have hgap : isGap c = false := by
    simp only [isGap, Bool.or_eq_false_iff, beq_eq_false_iff_ne]
    exact ⟨⟨⟨hne _ (by decide), hne _ (by decide)⟩, hne _ (by decide)⟩, hne _ (by decide)⟩
  rw [readValue?.eq_2, skipGap_of_head hgap]
  split
  · next heq => exact (hne 'n' (by decide) (List.cons.inj heq).1).elim
  · next heq => exact (hne 't' (by decide) (List.cons.inj heq).1).elim
  · next heq => exact (hne 'f' (by decide) (List.cons.inj heq).1).elim
  · next heq => exact (hne '"' (by decide) (List.cons.inj heq).1).elim
  · next heq => exact (hne '[' (by decide) (List.cons.inj heq).1).elim
  · next heq => exact (hne '{' (by decide) (List.cons.inj heq).1).elim
  · rfl

/-- A printed value starts with a character that neither is a gap nor closes an array. -/
theorem prettyAt_eq_cons (j : Json) (level : Nat) (h : j.IsWritten) :
    ∃ c cs, prettyAt level j = c :: cs ∧ isGap c = false ∧ c ≠ ']' := by
  cases j with
  | null => exact ⟨'n', _, by rw [prettyAt], by decide, by decide⟩
  | bool b => cases b <;> exact ⟨_, _, by rw [prettyAt], by decide, by decide⟩
  | number digits =>
    obtain ⟨n, rfl⟩ := h
    rw [prettyAt]
    cases hq : Nat.toDigits 10 n with
    | nil => exact (Nat.toDigits_ne_nil hq).elim
    | cons d ds =>
      have hd : d.isDigit = true := isDigit_of_mem_toDigits (n := n) (by rw [hq]; simp)
      refine ⟨d, ds, rfl, ?_, ?_⟩
      · rw [Bool.eq_false_iff]
        intro hgap
        simp only [isGap, Bool.or_eq_true, beq_iff_eq] at hgap
        rcases hgap with ((rfl | rfl) | rfl) | rfl <;> revert hd <;> decide
      · rintro rfl
        revert hd
        decide
  | string s =>
    refine ⟨'"', _, by rw [prettyAt, quoted, quote, List.cons_append], ?_⟩
    decide
  | array items =>
    cases items with
    | nil => exact ⟨'[', _, by rw [prettyAt], by decide, by decide⟩
    | cons j js => exact ⟨'[', _, by rw [prettyAt]; rfl, by decide, by decide⟩
  | object entries =>
    cases entries with
    | nil => exact ⟨'{', _, by rw [prettyAt], by decide, by decide⟩
    | cons e es => exact ⟨'{', _, by rw [prettyAt]; rfl, by decide, by decide⟩

theorem delimits_prettyItems (level below : Nat) (js : List Json) (rest : List Char) :
    Delimits (prettyItems level js ++ newLine below ++ rest) := by
  cases js with
  | nil => exact Or.inr rfl
  | cons j js => exact Or.inl rfl

theorem delimits_prettyEntries (level below : Nat) (es : List (Option String × Json))
    (rest : List Char) : Delimits (prettyEntries level es ++ newLine below ++ rest) := by
  cases es with
  | nil => exact Or.inr rfl
  | cons e es => exact Or.inl rfl

/-- A value is read from its printed form, with the fuel that twice the length of that form pays
for. -/
def ReadsBack (j : Json) : Prop :=
  ∀ (level fuel : Nat) (rest : List Char), j.IsWritten → Delimits rest →
    2 * (prettyAt level j).length ≤ fuel →
      readValue? fuel (prettyAt level j ++ rest) = some (j, rest)

/-- Items that read back one by one read back as an array. -/
theorem readItems?_pretty (j : Json) (js : List Json) (level below fuel : Nat) (rest : List Char)
    (hback : ∀ i ∈ j :: js, ReadsBack i) (h : ItemsWritten (j :: js))
    (hfuel : 2 * (prettyAt level j ++ prettyItems level js).length + 1 ≤ fuel) :
    readItems? fuel (prettyAt level j ++ (prettyItems level js ++ newLine below ++ ']' :: rest)) =
      some (j :: js, rest) := by
  induction js generalizing j fuel with
  | nil =>
    obtain ⟨fuel, rfl⟩ : ∃ n, fuel = n + 1 := ⟨fuel - 1, by omega⟩
    have hskip : skipGap (prettyItems level [] ++ newLine below ++ ']' :: rest) = ']' :: rest := by
      rw [prettyItems, List.nil_append, skipGap_newLine, skipGap_of_head (by decide)]
    rw [List.length_append] at hfuel
    have hvalue := hback j (by simp) level fuel _ h.1
      (delimits_prettyItems level below [] (']' :: rest)) (by omega)
    rw [readItems?.eq_2, hvalue]
    simp only [hskip]
  | cons j' js ih =>
    obtain ⟨fuel, rfl⟩ : ∃ n, fuel = n + 1 := ⟨fuel - 1, by omega⟩
    have htail := ih j' fuel (fun i hi => hback i (List.mem_cons_of_mem j hi)) h.2
      (by rw [prettyItems] at hfuel; simp [newLine] at hfuel ⊢; omega)
    have htext : prettyItems level (j' :: js) ++ newLine below ++ ']' :: rest =
        ',' :: (newLine level ++ (prettyAt level j' ++
          (prettyItems level js ++ newLine below ++ ']' :: rest))) := by
      rw [prettyItems]; simp
    rw [List.length_append] at hfuel
    have hvalue := hback j (by simp) level fuel _ h.1
      (delimits_prettyItems level below (j' :: js) (']' :: rest)) (by omega)
    rw [readItems?.eq_2, hvalue]
    simp only [htext, skipGap_of_head (show isGap ',' = false by decide), readItems?_newLine, htail,
      Option.map_some]

/-- A key and its colon are read, and the value after them. -/
theorem readEntries?_key (k : Option String) (fuel : Nat) (tail : List Char) (hk : k.isSome) :
    readEntries? (fuel + 1) (quoted k ++ ([':', ' '] ++ tail)) =
      match readValue? fuel tail with
      | none => none
      | some (j, rest) =>
        match skipGap rest with
        | '}' :: tail => some ([(k, j)], tail)
        | ',' :: tail => (readEntries? fuel tail).map fun (es, tail) => ((k, j) :: es, tail)
        | _ => none := by
  obtain ⟨s, rfl⟩ := Option.isSome_iff_exists.mp hk
  obtain ⟨body, hbody, hkey⟩ := readString?_quoted s ([':', ' '] ++ tail)
  have hcolon : skipGap ([':', ' '] ++ tail) = ':' :: ' ' :: tail := skipGap_of_head (by decide)
  have hread := readEntries?.eq_2 ('"' :: body) fuel
  simp only [skipGap_of_head (show isGap '"' = false by decide), hkey, hcolon,
    readValue?_space] at hread
  rw [hbody]
  exact hread

/-- Entries whose values read back one by one read back as an object. -/
theorem readEntries?_pretty (k : Option String) (j : Json) (es : List (Option String × Json))
    (level below fuel : Nat) (rest : List Char) (hback : ∀ e ∈ (k, j) :: es, ReadsBack e.2)
    (h : EntriesWritten ((k, j) :: es))
    (hfuel : 2 * (prettyAt level j ++ prettyEntries level es).length + 1 ≤ fuel) :
    readEntries? fuel (quoted k ++ ([':', ' '] ++ (prettyAt level j ++
      (prettyEntries level es ++ newLine below ++ '}' :: rest)))) = some ((k, j) :: es, rest) := by
  induction es generalizing k j fuel with
  | nil =>
    obtain ⟨fuel, rfl⟩ : ∃ n, fuel = n + 1 := ⟨fuel - 1, by omega⟩
    have hskip : skipGap (prettyEntries level [] ++ newLine below ++ '}' :: rest) =
        '}' :: rest := by
      rw [prettyEntries, List.nil_append, skipGap_newLine, skipGap_of_head (by decide)]
    rw [List.length_append] at hfuel
    have hj : ReadsBack j := hback (k, j) (by simp)
    have hvalue := hj level fuel _ h.2.1
      (delimits_prettyEntries level below [] ('}' :: rest)) (by omega)
    rw [readEntries?_key k _ _ h.1, hvalue]
    simp only [hskip]
  | cons e es ih =>
    obtain ⟨k', j'⟩ := e
    obtain ⟨fuel, rfl⟩ : ∃ n, fuel = n + 1 := ⟨fuel - 1, by omega⟩
    have hafter := ih k' j' fuel (fun e he => hback e (List.mem_cons_of_mem (k, j) he)) h.2.2
      (by rw [prettyEntries] at hfuel; simp [newLine] at hfuel ⊢; omega)
    have htext : prettyEntries level ((k', j') :: es) ++ newLine below ++ '}' :: rest =
        ',' :: (newLine level ++ (quoted k' ++ ([':', ' '] ++ (prettyAt level j' ++
          (prettyEntries level es ++ newLine below ++ '}' :: rest))))) := by
      rw [prettyEntries]; simp
    rw [List.length_append] at hfuel
    have hj : ReadsBack j := hback (k, j) (by simp)
    have hvalue := hj level fuel _ h.2.1
      (delimits_prettyEntries level below ((k', j') :: es) ('}' :: rest)) (by omega)
    rw [readEntries?_key k _ _ h.1, hvalue]
    simp only [htext, skipGap_of_head (show isGap ',' = false by decide), readEntries?_newLine,
      hafter, Option.map_some]

/-- Induction on a value through its items and the values of its entries. -/
theorem induction {P : Json → Prop} (null : P .null) (bool : ∀ b, P (.bool b))
    (number : ∀ digits, P (.number digits)) (string : ∀ s, P (.string s))
    (array : ∀ items, (∀ j ∈ items, P j) → P (.array items))
    (object : ∀ entries, (∀ e ∈ entries, P e.2) → P (.object entries)) (j : Json) : P j :=
  Json.rec (motive_1 := P) (motive_2 := fun js => ∀ j ∈ js, P j)
    (motive_3 := fun es => ∀ e ∈ es, P e.2) (motive_4 := fun e => P e.2) null bool number string
    array object (by simp) (by simp_all) (by simp) (by simp_all) (fun _ _ h => h) j

theorem readsBack_array (items : List Json) (hback : ∀ j ∈ items, ReadsBack j) :
    ReadsBack (.array items) := by
  intro level fuel rest h hrest hfuel
  cases items with
  | nil =>
    rw [prettyAt] at hfuel ⊢
    obtain ⟨fuel, rfl⟩ : ∃ n, fuel = n + 1 := ⟨fuel - 1, by simp at hfuel; omega⟩
    rfl
  | cons j js =>
    have htext : prettyAt level (.array (j :: js)) ++ rest =
        '[' :: (newLine (level + 1) ++ (prettyAt (level + 1) j ++
          (prettyItems (level + 1) js ++ newLine level ++ ']' :: rest))) := by
      rw [prettyAt]; simp
    rw [prettyAt] at hfuel
    obtain ⟨fuel, rfl⟩ : ∃ n, fuel = n + 1 := ⟨fuel - 1, by simp at hfuel; omega⟩
    have hread := readItems?_pretty j js (level + 1) level fuel rest hback h
      (by simp [newLine] at hfuel ⊢; omega)
    obtain ⟨c, cs, hc, hgap, hclose⟩ := prettyAt_eq_cons j (level + 1) h.1
    rw [htext, readValue?.eq_2, skipGap_of_head (by decide)]
    simp only [skipGap_newLine]
    rw [hc, List.cons_append] at hread ⊢
    rw [skipGap_of_head hgap]
    split
    · next heq => exact (hclose (List.cons.inj heq).1).elim
    · rw [hread]
      rfl

theorem readsBack_object (entries : List (Option String × Json))
    (hback : ∀ e ∈ entries, ReadsBack e.2) : ReadsBack (.object entries) := by
  intro level fuel rest h hrest hfuel
  cases entries with
  | nil =>
    rw [prettyAt] at hfuel ⊢
    obtain ⟨fuel, rfl⟩ : ∃ n, fuel = n + 1 := ⟨fuel - 1, by simp at hfuel; omega⟩
    rfl
  | cons e es =>
    obtain ⟨k, j⟩ := e
    have htext : prettyAt level (.object ((k, j) :: es)) ++ rest =
        '{' :: (newLine (level + 1) ++ (quoted k ++ ([':', ' '] ++ (prettyAt (level + 1) j ++
          (prettyEntries (level + 1) es ++ newLine level ++ '}' :: rest))))) := by
      rw [prettyAt]; simp
    rw [prettyAt] at hfuel
    obtain ⟨fuel, rfl⟩ : ∃ n, fuel = n + 1 := ⟨fuel - 1, by simp at hfuel; omega⟩
    have hread := readEntries?_pretty k j es (level + 1) level fuel rest hback h
      (by simp [newLine] at hfuel ⊢; omega)
    rw [htext, readValue?.eq_2, skipGap_of_head (by decide)]
    simp only [skipGap_newLine]
    rw [quoted, quote, List.cons_append, List.cons_append] at hread ⊢
    rw [skipGap_of_head (by decide)]
    split
    · next heq => exact absurd (List.cons.inj heq).1 (by decide)
    · rw [hread]
      rfl

/-- Every value reads back. -/
theorem readsBack (j : Json) : ReadsBack j := by
  induction j using Json.induction with
  | array items ih => exact readsBack_array items ih
  | object entries ih => exact readsBack_object entries ih
  | null =>
    intro level fuel rest _ _ hfuel
    rw [prettyAt] at hfuel ⊢
    obtain ⟨fuel, rfl⟩ : ∃ n, fuel = n + 1 := ⟨fuel - 1, by simp at hfuel; omega⟩
    rfl
  | bool b =>
    intro level fuel rest _ _ hfuel
    cases b
    all_goals
      rw [prettyAt] at hfuel ⊢
      obtain ⟨fuel, rfl⟩ : ∃ n, fuel = n + 1 := ⟨fuel - 1, by simp at hfuel; omega⟩
      rfl
  | number digits =>
    rintro level fuel rest ⟨n, rfl⟩ hrest hfuel
    have hread := readNumber?_toDigits n hrest
    rw [prettyAt] at hfuel ⊢
    cases hq : Nat.toDigits 10 n with
    | nil => exact (Nat.toDigits_ne_nil hq).elim
    | cons d ds =>
      have hdigit : d.isDigit = true := isDigit_of_mem_toDigits (n := n) (by rw [hq]; simp)
      rw [hq] at hfuel hread
      obtain ⟨fuel, rfl⟩ : ∃ n, fuel = n + 1 := ⟨fuel - 1, by simp at hfuel; omega⟩
      rw [List.cons_append] at hread ⊢
      rw [readValue?_of_isDigit _ _ hdigit, hread]
      rfl
  | string s =>
    intro level fuel rest h hrest hfuel
    obtain ⟨s, rfl⟩ := Option.isSome_iff_exists.mp h
    obtain ⟨tail, htail, hread⟩ := readString?_quoted s rest
    rw [prettyAt] at hfuel ⊢
    obtain ⟨fuel, rfl⟩ : ∃ n, fuel = n + 1 := ⟨fuel - 1, by simp [quoted, quote] at hfuel; omega⟩
    rw [htail, readValue?.eq_2, skipGap_of_head (by decide)]
    simp only [hread, Option.map_some]

/-- A document is read from its printed form. -/
theorem read?_pretty (j : Json) (h : j.IsWritten) : read? j.pretty = some j := by
  have hread := readsBack j 0 (2 * (prettyAt 0 j).length + 2) [] h trivial (by omega)
  rw [List.append_nil] at hread
  rw [read?, pretty, String.toList_ofList, readChars?, hread]
  rfl

end RepoAudit.Json
