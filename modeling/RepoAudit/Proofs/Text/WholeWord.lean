import RepoAudit.Proofs.Text.Match

/-!
# Whole words

A needle made of word characters is matched as a whole word where no word goes on at its two ends.
Replacing a word that way leaves none behind: a character of a word that is kept is never next to
the text that takes the place of another one.

## Main definitions

- `WordsReplaced` — what replacing a word makes of a text, told by its characters

## Main statements

- `Cut.occurs_substitute` — the substitute stands where the needle stood
- `Cut.not_occurs_needle` — no needle is left
- `wordsReplaced` — replacing a word replaces every whole one and nothing else
-/

namespace RepoAudit.Text

variable {needle substitute : List Char}

theorem isSome_wholeWord {before : Option Char} {cs : List Char} :
    (wholeWord needle before cs).isSome = true ↔
      continuesWord before = false ∧
        ∃ rest, cs = needle ++ rest ∧ continuesWord rest.head? = false := by
  rw [wholeWord]
  split
  · simp [*]
  · rename_i hbefore
    rw [Bool.not_eq_true] at hbefore
    cases hafter : after? needle cs with
    | none =>
      simp only [Option.isSome_none, Bool.false_eq_true, hbefore, true_and, false_iff]
      rintro ⟨rest, hcs, -⟩
      rw [after?_eq_some.mpr hcs] at hafter
      cases hafter
    | some rest =>
      have hcs := after?_eq_some.mp hafter
      subst hcs
      cases hrest : continuesWord rest.head? <;> simp [hbefore, hrest]

theorem wholeWord_eq_none {before : Option Char} {cs : List Char}
    (h : ¬ (wholeWord needle before cs).isSome = true) : wholeWord needle before cs = none := by
  simpa using h

/-- Nothing starts at a character that does not start the needle. -/
theorem wholeWord_eq_none_of_head? {before : Option Char} {cs : List Char} (hne : needle ≠ [])
    (h : cs.head? ≠ needle.head?) : wholeWord needle before cs = none := by
  refine wholeWord_eq_none fun hsome => h ?_
  obtain ⟨-, rest, rfl, -⟩ := isSome_wholeWord.mp hsome
  obtain ⟨c, needle, rfl⟩ := List.exists_cons_of_ne_nil hne
  rfl

theorem wholeWord_eq_some {before : Option Char} {cs : List Char} {n : Nat}
    (h : wholeWord needle before cs = some ((), n)) : n = needle.length := by
  rw [wholeWord] at h
  split at h
  · cases h
  · split at h
    · split at h
      · cases h
      · exact (Prod.mk.inj (Option.some.inj h)).2.symm
    · cases h

/-- What takes the place of a match of a whole word. -/
theorem wholeWord_append_eq_some {before : Option Char} {text rest : List Char}
    (h : wholeWord needle before (text ++ rest) = some ((), text.length)) :
    text = needle ∧ continuesWord before = false ∧ continuesWord rest.head? = false := by
  have hlength := wholeWord_eq_some h
  obtain ⟨hbefore, rest', hcs, hrest'⟩ := isSome_wholeWord.mp (Option.isSome_iff_exists.mpr ⟨_, h⟩)
  obtain ⟨rfl, rfl⟩ := List.append_inj hcs hlength
  exact ⟨rfl, hbefore, hrest'⟩

theorem wholeWord_fits (h : needle ≠ []) : (wholeWord needle).Fits := by
  intro before cs value n hmatch
  obtain rfl := wholeWord_eq_some hmatch
  obtain ⟨-, rest, rfl, -⟩ := isSome_wholeWord.mp (Option.isSome_iff_exists.mpr ⟨_, hmatch⟩)
  exact ⟨List.length_pos_iff.mpr h, by simp⟩

/-- A text without the first character of the needle is kept in front of another one. -/
theorem exists_cut_append {c : Char} (hhead : needle.head? = some c) {lead : List Char}
    (hlead : c ∉ lead) (f : Unit → List Char) (rest : List Char) :
    ∃ qs, Cut (wholeWord needle) (lastAfter none lead) rest qs ∧
      replaceMatches (wholeWord needle) f (lead ++ rest) = lead ++ imageOf f qs := by
  have hne : needle ≠ [] := by
    rintro rfl
    cases hhead
  have hfits : (wholeWord needle).Fits := wholeWord_fits hne
  obtain ⟨qs, hps, hqs⟩ := (hfits.cut (lead ++ rest)).plain_append fun u v huv hv => by
    obtain ⟨d, v, rfl⟩ := List.exists_cons_of_ne_nil hv
    refine wholeWord_eq_none_of_head? hne fun hd => ?_
    rw [hhead] at hd
    obtain rfl : d = c := Option.some.inj hd
    exact hlead (by simp [huv])
  exact ⟨qs, hqs, by rw [replaceMatches_eq, hps, imageOf_append, imageOf_map_plain]⟩

theorem continuesWord_lastAfter {c : Char} {word : List Char} (hc : isWord c = true)
    (hword : ∀ c ∈ word, isWord c = true) : continuesWord (lastAfter (some c) word) = true := by
  induction word generalizing c with
  | nil => exact hc
  | cons d word ih =>
    rw [lastAfter_cons]
    exact ih (hword d List.mem_cons_self) fun e he => hword e (List.mem_cons_of_mem d he)

/-- No whole word begins inside a word. -/
theorem not_occurs_wholeWord_append {c : Char} {word rest : List Char} (hc : isWord c = true)
    (hword : ∀ c ∈ word, isWord c = true)
    (h : ¬ Occurs (wholeWord needle) (lastAfter (some c) word) rest) :
    ¬ Occurs (wholeWord needle) (some c) (word ++ rest) := by
  induction word generalizing c with
  | nil => exact h
  | cons d word ih =>
    rw [lastAfter_cons] at h
    rw [List.cons_append, occurs_cons, not_or]
    constructor
    · intro hsome
      have hbefore := (isSome_wholeWord.mp hsome).1
      rw [continuesWord, hc] at hbefore
      cases hbefore
    · exact ih (hword d List.mem_cons_self) (fun e he => hword e (List.mem_cons_of_mem d he)) h

section Replace

variable {before before' : Option Char} {cs : List Char} {ps : List (Piece Unit)}

/-- Next to a character of a word nothing is replaced, so the image starts like the text. -/
theorem Cut.word_append (h : Cut (wholeWord needle) before cs ps)
    (hbefore : continuesWord before = true) {word rest : List Char}
    (hword : ∀ c ∈ word, isWord c = true)
    (himage : imageOf (fun _ => substitute) ps = word ++ rest) :
    ∃ rest', cs = word ++ rest' ∧ rest'.head? = rest.head? := by
  induction word generalizing before cs ps with
  | nil =>
    rw [List.nil_append] at himage
    refine ⟨cs, rfl, ?_⟩
    rw [← himage]
    cases h with
    | done => rfl
    | plain => rfl
    | found _ hmatch _ =>
      have := (wholeWord_append_eq_some hmatch).2.1
      rw [hbefore] at this
      cases this
  | cons c word ih =>
    cases h with
    | done => cases himage
    | plain _ hcut =>
      obtain ⟨rfl, htail⟩ := List.cons.inj himage
      obtain ⟨rest', rfl, hrest'⟩ :=
        ih hcut (hword _ List.mem_cons_self) (fun d hd => hword d (List.mem_cons_of_mem _ hd)) htail
      exact ⟨rest', rfl, hrest'⟩
    | found _ hmatch _ =>
      have := (wholeWord_append_eq_some hmatch).2.1
      rw [hbefore] at this
      cases this

/-- What follows a match of a whole word is kept up to its first character. -/
theorem Cut.head?_imageOf (h : Cut (wholeWord needle) before cs ps)
    (hword : ∀ c ∈ needle.head?, isWord c = true) (hcs : continuesWord cs.head? = false) :
    (imageOf (fun _ => substitute) ps).head? = cs.head? := by
  cases h with
  | done => rfl
  | plain => rfl
  | found hne hmatch _ =>
    obtain ⟨rfl, -, -⟩ := wholeWord_append_eq_some hmatch
    obtain ⟨c, needle, rfl⟩ := List.exists_cons_of_ne_nil hne
    have hc : isWord c = true := hword c rfl
    rw [List.cons_append, List.head?_cons, continuesWord, hc] at hcs
    cases hcs

/-- Where a word is replaced, its substitute is found. -/
theorem Cut.occurs_substitute (h : Cut (wholeWord needle) before cs ps)
    (hword : ∀ c ∈ needle.head?, isWord c = true) (hsubstitute : substitute ≠ [])
    (hsame : continuesWord before' = continuesWord before)
    (hoccurs : Occurs (wholeWord needle) before cs) :
    Occurs (wholeWord substitute) before' (imageOf (fun _ => substitute) ps) := by
  induction h generalizing before' with
  | done => exact absurd hoccurs (not_occurs_nil _)
  | plain hnone _ ih =>
    rw [occurs_cons, hnone] at hoccurs
    rw [imageOf_plain, occurs_cons]
    rcases hoccurs with h | hoccurs
    · cases h
    · exact .inr (ih rfl hoccurs)
  | found _ hmatch hcut _ =>
    obtain ⟨-, hbefore, hrest⟩ := wholeWord_append_eq_some hmatch
    rw [imageOf_found]
    refine ⟨[], _, rfl, by simp [hsubstitute], isSome_wholeWord.mpr ⟨?_, _, rfl, ?_⟩⟩
    · rw [lastAfter_nil, hsame, hbefore]
    · rw [hcut.head?_imageOf hword hrest, hrest]

/-- Where a word is replaced by another one, it is not found again. -/
theorem Cut.not_occurs_needle (h : Cut (wholeWord needle) before cs ps)
    (hneedle : ∀ c ∈ needle, isWord c = true) (hword : ∀ c ∈ substitute, isWord c = true)
    (hne : needle ≠ []) (hsubstitute : substitute ≠ [])
    (hhead : needle.head? ≠ substitute.head?)
    (hsame : continuesWord before' = continuesWord before) :
    ¬ Occurs (wholeWord needle) before' (imageOf (fun _ => substitute) ps) := by
  induction h generalizing before' with
  | done => exact not_occurs_nil _
  | @plain before c cs ps hnone hcut ih =>
    rw [imageOf_plain, occurs_cons, not_or]
    refine ⟨fun hmatch => ?_, ih rfl⟩
    obtain ⟨hbefore, rest, hcs, hrest⟩ := isSome_wholeWord.mp hmatch
    obtain ⟨d, tail, rfl⟩ := List.exists_cons_of_ne_nil hne
    obtain ⟨rfl, himage⟩ := List.cons.inj hcs
    obtain ⟨rest', rfl, hrest'⟩ := hcut.word_append (hneedle _ List.mem_cons_self)
      (fun c hc => hneedle c (List.mem_cons_of_mem _ hc)) himage
    have hsome : (wholeWord (c :: tail) before (c :: (tail ++ rest'))).isSome = true :=
      isSome_wholeWord.mpr ⟨by rw [← hsame, hbefore], rest', rfl, by rw [hrest', hrest]⟩
    rw [hnone] at hsome
    cases hsome
  | @found before _ text rest ps htext hmatch hcut ih =>
    obtain ⟨rfl, hbefore, -⟩ := wholeWord_append_eq_some hmatch
    obtain ⟨d, word, rfl⟩ := List.exists_cons_of_ne_nil hsubstitute
    rw [imageOf_found, List.cons_append, occurs_cons, not_or]
    constructor
    · intro hsome
      obtain ⟨-, rest', hcs, -⟩ := isSome_wholeWord.mp hsome
      obtain ⟨c, text, rfl⟩ := List.exists_cons_of_ne_nil htext
      obtain ⟨rfl, -⟩ := List.cons.inj hcs
      exact hhead rfl
    · have hd : isWord d = true := hword d List.mem_cons_self
      have htail : ∀ c ∈ word, isWord c = true := fun c hc => hword c (List.mem_cons_of_mem d hc)
      refine not_occurs_wholeWord_append hd htail (ih ?_)
      rw [continuesWord_lastAfter hd htail]
      obtain ⟨c, text, rfl⟩ := List.exists_cons_of_ne_nil htext
      rw [lastAfter_cons, continuesWord_lastAfter (hneedle c List.mem_cons_self)]
      exact fun c' hc' => hneedle c' (List.mem_cons_of_mem c hc')

end Replace

/-! ### Replacing a word, character by character -/

/-- A text that follows a character starts with a word, and the word goes on at neither end. -/
def StartsWord (word : List Char) (before : Option Char) (cs : List Char) : Prop :=
  continuesWord before = false ∧ ∃ rest, cs = word ++ rest ∧ continuesWord rest.head? = false

/-- Each whole word of a text that follows a character gives way to its substitute, and every
other character is kept. -/
inductive WordsReplaced (word substitute : List Char) :
    Option Char → List Char → List Char → Prop where
  | nil {before : Option Char} : WordsReplaced word substitute before [] []
  | kept {before : Option Char} {c : Char} {cs cs' : List Char} :
      ¬ StartsWord word before (c :: cs) → WordsReplaced word substitute (some c) cs cs' →
        WordsReplaced word substitute before (c :: cs) (c :: cs')
  | replaced {before : Option Char} {rest rest' : List Char} :
      StartsWord word before (word ++ rest) →
        WordsReplaced word substitute (lastAfter before word) rest rest' →
          WordsReplaced word substitute before (word ++ rest) (substitute ++ rest')

theorem Cut.wordsReplaced {before : Option Char} {cs : List Char} {ps : List (Piece Unit)}
    (h : Cut (wholeWord needle) before cs ps) :
    WordsReplaced needle substitute before cs (imageOf (fun _ => substitute) ps) := by
  induction h with
  | done => exact .nil
  | plain hnone _ ih =>
    refine .kept (fun hword => ?_) ih
    rw [StartsWord, ← isSome_wholeWord, hnone] at hword
    cases hword
  | @found before _ text rest _ _ hmatch _ ih =>
    obtain ⟨rfl, hbefore, hrest⟩ := wholeWord_append_eq_some hmatch
    exact .replaced ⟨hbefore, rest, rfl, hrest⟩ ih

/-- Replacing a word replaces every whole one and nothing else. -/
theorem wordsReplaced (hne : needle ≠ []) (cs : List Char) : WordsReplaced needle substitute none cs
    (replaceMatches (wholeWord needle) (fun _ => substitute) cs) := by
  have hfits : (wholeWord needle).Fits := wholeWord_fits hne
  rw [replaceMatches_eq]
  exact (hfits.cut cs).wordsReplaced

end RepoAudit.Text
