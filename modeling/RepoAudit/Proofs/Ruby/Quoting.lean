import RepoAudit.Proofs.Ruby.Literal

/-!
# The literal that a command becomes

A command that is sent through the wrapper becomes a literal between double quotes. Its own double
quotes are escaped, each with a backslash in front of it, and the backslashes that it has already are
left alone. A literal is read from its opening quote on, a backslash taking the character after it
along. A double quote of the command behind an odd number of backslashes is given one more, which
sets it free, and so many backslashes at the end of the command take the closing quote along. In any
other command the quote that ends the literal is the one that was written to close it.

## Main definitions

- `literalLength?` — where a literal ends
- `SparesQuotes` — an even number of backslashes stands before each double quote and at the end
- `Writes` — the texts that routing writes, and the commands that it writes as literals in them

## Main statements

- `literalLength?_escapeQuotes` — when a command's literal ends where it was closed
- `Writes.closes_iff` — the same for every command that routing rewrites
-/

namespace RepoAudit.Ruby

open RepoAudit.Text

/-! ## Reading a literal -/

/-- Whether a character takes the next one along, given whether the one before it does. -/
def escapes (escaped : Bool) (c : Char) : Bool :=
  c == '\\' && !escaped

/-- How many characters stand before the double quote that ends a literal, given whether a backslash
takes the first one along. -/
def literalLength? : (escaped : Bool) → List Char → Option Nat
  | _, [] => none
  | escaped, c :: cs =>
    if c = '"' && !escaped then some 0
    else (literalLength? (escapes escaped c) cs).map (· + 1)

/-- How many backslashes end a text. -/
def backslashes (cs : List Char) : Nat :=
  (cs.reverse.takeWhile (· == '\\')).length

/-- Wherever the rest of a text starts with a double quote or is nothing, an even number of
backslashes stands before it. -/
def SparesQuotes (body : List Char) : Prop :=
  ∀ lead rest, body = lead ++ rest → (rest = [] ∨ rest.head? = some '"') →
    backslashes lead % 2 = 0

theorem backslashes_concat (cs : List Char) (c : Char) :
    backslashes (cs ++ [c]) = if c = '\\' then backslashes cs + 1 else 0 := by
  rw [backslashes, backslashes, List.reverse_concat]
  by_cases hc : c = '\\'
  · simp [hc]
  · simp [hc]

/-- After an odd number of backslashes the next character is taken along. -/
theorem foldl_escapes_eq_false_iff (cs : List Char) :
    cs.foldl escapes false = false ↔ backslashes cs % 2 = 0 := by
  induction cs using List.reverseRecOn with
  | nil => simp [backslashes]
  | append_singleton cs c ih =>
    rw [List.foldl_append, List.foldl_cons, List.foldl_nil, backslashes_concat, escapes]
    by_cases hc : c = '\\'
    · rw [if_pos hc, hc]
      cases hpending : cs.foldl escapes false with
      | false =>
        have := ih.mp hpending
        simp
        omega
      | true =>
        have : ¬ backslashes cs % 2 = 0 := fun h => by
          rw [ih.mpr h] at hpending
          cases hpending
        simp
        omega
    · simp [hc]

/-- The literal of a text ends at the quote behind it when no backslash takes along a double quote of
the text, or that one. -/
theorem literalLength?_escapeQuotes_from (escaped : Bool) (body after : List Char) :
    literalLength? escaped (escapeQuotes body ++ '"' :: after) = some (escapeQuotes body).length ↔
      ∀ lead rest, body = lead ++ rest → (rest = [] ∨ rest.head? = some '"') →
        lead.foldl escapes escaped = false := by
  induction body generalizing escaped with
  | nil =>
    have hend : (∀ lead rest, [] = lead ++ rest → (rest = [] ∨ rest.head? = some '"') →
        lead.foldl escapes escaped = false) ↔ escaped = false := by
      constructor
      · intro h
        exact h [] [] rfl (.inl rfl)
      · rintro h lead rest hsplit -
        obtain ⟨rfl, -⟩ := List.append_eq_nil_iff.mp hsplit.symm
        exact h
    rw [hend, escapeQuotes_nil, List.nil_append, literalLength?]
    cases escaped <;> simp
  | cons c body ih =>
    have hsplit : (∀ lead rest, c :: body = lead ++ rest → (rest = [] ∨ rest.head? = some '"') →
        lead.foldl escapes escaped = false) ↔ (c = '"' → escaped = false) ∧
        ∀ lead rest, body = lead ++ rest → (rest = [] ∨ rest.head? = some '"') →
          lead.foldl escapes (escapes escaped c) = false := by
      constructor
      · intro h
        refine ⟨fun hc => h [] (c :: body) rfl (.inr (by simp [hc])), fun lead rest hbody => ?_⟩
        exact h (c :: lead) rest (by rw [hbody, List.cons_append])
      · rintro ⟨hhere, hlater⟩ lead rest hbody hquote
        cases lead with
        | nil =>
          obtain rfl : c :: body = rest := hbody
          exact hhere (by simpa using hquote)
        | cons d lead =>
          obtain ⟨rfl, hrest⟩ := List.cons.inj hbody
          exact hlater lead rest hrest hquote
    rw [hsplit, ← ih, escapeQuotes_cons]
    by_cases hc : c = '"'
    · subst hc
      cases escaped <;> simp [literalLength?, escapes]
    · simp [literalLength?, hc]

/-- The literal that a command becomes ends where it was closed when the command spares quotes. -/
theorem literalLength?_escapeQuotes (body after : List Char) :
    literalLength? false (escapeQuotes body ++ '"' :: after) = some (escapeQuotes body).length ↔
      SparesQuotes body := by
  rw [literalLength?_escapeQuotes_from, SparesQuotes]
  simp only [foldl_escapes_eq_false_iff]

instance (body : List Char) : Decidable (SparesQuotes body) :=
  decidable_of_iff _ (literalLength?_escapeQuotes body [])

/-! ## What routing writes -/

/-- A text that routing writes, a command that it writes as a literal, and what stands before and
after that. Commands between backticks are written first and those in percent literals behind
them. -/
inductive Writes (content : List Char) :
    (written before body after : List Char) → Prop where
  /-- A command between backticks, in the text that is written first. -/
  | quoted (lead rest : List (Piece (List Char))) {body text : List Char} :
      pieces backtickCommand (callsRouted content) = lead ++ .found body text :: rest →
        Writes content (quotesRouted (callsRouted content)) (imageOf wrapCommand lead) body
          (imageOf wrapCommand rest)
  /-- A command between backticks, in the text that is written last, where no percent literal
  that is found touches its literal. -/
  | kept (lead rest : List (Piece (List Char))) {before body after : List Char} :
      Writes content (quotesRouted (callsRouted content)) before body after →
        textOf lead = before →
        pieces percentCommand (quotesRouted (callsRouted content)) =
          lead ++ ((wrapCommand body).map .plain ++ rest) →
        Writes content (route content) (imageOf wrapCommand lead) body (imageOf wrapCommand rest)
  /-- A command in a percent literal. -/
  | percent (lead rest : List (Piece (List Char))) {body text : List Char} :
      pieces percentCommand (quotesRouted (callsRouted content)) = lead ++ .found body text :: rest →
        Writes content (route content) (imageOf wrapCommand lead) body (imageOf wrapCommand rest)

theorem Writes.written_eq {content written before body after : List Char}
    (h : Writes content written before body after) :
    written = before ++ (wrapCommand body ++ after) := by
  cases h with
  | quoted _ _ hpieces =>
    rw [quotesRouted, replaceMatches_eq, hpieces, imageOf_append, imageOf_found]
  | kept _ _ _ _ hpieces =>
    rw [route_eq, percentRouted, replaceMatches_eq, hpieces, imageOf_append, imageOf_append,
      imageOf_map_plain]
  | percent _ _ hpieces =>
    rw [route_eq, percentRouted, replaceMatches_eq, hpieces, imageOf_append, imageOf_found]

/-- In every text that routing writes, what it writes for a command is a literal behind the name of
the wrapper, and the literal ends at the quote that closes it exactly when the command spares
quotes. -/
theorem Writes.closes_iff {content written before body after : List Char}
    (h : Writes content written before body after) :
    written = before ++ (wrapOpening ++ (escapeQuotes body ++ (wrapClosing ++ after))) ∧
      (literalLength? false (escapeQuotes body ++ (wrapClosing ++ after)) =
        some (escapeQuotes body).length ↔ SparesQuotes body) := by
  refine ⟨?_, literalLength?_escapeQuotes body (')' :: after)⟩
  rw [h.written_eq, wrapCommand_eq]
  simp only [List.append_assoc]

/-- A command between backticks whose last double quote stands behind two backslashes. -/
def doubledSlash : List Char := "cat \"#\x7bf\x7d\\\\\"".toList

/-- Two backslashes before a double quote stand for one, and the literal ends where it was closed. -/
theorem closes_doubledSlash :
    ∃ before after,
      Writes ('\x60' :: (doubledSlash ++ ['\x60'])) (route ('\x60' :: (doubledSlash ++ ['\x60'])))
        before doubledSlash after ∧
      literalLength? false (escapeQuotes doubledSlash ++ (wrapClosing ++ after)) =
        some (escapeQuotes doubledSlash).length := by
  have hquoted : Writes ('\x60' :: (doubledSlash ++ ['\x60']))
      (quotesRouted (callsRouted ('\x60' :: (doubledSlash ++ ['\x60'])))) [] doubledSlash [] :=
    .quoted [] [] rfl
  have hkept := Writes.kept [] [] hquoted rfl rfl
  exact ⟨[], [], hkept, hkept.closes_iff.2.mpr (by decide)⟩

/-- A command whose double quotes are escaped already. -/
def escapedQuotes : List Char := "echo \\\"#\x7bx\x7d\\\"".toList

/-- The backslash that is written before an escaped double quote sets it free: the literal ends
there, and not at the quote that closes it. -/
theorem not_closes_escapedQuotes :
    (∃ before after,
      Writes ('\x60' :: (escapedQuotes ++ ['\x60'])) (route ('\x60' :: (escapedQuotes ++ ['\x60'])))
        before escapedQuotes after ∧
      literalLength? false (escapeQuotes escapedQuotes ++ (wrapClosing ++ after)) = some 7) ∧
    (∃ before after,
      Writes ("%x(".toList ++ escapedQuotes ++ [')']) (route ("%x(".toList ++ escapedQuotes ++ [')']))
        before escapedQuotes after ∧
      literalLength? false (escapeQuotes escapedQuotes ++ (wrapClosing ++ after)) = some 7) ∧
    (escapeQuotes escapedQuotes).length = 15 := by
  have hquoted : Writes ('\x60' :: (escapedQuotes ++ ['\x60']))
      (quotesRouted (callsRouted ('\x60' :: (escapedQuotes ++ ['\x60'])))) [] escapedQuotes [] :=
    .quoted [] [] rfl
  refine ⟨⟨[], [], .kept [] [] hquoted rfl rfl, by decide⟩,
    ⟨[], [], .percent [] [] rfl, by decide⟩, by decide⟩

end RepoAudit.Ruby
