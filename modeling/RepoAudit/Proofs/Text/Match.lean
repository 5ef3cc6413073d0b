import RepoAudit.Text.Match

/-!
# Where matches stand

`Cut` tells the pieces of a text: the characters at which a recogniser finds nothing, and the texts
of its matches. What a search finds and what a replacement does is read off it by induction.

## Main definitions

- `Cut` — the pieces into which a recogniser cuts a text
- `Occurs` — a recogniser matches at some place of a text, found by the search or not
- `Overlaps` — a match starts inside the text of another one

## Main statements

- `Recogniser.Fits.cut` — searching cuts a text
- `matchesAnywhere_iff` — a search succeeds when there is a match to find
- `contains_iff` — containing a text is having it as an infix
- `Cut.split`, `Cut.plain_append` — a text that no match enters is cut on its own
-/

namespace RepoAudit.Text

variable {α : Type} {r : Recogniser α}

/-- The character before what follows a text, given the one before the text. -/
def lastAfter (before : Option Char) (cs : List Char) : Option Char :=
  cs.getLast?.or before

@[simp] theorem lastAfter_nil (before : Option Char) : lastAfter before [] = before := rfl

@[simp] theorem lastAfter_cons (before : Option Char) (c : Char) (cs : List Char) :
    lastAfter before (c :: cs) = lastAfter (some c) cs := by
  cases cs with
  | nil => rfl
  | cons d ds => simp [lastAfter, List.getLast?_cons]

theorem lastAfter_append (before : Option Char) (as bs : List Char) :
    lastAfter before (as ++ bs) = lastAfter (lastAfter before as) bs := by
  induction as generalizing before with
  | nil => rfl
  | cons a as ih => simp [ih]

theorem lastAfter_of_ne_nil {cs : List Char} (h : cs ≠ []) (before : Option Char) :
    lastAfter before cs = cs.getLast? := by
  simp [lastAfter, List.getLast?_eq_some_getLast h]

/-- Where a text that ends a text of two parts begins. -/
theorem append_eq_append_cases {as bs u w : List Char} (h : as ++ bs = u ++ w) :
    (∃ v, u = as ++ v ∧ bs = v ++ w) ∨ ∃ v, v ≠ [] ∧ as = u ++ v ∧ w = v ++ bs := by
  rcases List.append_eq_append_iff.mp h with ⟨v, hu, hbs⟩ | ⟨v, has, hw⟩
  · exact .inl ⟨v, hu, hbs⟩
  · by_cases hv : v = []
    · subst hv
      exact .inl ⟨[], by rw [has]; simp, by rw [hw]; rfl⟩
    · exact .inr ⟨v, hv, has, hw⟩

/-- The text that some pieces cover. -/
def textOf (ps : List (Piece α)) : List Char :=
  ps.flatMap Piece.text

/-- What a piece becomes when matches are replaced. -/
def Piece.image (f : α → List Char) : Piece α → List Char
  | .plain c => [c]
  | .found value _ => f value

/-- What some pieces become when matches are replaced. -/
def imageOf (f : α → List Char) (ps : List (Piece α)) : List Char :=
  ps.flatMap (Piece.image f)

@[simp] theorem textOf_nil : textOf ([] : List (Piece α)) = [] := rfl

@[simp] theorem textOf_plain (c : Char) (ps : List (Piece α)) :
    textOf (.plain c :: ps) = c :: textOf ps := rfl

@[simp] theorem textOf_found (value : α) (text : List Char) (ps : List (Piece α)) :
    textOf (.found value text :: ps) = text ++ textOf ps := rfl

@[simp] theorem imageOf_nil (f : α → List Char) : imageOf f [] = [] := rfl

@[simp] theorem imageOf_plain (f : α → List Char) (c : Char) (ps : List (Piece α)) :
    imageOf f (.plain c :: ps) = c :: imageOf f ps := rfl

@[simp] theorem imageOf_found (f : α → List Char) (value : α) (text : List Char)
    (ps : List (Piece α)) : imageOf f (.found value text :: ps) = f value ++ imageOf f ps := rfl

theorem imageOf_append (f : α → List Char) (ps qs : List (Piece α)) :
    imageOf f (ps ++ qs) = imageOf f ps ++ imageOf f qs :=
  List.flatMap_append

theorem imageOf_map_plain (f : α → List Char) (cs : List Char) :
    imageOf f (cs.map .plain) = cs := by
  induction cs with
  | nil => rfl
  | cons c cs ih => rw [List.map_cons, imageOf_plain, ih]

theorem replaceMatches_eq (f : α → List Char) (cs : List Char) :
    replaceMatches r f cs = imageOf f (pieces r cs) := rfl

/-- The pieces into which a recogniser cuts the text that follows a character. -/
inductive Cut (r : Recogniser α) : Option Char → List Char → List (Piece α) → Prop where
  | done {before : Option Char} : Cut r before [] []
  | plain {before : Option Char} {c : Char} {cs : List Char} {ps : List (Piece α)} :
      r before (c :: cs) = none → Cut r (some c) cs ps → Cut r before (c :: cs) (.plain c :: ps)
  | found {before : Option Char} {value : α} {text rest : List Char} {ps : List (Piece α)} :
      text ≠ [] → r before (text ++ rest) = some (value, text.length) →
        Cut r (lastAfter before text) rest ps → Cut r before (text ++ rest) (.found value text :: ps)

/-- Every match takes at least one character and no more than there are. -/
def Recogniser.Fits (r : Recogniser α) : Prop :=
  ∀ {before : Option Char} {cs : List Char} {value : α} {n : Nat},
    r before cs = some (value, n) → 0 < n ∧ n ≤ cs.length

theorem piecesFrom_append (before : Option Char) (text rest : List Char) :
    piecesFrom r before text.length (text ++ rest) = piecesFrom r (lastAfter before text) 0 rest := by
  induction text generalizing before with
  | nil => rfl
  | cons c text ih =>
    rw [List.cons_append, List.length_cons, piecesFrom, ih, lastAfter_cons]

/-- Searching a text cuts it. -/
theorem Recogniser.Fits.cutFrom (hr : r.Fits) (before : Option Char) (cs : List Char) :
    Cut r before cs (piecesFrom r before 0 cs) := by
  induction h : cs.length using Nat.strongRecOn generalizing before cs with
  | ind length ih =>
    cases cs with
    | nil =>
      rw [piecesFrom]
      exact .done
    | cons c cs =>
      rw [List.length_cons] at h
      rw [piecesFrom]
      cases hmatch : r before (c :: cs) with
      | none => exact .plain hmatch (ih cs.length (by omega) (some c) cs rfl)
      | some hit =>
        obtain ⟨value, n⟩ := hit
        obtain ⟨hpos, hle⟩ := hr hmatch
        obtain ⟨k, rfl⟩ : ∃ k, n = k + 1 := ⟨n - 1, by omega⟩
        rw [List.length_cons] at hle
        have htake : (c :: cs).take (k + 1) = c :: cs.take k := rfl
        have hlength : (cs.take k).length = k := List.length_take_of_le (by omega)
        have hsplit : c :: cs = c :: cs.take k ++ cs.drop k := by
          rw [List.cons_append, List.take_append_drop]
        have hskip := piecesFrom_append (r := r) (some c) (cs.take k) (cs.drop k)
        rw [hlength, List.take_append_drop] at hskip
        have hrest := ih (cs.drop k).length (by rw [List.length_drop]; omega)
          (lastAfter before (c :: cs.take k)) (cs.drop k) rfl
        simp only [Nat.add_sub_cancel, htake]
        rw [hskip, ← lastAfter_cons before, hsplit]
        refine .found (List.cons_ne_nil _ _) ?_ hrest
        rw [← hsplit, hmatch, List.length_cons, hlength]

theorem Recogniser.Fits.cut (hr : r.Fits) (cs : List Char) : Cut r none cs (pieces r cs) :=
  hr.cutFrom none cs

namespace Cut

variable {before : Option Char} {cs : List Char} {ps : List (Piece α)}

/-- Nothing of a text is lost when it is cut. -/
theorem textOf_eq (h : Cut r before cs ps) : textOf ps = cs := by
  induction h with
  | done => rfl
  | plain _ _ ih => rw [textOf_plain, ih]
  | found _ _ _ ih => rw [textOf_found, ih]

/-- A text in which no match starts is kept character by character. -/
theorem plain_append {text rest : List Char} (h : Cut r before (text ++ rest) ps)
    (hnone : ∀ u v, text = u ++ v → v ≠ [] → r (lastAfter before u) (v ++ rest) = none) :
    ∃ qs, ps = text.map .plain ++ qs ∧ Cut r (lastAfter before text) rest qs := by
  induction text generalizing before ps with
  | nil => exact ⟨ps, rfl, h⟩
  | cons c text ih =>
    have hhere : r before (c :: (text ++ rest)) = none := hnone [] (c :: text) rfl (by simp)
    rw [List.cons_append] at h
    generalize hcs : c :: (text ++ rest) = cs at h
    cases h with
    | done => cases hcs
    | plain _ hcut =>
      cases hcs
      obtain ⟨qs, rfl, hqs⟩ := ih hcut fun u v huv hv => by
        have := hnone (c :: u) v (by rw [huv, List.cons_append]) hv
        rwa [lastAfter_cons] at this
      exact ⟨qs, rfl, by rwa [lastAfter_cons]⟩
    | found _ hmatch _ =>
      rw [← hcs, hhere] at hmatch
      cases hmatch

/-- A text whose matches stay inside it is cut on its own. -/
theorem split {text rest : List Char} (h : Cut r before (text ++ rest) ps)
    (hinside : ∀ u v value n, text = u ++ v → v ≠ [] →
      r (lastAfter before u) (v ++ rest) = some (value, n) → n ≤ v.length) :
    ∃ qs qs', ps = qs ++ qs' ∧ textOf qs = text ∧ Cut r (lastAfter before text) rest qs' := by
  induction hn : text.length using Nat.strongRecOn generalizing before text ps with
  | ind length ih =>
    cases text with
    | nil => exact ⟨[], ps, rfl, rfl, h⟩
    | cons c text =>
      generalize hcs : c :: text ++ rest = cs at h
      cases h with
      | done => cases hcs
      | plain _ hcut =>
        cases hcs
        obtain ⟨qs, qs', rfl, hqs, hcut'⟩ := ih text.length (by simp [← hn]) hcut
          (fun u v value n huv hv hmatch => by
            refine hinside (c :: u) v value n (by rw [huv, List.cons_append]) hv ?_
            rwa [lastAfter_cons]) rfl
        exact ⟨.plain c :: qs, qs', rfl, by rw [textOf_plain, hqs], by rwa [lastAfter_cons]⟩
      | @found _ value found tail ps hne hmatch hcut =>
        have hle : found.length ≤ (c :: text).length :=
          hinside [] (c :: text) value _ rfl (by simp) (by rw [hcs]; exact hmatch)
        obtain ⟨inner, hinner⟩ : found <+: c :: text :=
          List.prefix_of_prefix_length_le ⟨tail, rfl⟩ ⟨rest, hcs⟩ hle
        obtain rfl : inner ++ rest = tail := by
          rw [← hinner, List.append_assoc] at hcs
          exact List.append_cancel_left hcs
        have hpos : 0 < found.length := List.length_pos_iff.mpr hne
        have hlength := congrArg List.length hinner
        rw [List.length_append] at hlength
        obtain ⟨qs, qs', rfl, hqs, hcut'⟩ := ih inner.length (by omega) hcut
          (fun u v value n huv hv hmatch => by
            refine hinside (found ++ u) v value n ?_ hv ?_
            · rw [← hinner, huv, List.append_assoc]
            · rwa [lastAfter_append]) rfl
        refine ⟨.found value found :: qs, qs', rfl, ?_, ?_⟩
        · rw [textOf_found, hqs, hinner]
        · rwa [← hinner, lastAfter_append]

/-- A replaced text is made of its own characters and those of the substitutes. -/
theorem mem_imageOf {f : α → List Char} {d : Char} (h : Cut r before cs ps)
    (hd : d ∈ imageOf f ps) : d ∈ cs ∨ ∃ value, d ∈ f value := by
  induction h with
  | done => cases hd
  | plain _ _ ih =>
    rcases List.mem_cons.mp hd with rfl | hd
    · exact .inl List.mem_cons_self
    · exact (ih hd).imp_left (List.mem_cons_of_mem _)
  | @found _ value text rest ps _ _ _ ih =>
    rw [imageOf_found] at hd
    rcases List.mem_append.mp hd with hd | hd
    · exact .inr ⟨value, hd⟩
    · exact (ih hd).imp_left (List.mem_append_right text)

/-- A text that no match enters and in which none starts is kept when matches are replaced. -/
theorem imageOf_keeps (f : α → List Char) {text kept rest : List Char}
    (h : Cut r before (text ++ (kept ++ rest)) ps)
    (hinside : ∀ b v value n, v ≠ [] → v <:+ text → r b (v ++ (kept ++ rest)) = some (value, n) →
      n ≤ v.length)
    (hnone : ∀ b v, v ≠ [] → v <:+ kept → r b (v ++ rest) = none) :
    ∃ text' qs, imageOf f ps = text' ++ (kept ++ imageOf f qs) ∧ (text = [] → text' = []) ∧
      Cut r (lastAfter before (text ++ kept)) rest qs := by
  obtain ⟨qs, qs', rfl, hnil, hcut⟩ : ∃ qs qs', ps = qs ++ qs' ∧ (text = [] → imageOf f qs = []) ∧
      Cut r (lastAfter before text) (kept ++ rest) qs' := by
    by_cases htext : text = []
    · subst htext
      exact ⟨[], ps, rfl, fun _ => rfl, h⟩
    · obtain ⟨qs, qs', hps, -, hcut⟩ := h.split fun u v value n huv hv =>
        hinside _ v value n hv ⟨u, huv.symm⟩
      exact ⟨qs, qs', hps, fun h => absurd h htext, hcut⟩
  obtain ⟨rest', rfl, hrest⟩ := hcut.plain_append fun u v huv hv => hnone _ v hv ⟨u, huv.symm⟩
  refine ⟨imageOf f qs, rest', ?_, hnil, ?_⟩
  · rw [imageOf_append, imageOf_append, imageOf_map_plain]
  · rwa [lastAfter_append]

end Cut

theorem mem_replaceMatches (hr : r.Fits) {f : α → List Char} {cs : List Char} {d : Char}
    (h : d ∈ replaceMatches r f cs) : d ∈ cs ∨ ∃ value, d ∈ f value :=
  (hr.cut cs).mem_imageOf h

/-- A recogniser matches at some place of the text that follows a character. -/
def Occurs (r : Recogniser α) (before : Option Char) (cs : List Char) : Prop :=
  ∃ lead rest, cs = lead ++ rest ∧ rest ≠ [] ∧ (r (lastAfter before lead) rest).isSome

@[simp] theorem not_occurs_nil (before : Option Char) : ¬ Occurs r before [] := by
  rintro ⟨lead, rest, hcs, hrest, -⟩
  exact hrest (List.append_eq_nil_iff.mp hcs.symm).2

theorem occurs_cons {before : Option Char} {c : Char} {cs : List Char} :
    Occurs r before (c :: cs) ↔ (r before (c :: cs)).isSome ∨ Occurs r (some c) cs := by
  constructor
  · rintro ⟨lead, rest, hcs, hrest, hmatch⟩
    cases lead with
    | nil =>
      rw [List.nil_append] at hcs
      rw [hcs]
      exact .inl hmatch
    | cons d lead =>
      obtain ⟨rfl, rfl⟩ := List.cons.inj hcs
      rw [lastAfter_cons] at hmatch
      exact .inr ⟨lead, rest, rfl, hrest, hmatch⟩
  · rintro (hmatch | ⟨lead, rest, rfl, hrest, hmatch⟩)
    · exact ⟨[], c :: cs, rfl, List.cons_ne_nil c cs, hmatch⟩
    · exact ⟨c :: lead, rest, rfl, hrest, by rwa [lastAfter_cons]⟩

theorem isSome_firstPiece (before : Option Char) (cs : List Char) :
    (firstPiece (piecesFrom r before 0 cs)).isSome = true ↔ Occurs r before cs := by
  induction cs generalizing before with
  | nil => simp [piecesFrom, firstPiece]
  | cons c cs ih =>
    rw [piecesFrom, occurs_cons]
    cases hmatch : r before (c :: cs) with
    | none => simp [firstPiece, ih]
    | some hit => simp [firstPiece]

/-- A search succeeds when there is a match to find, since nothing is passed over before the first
one. -/
theorem matchesAnywhere_iff {cs : List Char} :
    matchesAnywhere r cs = true ↔ Occurs r none cs :=
  isSome_firstPiece none cs

theorem firstMatch_eq_none_iff {cs : List Char} : firstMatch r cs = none ↔ ¬ Occurs r none cs := by
  rw [← matchesAnywhere_iff, matchesAnywhere]
  cases firstMatch r cs <;> simp

/-- A match starts inside the text of another one. -/
def Overlaps (r : Recogniser α) (ps : List (Piece α)) : Prop :=
  ∃ lead value u w rest, ps = lead ++ .found value (u ++ w) :: rest ∧ u ≠ [] ∧ w ≠ [] ∧
    (r u.getLast? (w ++ textOf rest)).isSome

@[simp] theorem not_overlaps_nil : ¬ Overlaps r [] := by
  rintro ⟨lead, value, u, w, rest, h, -⟩
  cases lead <;> cases h

theorem overlaps_plain {c : Char} {ps : List (Piece α)} :
    Overlaps r (.plain c :: ps) ↔ Overlaps r ps := by
  constructor
  · rintro ⟨lead, value, u, w, rest, h, hu, hw, hmatch⟩
    cases lead with
    | nil => cases h
    | cons p lead => exact ⟨lead, value, u, w, rest, (List.cons.inj h).2, hu, hw, hmatch⟩
  · rintro ⟨lead, value, u, w, rest, rfl, hu, hw, hmatch⟩
    exact ⟨.plain c :: lead, value, u, w, rest, rfl, hu, hw, hmatch⟩

theorem overlaps_found {value : α} {text : List Char} {ps : List (Piece α)} :
    Overlaps r (.found value text :: ps) ↔
      (∃ u w, text = u ++ w ∧ u ≠ [] ∧ w ≠ [] ∧ (r u.getLast? (w ++ textOf ps)).isSome) ∨
        Overlaps r ps := by
  constructor
  · rintro ⟨lead, value', u, w, rest, h, hu, hw, hmatch⟩
    cases lead with
    | nil =>
      obtain ⟨hfound, rfl⟩ := List.cons.inj h
      obtain ⟨-, rfl⟩ := Piece.found.inj hfound
      exact .inl ⟨u, w, rfl, hu, hw, hmatch⟩
    | cons p lead => exact .inr ⟨lead, value', u, w, rest, (List.cons.inj h).2, hu, hw, hmatch⟩
  · rintro (⟨u, w, rfl, hu, hw, hmatch⟩ | ⟨lead, value', u, w, rest, rfl, hu, hw, hmatch⟩)
    · exact ⟨[], value, u, w, ps, rfl, hu, hw, hmatch⟩
    · exact ⟨.found value text :: lead, value', u, w, rest, rfl, hu, hw, hmatch⟩

theorem isSome_literal {needle cs : List Char} {before : Option Char} :
    (literal needle before cs).isSome = true ↔ needle <+: cs := by
  rw [literal, ← List.isPrefixOf_iff_prefix]
  split <;> simp [*]

theorem occurs_literal {needle cs : List Char} (h : needle ≠ []) {before : Option Char} :
    Occurs (literal needle) before cs ↔ needle <:+: cs := by
  constructor
  · rintro ⟨lead, rest, rfl, -, hmatch⟩
    obtain ⟨tail, rfl⟩ := isSome_literal.mp hmatch
    exact ⟨lead, tail, by rw [List.append_assoc]⟩
  · rintro ⟨lead, tail, rfl⟩
    refine ⟨lead, needle ++ tail, List.append_assoc _ _ _, ?_, isSome_literal.mpr ⟨tail, rfl⟩⟩
    simp [h]

/-- A text contains another one when it has it as an infix. -/
theorem contains_iff {cs needle : List Char} : contains cs needle = true ↔ needle <:+: cs := by
  by_cases h : needle = []
  · subst h
    simp [contains]
  · rw [contains, Bool.or_eq_true, matchesAnywhere_iff, occurs_literal h]
    simp [h]

theorem beforeFirst?_eq_none_iff {needle cs : List Char} :
    beforeFirst? needle cs = none ↔ ¬ needle <:+: cs := by
  rw [beforeFirst?]
  split
  · next h =>
    obtain rfl := List.isEmpty_iff.mp h
    simp
  · next h =>
    have hne : needle ≠ [] := fun hnil => h (List.isEmpty_iff.mpr hnil)
    rw [Option.map_eq_none_iff, firstMatch_eq_none_iff, occurs_literal hne]

/-- A single character is replaced wherever it stands. -/
theorem replaceAll_singleton (c : Char) (substitute cs : List Char) :
    replaceAll [c] substitute cs = cs.flatMap fun d => if d = c then substitute else [d] := by
  rw [replaceAll, if_neg (by simp), replaceMatches_eq, pieces]
  generalize none = before
  induction cs generalizing before with
  | nil => rfl
  | cons d cs ih =>
    rw [piecesFrom, literal]
    by_cases hd : d = c
    · subst hd
      simp [ih]
    · simp [hd, Ne.symm hd, ih]

theorem after?_eq_some {lead cs rest : List Char} :
    after? lead cs = some rest ↔ cs = lead ++ rest := by
  rw [after?]
  constructor
  · intro h
    split at h
    · rename_i hfront
      obtain ⟨tail, rfl⟩ := List.isPrefixOf_iff_prefix.mp hfront
      rw [List.drop_left] at h
      rw [Option.some.inj h]
    · cases h
  · rintro rfl
    rw [if_pos (List.isPrefixOf_iff_prefix.mpr ⟨rest, rfl⟩), List.drop_left]

theorem after?_append_singleton {c : Char} {lead : List Char} (hc : c ∉ lead) (cs : List Char) :
    after? lead (cs ++ [c]) = (after? lead cs).map (· ++ [c]) := by
  ext rest
  rw [after?_eq_some, Option.map_eq_some_iff]
  constructor
  · intro h
    rcases append_eq_append_cases h with ⟨v, hlead, hv⟩ | ⟨v, -, rfl, rfl⟩
    · cases v with
      | nil => exact ⟨[], after?_eq_some.mpr (by simp [hlead]), by simpa using hv⟩
      | cons d v =>
        obtain ⟨rfl, -⟩ := List.cons.inj (show [c] = d :: (v ++ rest) from hv)
        exact absurd (by rw [hlead]; simp) hc
    · exact ⟨v, after?_eq_some.mpr rfl, rfl⟩
  · rintro ⟨rest', hrest, rfl⟩
    rw [after?_eq_some.mp hrest, List.append_assoc]

end RepoAudit.Text
