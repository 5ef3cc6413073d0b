import Mathlib.Data.List.Infix
import RepoAudit.Proofs.Text.Match

/-!
# Texts that a replacement brings in

A replacement can only bring a text about by its substitute. When the substitute is apart from a
text, an occurrence of that text after the replacement touches no substitute, so it stood there
before.

## Main definitions

- `Apart` — two texts that no text can hold on common ground

## Main statements

- `not_isInfix_replaceAll` — a substitute that is apart brings nothing in
- `not_isInfix_replaceAll_self` — nothing is left of what was replaced
- `isInfix_replaceAll` — the substitute is there after the replacement
-/

namespace RepoAudit.Text

variable {α : Type}

/-- Two texts of which neither is part of the other one, and neither ends as the other one
starts. -/
structure Apart (as bs : List Char) : Prop where
  /-- The first one is no part of the second one. -/
  not_isInfix : ¬ as <:+: bs
  /-- The second one is no part of the first one. -/
  not_isInfix' : ¬ bs <:+: as
  /-- The first one does not end as the second one starts. -/
  ends : ∀ u ∈ as.tails, u ≠ [] → ¬ u <+: bs
  /-- The second one does not end as the first one starts. -/
  ends' : ∀ u ∈ bs.tails, u ≠ [] → ¬ u <+: as

instance (as bs : List Char) : Decidable (Apart as bs) :=
  decidable_of_iff
    (¬ as <:+: bs ∧ ¬ bs <:+: as ∧ (∀ u ∈ as.tails, u ≠ [] → ¬ u <+: bs) ∧
      ∀ u ∈ bs.tails, u ≠ [] → ¬ u <+: as)
    ⟨fun ⟨h, h', hends, hends'⟩ => ⟨h, h', hends, hends'⟩,
      fun h => ⟨h.not_isInfix, h.not_isInfix', h.ends, h.ends'⟩⟩

theorem Apart.ne_nil {as bs : List Char} (h : Apart as bs) : as ≠ [] := by
  rintro rfl
  exact h.not_isInfix (List.nil_infix)

variable {needle substitute : List Char}

/-- A text at the start of an image that ends a text apart from the substitute is kept. -/
theorem exists_plain_of_prefix {ps : List (Piece α)} {tail rest : List Char}
    (h : Apart needle substitute) (htail : tail <:+ needle)
    (himage : imageOf (fun _ => substitute) ps = tail ++ rest) :
    ∃ qs, ps = tail.map .plain ++ qs := by
  induction tail generalizing ps with
  | nil => exact ⟨ps, rfl⟩
  | cons c tail ih =>
    cases ps with
    | nil => cases himage
    | cons p ps =>
      cases p with
      | plain d =>
        obtain ⟨rfl, hrest⟩ := List.cons.inj himage
        obtain ⟨qs, rfl⟩ := ih ((List.suffix_cons d tail).trans htail) hrest
        exact ⟨qs, rfl⟩
      | found value text =>
        rw [imageOf_found] at himage
        rcases List.append_eq_append_iff.mp himage with ⟨v, hv, -⟩ | ⟨v, hv, -⟩
        · refine absurd (List.IsInfix.trans ?_ htail.isInfix) h.not_isInfix'
          exact ⟨[], v, by rw [hv, List.nil_append]⟩
        · exact absurd ⟨v, hv.symm⟩
            (h.ends _ ((List.mem_tails _ _).mpr htail) (List.cons_ne_nil c tail))

/-- A text in an image that is apart from the substitute is kept from the original. -/
theorem exists_plain_of_isInfix {ps : List (Piece α)} (h : Apart needle substitute)
    (hstretch : needle <:+: imageOf (fun _ => substitute) ps) :
    ∃ qs rs, ps = qs ++ (needle.map .plain ++ rs) := by
  obtain ⟨lead, rest, himage⟩ := hstretch
  rw [List.append_assoc] at himage
  induction ps generalizing lead with
  | nil =>
    have hnil := (List.append_eq_nil_iff.mp (List.append_eq_nil_iff.mp himage).2).1
    exact absurd hnil h.ne_nil
  | cons p ps ih =>
    cases p with
    | plain c =>
      cases lead with
      | nil =>
        obtain ⟨rs, hrs⟩ := exists_plain_of_prefix h (List.suffix_refl needle) himage.symm
        exact ⟨[], rs, hrs⟩
      | cons d lead =>
        obtain ⟨qs, rs, rfl⟩ := ih lead (List.cons.inj himage).2
        exact ⟨.plain c :: qs, rs, rfl⟩
    | found value text =>
      have hlater : ∀ lead, lead ++ (needle ++ rest) = imageOf (fun _ => substitute) ps →
          ∃ qs rs, .found value text :: ps = qs ++ (needle.map .plain ++ rs) := by
        intro lead hlead
        obtain ⟨qs, rs, rfl⟩ := ih lead hlead
        exact ⟨.found value text :: qs, rs, rfl⟩
      rw [imageOf_found] at himage
      rcases append_eq_append_cases himage with ⟨v, hv, htail⟩ | ⟨v, -, -, htail⟩
      · -- The text starts inside the substitute, or right after it.
        by_cases hnil : v = []
        · rw [hnil] at htail
          exact hlater [] htail
        · rcases List.append_eq_append_iff.mp htail with ⟨u, rfl, -⟩ | ⟨u, hneedle, -⟩
          · exact absurd ⟨lead, u, by rw [hv, List.append_assoc]⟩ h.not_isInfix
          · exact absurd ⟨u, hneedle.symm⟩
              (h.ends' v ((List.mem_tails _ _).mpr ⟨lead, hv.symm⟩) hnil)
      · exact hlater v htail.symm

theorem textOf_append (ps qs : List (Piece α)) : textOf (ps ++ qs) = textOf ps ++ textOf qs :=
  List.flatMap_append

theorem textOf_map_plain (cs : List Char) :
    textOf (cs.map .plain : List (Piece α)) = cs := by
  induction cs with
  | nil => rfl
  | cons c cs ih => rw [List.map_cons, textOf_plain, ih]

theorem literal_fits (h : needle ≠ []) : (literal needle).Fits := by
  intro before cs value n hmatch
  rw [literal] at hmatch
  split at hmatch
  · next hfront =>
    obtain rfl := (Prod.mk.inj (Option.some.inj hmatch)).2
    exact ⟨List.length_pos_iff.mpr h, (List.isPrefixOf_iff_prefix.mp hfront).length_le⟩
  · cases hmatch

theorem replaceAll_eq (h : needle ≠ []) (cs : List Char) :
    replaceAll needle substitute cs = imageOf (fun _ => substitute) (pieces (literal needle) cs) := by
  rw [replaceAll, if_neg (by simpa using h), replaceMatches_eq]

/-- A substitute that is apart from a text brings no occurrence of it in. -/
theorem not_isInfix_replaceAll {other cs : List Char} (hne : needle ≠ [])
    (h : Apart other substitute) (hcs : ¬ other <:+: cs) :
    ¬ other <:+: replaceAll needle substitute cs := by
  rw [replaceAll_eq hne]
  intro hstretch
  obtain ⟨qs, rs, hps⟩ := exists_plain_of_isInfix h hstretch
  have hfits : (literal needle).Fits := literal_fits hne
  refine hcs ⟨textOf qs, textOf rs, ?_⟩
  rw [← (hfits.cut cs).textOf_eq, hps, textOf_append, textOf_append,
    textOf_map_plain, List.append_assoc]

/-- What a search passes over is no match. -/
theorem Cut.eq_none_of_plain {r : Recogniser α} {before : Option Char} {cs : List Char}
    {qs rs : List (Piece α)} {c : Char} (h : Cut r before cs (qs ++ .plain c :: rs)) :
    ∃ before', r before' (c :: textOf rs) = none := by
  induction qs generalizing before cs with
  | nil =>
    cases h with
    | plain hnone hcut => exact ⟨before, by rwa [hcut.textOf_eq]⟩
  | cons q qs ih =>
    cases h with
    | plain _ hcut => exact ih hcut
    | found _ _ hcut => exact ih hcut

/-- Nothing is left of what was replaced by a text that is apart from it. -/
theorem not_isInfix_replaceAll_self (h : Apart needle substitute) (cs : List Char) :
    ¬ needle <:+: replaceAll needle substitute cs := by
  rw [replaceAll_eq h.ne_nil]
  intro hstretch
  obtain ⟨qs, rs, hps⟩ := exists_plain_of_isInfix h hstretch
  have hfits : (literal needle).Fits := literal_fits h.ne_nil
  have hcut := hfits.cut cs
  obtain ⟨c, needle, rfl⟩ := List.exists_cons_of_ne_nil h.ne_nil
  rw [hps, List.map_cons, List.cons_append] at hcut
  obtain ⟨before, hnone⟩ := hcut.eq_none_of_plain
  have hsome : (literal (c :: needle) before (c :: textOf (needle.map .plain ++ rs))).isSome = true :=
    isSome_literal.mpr ⟨textOf rs, by rw [textOf_append, textOf_map_plain]; rfl⟩
  rw [hnone] at hsome
  cases hsome

/-- The substitute of something that occurs is there after the replacement. -/
theorem isInfix_replaceAll {cs : List Char} (h : needle <:+: cs) :
    substitute <:+: replaceAll needle substitute cs := by
  by_cases hne : needle = []
  · subst hne
    exact (List.prefix_append _ _).isInfix
  · have hfound : ∀ ps : List (Piece Unit), (firstPiece ps).isSome = true →
        substitute <:+: imageOf (fun _ => substitute) ps := by
      intro ps hps
      induction ps with
      | nil => cases hps
      | cons p ps ih =>
        cases p with
        | plain c =>
          rw [firstPiece, Option.isSome_map] at hps
          exact (ih hps).trans (List.suffix_cons c _).isInfix
        | found value text => exact (List.prefix_append _ _).isInfix
    rw [replaceAll_eq hne]
    refine hfound _ ?_
    rw [pieces, isSome_firstPiece, occurs_literal hne]
    exact h

end RepoAudit.Text
