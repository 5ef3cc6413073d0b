import RepoAudit.Text.Offset

/-!
# Cutting at byte offsets

The number of bytes of a lead is an offset at which a text can be cut, and the cut gives that lead
back.

## Main definitions

- `IsBoundary` — an offset that falls inside no character

## Main statements

- `isBoundary_iff` — a text can be cut at its boundaries alone

- `spliceAt?_append` — replacing the bytes of a part of a text
- `isPrefix_of_spliceAt?` — what stands before the bytes that are replaced is kept
- `between?_append` — the bytes of a part of a text
- `exists_append_of_byteLength_le` — of two leads of a text, the one with more bytes continues the
  other
-/

namespace RepoAudit.Text

theorem cutAt?_append (lead rest : List Char) :
    cutAt? (byteLength lead) (lead ++ rest) = some (lead, rest) := by
  induction lead with
  | nil => rw [byteLength_nil, cutAt?, List.nil_append]
  | cons c lead ih =>
    have hpos := c.utf8Size_pos
    obtain ⟨n, hn⟩ : ∃ n, c.utf8Size + byteLength lead = n + 1 :=
      ⟨c.utf8Size + byteLength lead - 1, by omega⟩
    have hleft : n + 1 - c.utf8Size = byteLength lead := by omega
    rw [byteLength_cons, hn, List.cons_append, cutAt?, if_pos (by omega), hleft, ih]
    rfl

/-- The bytes of a part of a text are replaced, and all else is kept. -/
theorem spliceAt?_append (lead part substitute rest : List Char) :
    spliceAt? (byteLength lead) (byteLength lead + byteLength part) substitute
      (lead ++ part ++ rest) = some (lead ++ substitute ++ rest) := by
  rw [spliceAt?, if_pos (Nat.le_add_right _ _), List.append_assoc, cutAt?_append]
  simp only
  rw [Nat.add_sub_cancel_left, cutAt?_append]
  rfl

/-- The bytes of a part of a text are that part. -/
theorem between?_append (lead part rest : List Char) :
    between? (byteLength lead) (byteLength lead + byteLength part) (lead ++ (part ++ rest)) =
      some part := by
  rw [between?, if_pos (Nat.le_add_right _ _), cutAt?_append]
  simp only
  rw [Nat.add_sub_cancel_left, cutAt?_append]
  rfl

/-- The bytes of a front of the rest of a text are that front. -/
theorem between?_of_isPrefix (lead : List Char) {part rest : List Char} (h : part <+: rest) :
    between? (byteLength lead) (byteLength lead + byteLength part) (lead ++ rest) = some part := by
  obtain ⟨tail, rfl⟩ := h
  exact between?_append lead part tail

theorem eq_nil_of_byteLength_eq_zero {cs : List Char} (h : byteLength cs = 0) : cs = [] := by
  cases cs with
  | nil => rfl
  | cons c cs =>
    have hpos := c.utf8Size_pos
    rw [byteLength_cons] at h
    omega

/-- Of two leads of a text, the one with more bytes continues the other. -/
theorem exists_append_of_byteLength_le {as bs as' bs' : List Char} (h : as ++ bs = as' ++ bs')
    (hle : byteLength as ≤ byteLength as') : ∃ kept, as' = as ++ kept ∧ bs = kept ++ bs' := by
  rcases List.append_eq_append_iff.mp h with ⟨kept, has', hbs⟩ | ⟨extra, has, hbs'⟩
  · exact ⟨kept, has', hbs⟩
  · rw [has, byteLength_append] at hle
    have hextra : extra = [] := eq_nil_of_byteLength_eq_zero (by omega)
    subst hextra
    exact ⟨[], by simpa using has.symm, by simpa using hbs'.symm⟩

/-- A cut divides a text at the offset asked for. -/
theorem eq_append_of_cutAt? {offset : Nat} {cs lead rest : List Char}
    (h : cutAt? offset cs = some (lead, rest)) : cs = lead ++ rest ∧ byteLength lead = offset := by
  induction offset, cs using cutAt?.induct generalizing lead with
  | case1 cs =>
    rw [cutAt?] at h
    obtain ⟨rfl, rfl⟩ := Prod.mk.inj (Option.some.inj h)
    exact ⟨rfl, rfl⟩
  | case2 n => cases h
  | case3 n c cs hle ih =>
    rw [cutAt?, if_pos hle, Option.map_eq_some_iff] at h
    obtain ⟨⟨front, back⟩, hcut, heq⟩ := h
    obtain ⟨rfl, rfl⟩ := Prod.mk.inj heq
    obtain ⟨rfl, hbytes⟩ := ih hcut
    exact ⟨rfl, by rw [byteLength_cons]; omega⟩
  | case4 n c cs hle =>
    rw [cutAt?, if_neg hle] at h
    cases h

/-- What stands before the bytes that are replaced is kept. -/
theorem isPrefix_of_spliceAt? {start stop : Nat} {substitute cs text lead : List Char}
    (h : spliceAt? start stop substitute cs = some text) (hlead : lead <+: cs)
    (hle : byteLength lead ≤ start) : lead <+: text := by
  rw [spliceAt?] at h
  split at h
  · split at h
    · next front rest hcut =>
      obtain ⟨rfl, rfl⟩ := eq_append_of_cutAt? hcut
      obtain ⟨⟨-, tail⟩, -, rfl⟩ := Option.map_eq_some_iff.mp h
      obtain ⟨back, hback⟩ := hlead
      obtain ⟨kept, rfl, -⟩ := exists_append_of_byteLength_le hback hle
      exact ⟨kept ++ (substitute ++ tail), by simp only [List.append_assoc]⟩
    · cases h
  · cases h

/-- Two leads of a text with the same number of bytes are the same. -/
theorem append_inj_of_byteLength {as bs as' bs' : List Char} (h : as ++ bs = as' ++ bs')
    (hbytes : byteLength as = byteLength as') : as = as' ∧ bs = bs' := by
  obtain ⟨kept, rfl, rfl⟩ := exists_append_of_byteLength_le h (Nat.le_of_eq hbytes)
  rw [byteLength_append] at hbytes
  obtain rfl : kept = [] := eq_nil_of_byteLength_eq_zero (by omega)
  exact ⟨(List.append_nil as).symm, rfl⟩

/-- A byte offset falls between two characters of a text or at one of its ends. -/
def IsBoundary (cs : List Char) (offset : Nat) : Prop :=
  ∃ lead, lead <+: cs ∧ byteLength lead = offset

theorem isBoundary_iff {cs : List Char} {offset : Nat} :
    IsBoundary cs offset ↔ (cutAt? offset cs).isSome = true := by
  constructor
  · rintro ⟨lead, ⟨rest, rfl⟩, rfl⟩
    rw [cutAt?_append]
    rfl
  · intro h
    obtain ⟨⟨lead, rest⟩, hcut⟩ := Option.isSome_iff_exists.mp h
    obtain ⟨rfl, hbytes⟩ := eq_append_of_cutAt? hcut
    exact ⟨lead, List.prefix_append lead rest, hbytes⟩

instance (cs : List Char) (offset : Nat) : Decidable (IsBoundary cs offset) :=
  decidable_of_iff _ isBoundary_iff.symm

end RepoAudit.Text
