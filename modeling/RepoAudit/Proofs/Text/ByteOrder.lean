import RepoAudit.Text.Utf8

/-!
# The order of bytes

A text is written in UTF-8 one character after the other, each in one to four bytes. A character
with a larger code point is written in at least as many bytes, and the first byte that differs is
larger. So the order of texts by their code points is the order of their bytes.

## Main definitions

- `bytesOf` — the bytes of a text

## Main statements

- `encodeChar_append_lt` — the order of two characters can be told from their bytes
- `bytesOf_lt_iff` — the order of two texts is that of their bytes
-/

namespace RepoAudit.Text

/-- The bytes of a text. -/
def bytesOf (s : String) : List UInt8 :=
  s.toUTF8.data.toList

theorem bytesOf_eq (s : String) : bytesOf s = s.toList.flatMap String.utf8EncodeChar := by
  rw [bytesOf, String.toUTF8_eq_toByteArray, ← String.utf8Encode_toList, List.utf8Encode]
  simp

/-- A byte that is written for a small number is that number. -/
theorem ofNat_lt_ofNat_iff {m n : Nat} (hm : m < 256) (hn : n < 256) :
    UInt8.ofNat m < UInt8.ofNat n ↔ m < n := by
  rw [UInt8.lt_iff_toNat_lt, UInt8.toNat_ofNat_of_lt' hm, UInt8.toNat_ofNat_of_lt' hn]

theorem ofNat_eq_ofNat_iff {m n : Nat} (hm : m < 256) (hn : n < 256) :
    UInt8.ofNat m = UInt8.ofNat n ↔ m = n := by
  rw [← UInt8.toNat_inj, UInt8.toNat_ofNat_of_lt' hm, UInt8.toNat_ofNat_of_lt' hn]

/-- Bytes that are written for small numbers come in the order of the numbers. -/
theorem ofNat_cons_lt_iff {m n : Nat} (hm : m < 256) (hn : n < 256) {as bs : List UInt8} :
    UInt8.ofNat m :: as < UInt8.ofNat n :: bs ↔ m < n ∨ m = n ∧ as < bs := by
  rw [List.cons_lt_cons_iff, ofNat_lt_ofNat_iff hm hn, ofNat_eq_ofNat_iff hm hn]

/-- A character with a smaller code point is written with a smaller byte at the first place where
the two differ, whatever follows. -/
theorem encodeChar_append_lt {c d : Char} (h : c < d) (as bs : List UInt8) :
    String.utf8EncodeChar c ++ as < String.utf8EncodeChar d ++ bs := by
  replace h : c.val.toNat < d.val.toNat := h
  have hd : d.val.toNat < 1114112 := by
    rcases d.valid with hd | hd
    · exact Nat.lt_trans hd (by decide)
    · exact hd.2
  unfold String.utf8EncodeChar
  generalize c.val.toNat = v at h ⊢
  generalize d.val.toNat = w at h hd ⊢
  dsimp only
  -- All bytes but the first are digits to the base 64.
  have hv : v / 64 / 64 = v / 4096 ∧ v / 4096 / 64 = v / 262144 := by
    simp only [Nat.div_div_eq_div_mul, Nat.reduceMul, and_self]
  have hw : w / 64 / 64 = w / 4096 ∧ w / 4096 / 64 = w / 262144 := by
    simp only [Nat.div_div_eq_div_mul, Nat.reduceMul, and_self]
  have hle : v / 64 ≤ w / 64 ∧ v / 4096 ≤ w / 4096 ∧ v / 262144 ≤ w / 262144 :=
    ⟨Nat.div_le_div_right (Nat.le_of_lt h), Nat.div_le_div_right (Nat.le_of_lt h),
      Nat.div_le_div_right (Nat.le_of_lt h)⟩
  have hlead : v / 262144 % 8 = v / 262144 ∧ w / 262144 % 8 = w / 262144 := by omega
  repeat' split
  -- A larger code point is not written in fewer bytes.
  any_goals omega
  all_goals
    simp (disch := omega) only [List.cons_append, List.nil_append, ofNat_cons_lt_iff]
    generalize (as < bs) = p
    omega

theorem flatMap_encodeChar_lt {as bs : List Char} (h : as < bs) :
    as.flatMap String.utf8EncodeChar < bs.flatMap String.utf8EncodeChar := by
  induction as generalizing bs with
  | nil =>
    cases bs with
    | nil => exact absurd h (List.lt_irrefl _)
    | cons b bs =>
      obtain ⟨byte, bytes, hbytes⟩ :=
        List.exists_cons_of_ne_nil (String.utf8EncodeChar_ne_nil (c := b))
      rw [List.flatMap_nil, List.flatMap_cons, hbytes]
      exact List.nil_lt_cons _ _
  | cons a as ih =>
    cases bs with
    | nil => cases h
    | cons b bs =>
      rw [List.flatMap_cons, List.flatMap_cons]
      rcases List.cons_lt_cons_iff.mp h with hab | ⟨rfl, hrest⟩
      · exact encodeChar_append_lt hab _ _
      · exact List.append_left_lt (ih hrest)

/-- Texts come in the order of their bytes. -/
theorem bytesOf_lt_iff (a b : String) : bytesOf a < bytesOf b ↔ a < b := by
  have hlt : ∀ a b : String, a < b → bytesOf a < bytesOf b := by
    intro a b h
    rw [bytesOf_eq, bytesOf_eq]
    exact flatMap_encodeChar_lt h
  refine ⟨fun h => Decidable.byContradiction fun hab => ?_, hlt a b⟩
  by_cases hba : b < a
  · exact List.lt_asymm h (hlt b a hba)
  · rw [String.le_antisymm (String.not_lt.mp hba) (String.not_lt.mp hab)] at h
    exact List.lt_irrefl _ h

end RepoAudit.Text
