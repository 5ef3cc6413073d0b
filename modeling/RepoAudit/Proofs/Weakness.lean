import Mathlib.Tactic.SplitIfs
import RepoAudit.Issue.Weakness
import RepoAudit.Tool.Report
import RepoAudit.Proofs.Text.Blank

/-!
# Weaknesses and their tags

A weakness that was read from a tag is read from its own tag as itself. A tag that is made by hand
need not be one that reading gives: the weakness `other "79"` is read back as another one.

## Main definitions

- `Weakness.IsNormal` — a weakness that its own tag is read as

## Main statements

- `Weakness.isNormal_ofTag` — whatever is read from a tag is normal
-/

namespace RepoAudit.Weakness

open RepoAudit.Text

/-- A weakness that its own tag is read as. -/
def IsNormal (w : Weakness) : Prop :=
  ofTag w.tag = w

theorem after?_append (lead rest : List Char) : after? lead (lead ++ rest) = some rest := by
  rw [after?, if_pos (List.isPrefixOf_iff_prefix.mpr (List.prefix_append lead rest)),
    List.drop_left]

theorem withoutMark_append (number : List Char) :
    withoutMark ("CWE-".toList ++ number) = number := by
  rw [withoutMark, after?_append]

theorem isBlank_of_isDigit {c : Char} (h : c.isDigit = true) : isBlank c = false := by
  simp only [Char.isDigit, Bool.and_eq_true, decide_eq_true_eq, UInt32.le_iff_toNat_le] at h
  have hlow : 48 ≤ c.toNat := h.1
  have hhigh : c.toNat ≤ 57 := h.2
  have hne : ∀ n, 57 < n → (c.toNat == n) = false := fun n hn => beq_false_of_ne (by omega)
  simp [isBlank, hne]
  omega

/-- A mark before some digits is trimmed. -/
theorem trim_mark_append {number : List Char} (h : number.all Char.isDigit = true) :
    trim ("CWE-".toList ++ number) = "CWE-".toList ++ number := by
  apply trim_eq_self
  · intro c hc
    obtain rfl : 'C' = c := by simpa using hc
    rfl
  · intro c hc
    cases hlast : number.getLast? with
    | none =>
      obtain rfl : [] = number := (List.getLast?_eq_none_iff.mp hlast).symm
      obtain rfl : '-' = c := by simpa using hc
      rfl
    | some d =>
      obtain rfl : d = c := by
        rw [List.getLast?_append, hlast] at hc
        exact Option.some.inj hc
      exact isBlank_of_isDigit (List.all_eq_true.mp h d (List.mem_of_getLast? hlast))

/-- What a tag that is not blank is read as. -/
theorem ofTag_eq {raw : String} {tag : List Char} (htag : trim raw.toList = tag)
    (hblank : ¬tag.isEmpty) :
    ofTag raw =
      if withoutMark tag = "1427".toList then .promptInjection
      else if withoutMark tag = "79".toList then .crossSiteScripting
      else if withoutMark tag = "862".toList then .missingAuthorization
      else if withoutMark tag = "94".toList then .codeInjection
      else if (withoutMark tag).all Char.isDigit then
        .other (String.ofList ("CWE-".toList ++ withoutMark tag))
      else .other (String.ofList tag) := by
  rw [ofTag, parse?, htag, if_neg hblank, Option.getD_some]

/-- Whatever is read from a tag is read from its own tag as itself. -/
theorem isNormal_ofTag (raw : String) : (ofTag raw).IsNormal := by
  by_cases hblank : (trim raw.toList).isEmpty
  · have hraw : ofTag raw = .other raw := by
      rw [ofTag, parse?, if_pos hblank, Option.getD_none]
    rw [IsNormal, hraw]
    exact hraw
  · rw [ofTag_eq rfl hblank]
    split_ifs with h1427 h79 h862 h94 hdigits
    · rfl
    · rfl
    · rfl
    · rfl
    · have htrim := trim_mark_append hdigits
      rw [← String.toList_ofList (l := _ ++ _)] at htrim
      rw [IsNormal, tag, ofTag_eq htrim (by simp), String.toList_ofList, withoutMark_append,
        if_neg h1427, if_neg h79, if_neg h862, if_neg h94, if_pos hdigits]
    · have htrim : trim (String.ofList (trim raw.toList)).toList = trim raw.toList := by
        rw [String.toList_ofList, trim_trim]
      rw [IsNormal, tag, ofTag_eq htrim hblank, if_neg h1427, if_neg h79, if_neg h862, if_neg h94,
        if_neg hdigits]

theorem isNormal_crossSiteScripting : crossSiteScripting.IsNormal := rfl

theorem isNormal_missingAuthorization : missingAuthorization.IsNormal := rfl

theorem isNormal_codeInjection : codeInjection.IsNormal := rfl

theorem isNormal_ofNumber (n : Nat) : (ofNumber n).IsNormal :=
  isNormal_ofTag (toString n)

theorem isNormal_vulnerableComponent : Tool.vulnerableComponent.IsNormal := rfl

end RepoAudit.Weakness
