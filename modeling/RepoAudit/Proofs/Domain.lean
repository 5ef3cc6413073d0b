import Mathlib.Data.List.Basic
import Mathlib.Order.Lattice
import RepoAudit.Proofs.Text.Joined
import RepoAudit.Scan.Surroundings

/-!
# Domains of joined texts

A keyword has no newline, and a newline is no part of a word, so texts that are joined by newlines
suggest what each of them suggests. Their domain is the one that comes first in the order of
priority among the domains of the texts. It depends on the texts that the documents of a repository
hold, and not on which document holds which of them.

## Main definitions

- `Domain.rank`, `Domain.prior` — the order of priority
- `Domain.texts` — the texts that the documents of a repository hold

## Main statements

- `Domain.rank_classify_le_iff` — the place of a text's domain in the order of priority
- `Domain.rank_detect_le_iff` — the place of a repository's domain
- `Domain.classify_joined` — the domain of two texts, and of a repository's documents
-/

namespace RepoAudit

namespace Domain

open RepoAudit.Text

/-- The place of a domain in the order of priority. -/
def rank (d : Domain) : Nat := all.idxOf d

/-- The one of two domains that comes first in the order of priority. -/
def prior (d e : Domain) : Domain := if d.rank ≤ e.rank then d else e

theorem rank_injective : Function.Injective rank := by
  intro d e h
  cases d <;> cases e <;> first | rfl | exact absurd h (by decide)

theorem rank_le_unspecified (d : Domain) : d.rank ≤ unspecified.rank := by
  cases d <;> decide

theorem mem_all (d : Domain) : d ∈ all := by
  cases d <;> decide

theorem rank_prior_le_iff (d e : Domain) (n : Nat) :
    (d.prior e).rank ≤ n ↔ d.rank ≤ n ∨ e.rank ≤ n := by
  rw [prior]
  split <;> omega

/-- The first domain with a property has the least place. -/
theorem rank_le_of_find?_eq_some {p : Domain → Bool} {d e : Domain} (h : all.find? p = some d)
    (he : p e = true) : d.rank ≤ e.rank := by
  obtain ⟨hd, before, after, hall, hbefore⟩ := List.find?_eq_some_iff_append.mp h
  have hnot : ∀ d, p d = true → d ∉ before := by
    intro d hd hmem
    have hfalse := hbefore d hmem
    rw [hd] at hfalse
    cases hfalse
  rw [rank, rank, hall, List.idxOf_append_of_notMem (hnot d hd),
    List.idxOf_append_of_notMem (hnot e he), List.idxOf_cons_self]
  omega

/-- The domain of a text has at most some place if a domain up to there is suggested. -/
theorem rank_classify_le_iff {text : List Char} {n : Nat} : (classify text).rank ≤ n ↔
    (∃ d, suggestedBy text d = true ∧ d.rank ≤ n) ∨ unspecified.rank ≤ n := by
  rw [classify]
  cases hfind : all.find? (suggestedBy text) with
  | none =>
    rw [Option.getD_none, or_iff_right]
    rintro ⟨d, hd, -⟩
    exact List.find?_eq_none.mp hfind d (mem_all d) hd
  | some d =>
    rw [Option.getD_some]
    constructor
    · exact fun h => .inl ⟨d, List.find?_some hfind, h⟩
    · rintro (⟨e, he, hle⟩ | hle)
      · exact Nat.le_trans (rank_le_of_find?_eq_some hfind he) hle
      · exact Nat.le_trans (rank_le_unspecified d) hle

/-! ## Joined texts -/

theorem keyword_ne_nil {d : Domain} {k : String} (h : k ∈ d.keywords) : k.toList ≠ [] := by
  revert k
  cases d <;> decide

theorem newline_notMem_keyword {d : Domain} {k : String} (h : k ∈ d.keywords) :
    '\n' ∉ k.toList := by
  revert k
  cases d <;> decide

theorem wholeKeyword?_endsAt {d : Domain} {k : String} (h : d.wholeKeyword? = some k) :
    (wholeWord k.toList).EndsAt '\n' := by
  cases d <;> cases h
  exact wholeWord_endsAt (by decide) (by decide) (by decide)

/-- A domain is suggested by two texts in lines of their own if either text suggests it. -/
theorem suggestedBy_append_cons (as bs : List Char) (d : Domain) :
    suggestedBy (as ++ '\n' :: bs) d = (suggestedBy as d || suggestedBy bs d) := by
  have hkeywords : (d.keywords.any fun k => contains (as ++ '\n' :: bs) k.toList) =
      ((d.keywords.any fun k => contains as k.toList) ||
        d.keywords.any fun k => contains bs k.toList) := by
    rw [Bool.eq_iff_iff, Bool.or_eq_true]
    simp only [List.any_eq_true, ← exists_or, ← and_or_left]
    refine exists_congr fun k => and_congr_right fun hk => ?_
    rw [contains_append_cons (keyword_ne_nil hk) (newline_notMem_keyword hk), Bool.or_eq_true]
  have hwhole : (d.wholeKeyword?.any fun k =>
        matchesAnywhere (wholeWord k.toList) (as ++ '\n' :: bs)) =
      ((d.wholeKeyword?.any fun k => matchesAnywhere (wholeWord k.toList) as) ||
        d.wholeKeyword?.any fun k => matchesAnywhere (wholeWord k.toList) bs) := by
    cases hd : d.wholeKeyword? with
    | none => rfl
    | some k => exact (wholeKeyword?_endsAt hd).matchesAnywhere_append_cons as bs
  rw [suggestedBy, hkeywords, hwhole, suggestedBy, suggestedBy]
  -- The keywords of both texts come before the whole words of both.
  ac_rfl

/-- The domain of two texts is the prior one of theirs. -/
theorem classify_append_cons (as bs : List Char) :
    classify (as ++ '\n' :: bs) = (classify as).prior (classify bs) := by
  refine rank_injective (eq_of_forall_ge_iff fun n => ?_)
  rw [rank_prior_le_iff, rank_classify_le_iff, rank_classify_le_iff, rank_classify_le_iff,
    ← or_or_distrib_right, ← exists_or]
  simp only [suggestedBy_append_cons, Bool.or_eq_true, or_and_right]

theorem rank_classify_intercalate_le_iff {texts : List (List Char)} {n : Nat} :
    (classify (['\n'].intercalate texts)).rank ≤ n ↔
      (∃ text ∈ texts, (classify text).rank ≤ n) ∨ unspecified.rank ≤ n := by
  induction texts with
  | nil =>
    have hnil : classify (['\n'].intercalate []) = unspecified := by decide
    rw [hnil]
    simp
  | cons text texts ih =>
    cases texts with
    | nil =>
      rw [List.intercalate_singleton]
      have hle := rank_le_unspecified (classify text)
      simp only [List.mem_singleton, exists_eq_left]
      omega
    | cons text' texts =>
      have hjoin : ['\n'].intercalate (text :: text' :: texts) =
          text ++ '\n' :: ['\n'].intercalate (text' :: texts) := by
        rw [List.intercalate_cons_cons, List.append_assoc, List.singleton_append]
      rw [hjoin, classify_append_cons, rank_prior_le_iff, ih, ← or_assoc]
      simp only [List.mem_cons, or_and_right, exists_or, exists_eq_left]

/-! ## The documents of a repository -/

theorem lowerKeywords_append (as bs : List Char) :
    lowerKeywords (as ++ bs) = lowerKeywords as ++ lowerKeywords bs :=
  List.flatMap_append

/-- Lines stay lines in lower case. -/
theorem lowerKeywords_intercalate (texts : List (List Char)) :
    lowerKeywords (['\n'].intercalate texts) = ['\n'].intercalate (texts.map lowerKeywords) := by
  induction texts with
  | nil => rfl
  | cons text texts ih =>
    cases texts with
    | nil => simp only [List.map_cons, List.map_nil, List.intercalate_singleton]
    | cons text' texts =>
      have hnewline : lowerKeywords ['\n'] = ['\n'] := by decide
      rw [List.intercalate_cons_cons, lowerKeywords_append, lowerKeywords_append, ih, hnewline]
      simp only [List.map_cons, List.intercalate_cons_cons]

/-- The texts that the documents of a repository hold. -/
def texts (root : Path) (files : FileTree) (here : Route) : List (List Char) :=
  documents.filterMap fun name =>
    match files.readText here (root.entry name) with
    | .ok text => some text.toList
    | .error _ => none

variable {root root' : Path} {files files' : FileTree} {here here' : Route}

/-- The domain of a repository is the first one in the order of priority that one of its documents
has. -/
theorem rank_detect_le_iff {n : Nat} : (detect root files here).rank ≤ n ↔
    (∃ text ∈ texts root files here, (classify (lowerKeywords text)).rank ≤ n) ∨
      unspecified.rank ≤ n := by
  have hdetect : detect root files here =
      classify (lowerKeywords (['\n'].intercalate (texts root files here))) := rfl
  rw [hdetect, lowerKeywords_intercalate, rank_classify_intercalate_le_iff]
  simp only [List.mem_map, exists_exists_and_eq_and]

/-- The domain of two texts in lines of their own is the one of their domains that comes first in
the order of priority. Whichever documents hold them, the same texts tell the same domain. -/
theorem classify_joined :
    (∀ as bs, classify (as ++ '\n' :: bs) = (classify as).prior (classify bs)) ∧
      ∀ {root root' : Path} {files files' : FileTree} {here here' : Route},
        (∀ text, text ∈ texts root files here ↔ text ∈ texts root' files' here') →
          detect root files here = detect root' files' here' := by
  refine ⟨classify_append_cons, fun htexts => ?_⟩
  refine rank_injective (eq_of_forall_ge_iff fun n => ?_)
  simp only [rank_detect_le_iff, htexts]

/-- A repository with two documents. -/
def documentTree (name text name' text' : String) : FileTree :=
  ⟨[(["r"], .directory), (["r", name], .file text.toUTF8), (["r", name'], .file text'.toUTF8)]⟩

/-- A text on whole words and one on a shop, in documents that are read in either order. -/
theorem classify_joined_documentTree :
    (∀ text,
      text ∈ texts ⟨"/r"⟩ (documentTree "README.md" "An AI" "README.txt" "Storefront.") [] ↔
      text ∈ texts ⟨"/r"⟩ (documentTree "README.md" "Storefront." "README" "An AI") []) ∧
      detect ⟨"/r"⟩ (documentTree "README.md" "An AI" "README.txt" "Storefront.") [] =
        detect ⟨"/r"⟩ (documentTree "README.md" "Storefront." "README" "An AI") [] ∧
      detect ⟨"/r"⟩ (documentTree "README.md" "An AI" "README.txt" "Storefront.") [] =
        commerce := by
  have hfirst : texts ⟨"/r"⟩ (documentTree "README.md" "An AI" "README.txt" "Storefront.") [] =
      ["An AI".toList, "Storefront.".toList] := by
    decide
  have hsecond : texts ⟨"/r"⟩ (documentTree "README.md" "Storefront." "README" "An AI") [] =
      ["Storefront.".toList, "An AI".toList] := by
    decide
  have htexts : ∀ text,
      text ∈ texts ⟨"/r"⟩ (documentTree "README.md" "An AI" "README.txt" "Storefront.") [] ↔
      text ∈ texts ⟨"/r"⟩ (documentTree "README.md" "Storefront." "README" "An AI") [] := by
    intro text
    rw [hfirst, hsecond, List.mem_pair, List.mem_pair, or_comm]
  exact ⟨htexts, classify_joined.2 htexts, by decide⟩

end Domain

end RepoAudit
