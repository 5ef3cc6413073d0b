import Mathlib.Data.List.Perm.Basic
import RepoAudit.Proofs.Text.Commute
import RepoAudit.Remedy.Pin

/-!
# Upgraded pins

Whatever the advisories are, a changed text holds the fixed pin of one of them, so it is accepted
unless a vulnerable pin stands in it. An upgrade can leave or bring back a vulnerable pin only when
the fixed pin that it writes has something in common with it; the advisories that are apart in this
sense always meet their own check. Where no two vulnerable pins meet either, the order in which the
advisories are taken is of no account.

## Main definitions

- `Settling` — advisories whose upgrades bring back no pin that was upgraded
- `Independent` — advisories that do not meet at all

## Main statements

- `exists_isInfix_upgrades` — a changed text holds a fixed pin
- `Settling.not_isInfix` — settling advisories leave no vulnerable pin
- `passed_iff_unpinned` — when the remedy meets its own check
- `transform_perm` — independent advisories come to the same in every order
-/

namespace RepoAudit.Remedy.Pin

open RepoAudit.Text

/-- Advisories of which each one's vulnerable pin is apart from its own fixed pin and from those
that are written after it. -/
def Settling (advisories : List Advisory) : Prop :=
  (∀ a ∈ advisories, Apart a.vulnerable.toList a.fixed.toList) ∧
    advisories.Pairwise fun a b => Apart a.vulnerable.toList b.fixed.toList

instance (advisories : List Advisory) : Decidable (Settling advisories) :=
  inferInstanceAs (Decidable (_ ∧ _))

/-- An upgrade that changes a text leaves the fixed pin in it. -/
theorem isInfix_upgrade {content : List Char} {a : Advisory} (h : upgrade content a ≠ content) :
    a.fixed.toList <:+: upgrade content a := by
  rw [upgrade] at h ⊢
  by_cases hcontains : contains content a.vulnerable.toList = true
  · rw [if_pos hcontains]
    exact isInfix_replaceAll (contains_iff.mp hcontains)
  · rw [if_neg hcontains] at h
    exact absurd rfl h

/-- The last upgrade that changed the text has left its fixed pin. -/
theorem exists_isInfix_upgrades {advisories : List Advisory} {content : List Char}
    (h : advisories.foldl upgrade content ≠ content) :
    ∃ a ∈ advisories, a.fixed.toList <:+: advisories.foldl upgrade content := by
  induction advisories using List.reverseRecOn with
  | nil => exact absurd rfl h
  | append_singleton advisories a ih =>
    rw [List.foldl_append, List.foldl_cons, List.foldl_nil] at h ⊢
    by_cases hlast : upgrade (advisories.foldl upgrade content) a =
        advisories.foldl upgrade content
    · rw [hlast] at h ⊢
      obtain ⟨b, hb, hstretch⟩ := ih h
      exact ⟨b, List.mem_append_left _ hb, hstretch⟩
    · exact ⟨a, List.mem_append_right _ List.mem_cons_self, isInfix_upgrade hlast⟩

/-- An upgrade to a pin that is apart from another one brings no occurrence of that one in. -/
theorem not_isInfix_upgrade {content other : List Char} {a : Advisory}
    (hne : a.vulnerable.toList ≠ []) (h : Apart other a.fixed.toList)
    (hcontent : ¬ other <:+: content) : ¬ other <:+: upgrade content a := by
  rw [upgrade]
  split
  · exact not_isInfix_replaceAll hne h hcontent
  · exact hcontent

/-- Nothing is left of a vulnerable pin that is upgraded to one that is apart from it. -/
theorem not_isInfix_upgrade_self {a : Advisory}
    (h : Apart a.vulnerable.toList a.fixed.toList) (content : List Char) :
    ¬ a.vulnerable.toList <:+: upgrade content a := by
  rw [upgrade]
  split
  · exact not_isInfix_replaceAll_self h content
  · next hcontains => rwa [contains_iff] at hcontains

/-- The upgrades of settling advisories leave no vulnerable pin. -/
theorem Settling.not_isInfix {advisories : List Advisory} (h : Settling advisories)
    (content : List Char) :
    ∀ a ∈ advisories, ¬ a.vulnerable.toList <:+: advisories.foldl upgrade content := by
  induction advisories using List.reverseRecOn with
  | nil => simp
  | append_singleton advisories b ih =>
    obtain ⟨hself, hpairs⟩ := h
    rw [List.pairwise_append] at hpairs
    obtain ⟨hpairs, -, hlast⟩ := hpairs
    have hb : Apart b.vulnerable.toList b.fixed.toList :=
      hself b (List.mem_append_right _ List.mem_cons_self)
    have hbefore := ih ⟨fun a ha => hself a (List.mem_append_left _ ha), hpairs⟩
    rw [List.foldl_append, List.foldl_cons, List.foldl_nil]
    intro a ha
    rcases List.mem_append.mp ha with ha | ha
    · exact not_isInfix_upgrade hb.ne_nil (hlast a ha b List.mem_cons_self) (hbefore a ha)
    · obtain rfl := List.mem_singleton.mp ha
      exact not_isInfix_upgrade_self hb _

theorem verify_eq_passed_iff {advisories : List Advisory} {content : List Char} :
    verify advisories content = .passed ↔
      (∀ a ∈ advisories, ¬ a.vulnerable.toList <:+: content) ∧
        ∃ a ∈ advisories, a.fixed.toList <:+: content := by
  simp only [← contains_iff, Bool.not_eq_true]
  rw [verify]
  cases hfind : advisories.find? fun a => contains content a.vulnerable.toList with
  | some a =>
    have hcontains := List.find?_some hfind
    have hmem := List.mem_of_find?_eq_some hfind
    simp only [reduceCtorEq, false_iff, not_and]
    intro hnone
    rw [hnone a hmem] at hcontains
    cases hcontains
  | none =>
    have hnone : ∀ a ∈ advisories, contains content a.vulnerable.toList = false := by
      simpa using List.find?_eq_none.mp hfind
    rw [and_iff_right hnone, ← List.any_eq_true]
    dsimp only
    split <;> simp [*]

/-- What the upgrades make of a text holds the fixed pin of one of the advisories, so it is accepted
unless a vulnerable pin stands in it. None does when the advisories are settling. -/
theorem passed_iff_unpinned {path : Path} {advisories : List Advisory} {content text : List Char}
    (h : transform (advisoriesFor path advisories) content = some text) :
    (verify (advisoriesFor path advisories) text = .passed ↔
      ∀ a ∈ advisoriesFor path advisories, ¬ a.vulnerable.toList <:+: text) ∧
    (Settling (advisoriesFor path advisories) →
      verify (advisoriesFor path advisories) text = .passed) := by
  rw [transform] at h
  split at h
  · cases h
  · next hchanged =>
    obtain rfl := Option.some.inj h
    have hfixed := exists_isInfix_upgrades hchanged
    refine ⟨?_, fun hsettling => ?_⟩
    · rw [verify_eq_passed_iff, and_iff_left hfixed]
    · exact verify_eq_passed_iff.mpr ⟨hsettling.not_isInfix content, hfixed⟩

/-- Two advisories on one manifest. -/
def twoUpgrades : List Advisory :=
  [⟨"requirements.txt", "flask==1.0", "flask==1.1", "old"⟩,
    ⟨"./requirements.txt", "requests==2.5", "requests==3.0", "old"⟩]

theorem passed_twoUpgrades :
    transform (advisoriesFor ⟨"app/requirements.txt"⟩ twoUpgrades)
        "requests==2.5\nflask==1.0\n".toList = some "requests==3.0\nflask==1.1\n".toList ∧
      Settling (advisoriesFor ⟨"app/requirements.txt"⟩ twoUpgrades) ∧
      verify (advisoriesFor ⟨"app/requirements.txt"⟩ twoUpgrades)
        "requests==3.0\nflask==1.1\n".toList = .passed := by
  have htransform : transform (advisoriesFor ⟨"app/requirements.txt"⟩ twoUpgrades)
      "requests==2.5\nflask==1.0\n".toList = some "requests==3.0\nflask==1.1\n".toList := by
    decide +kernel
  have hsettling : Settling (advisoriesFor ⟨"app/requirements.txt"⟩ twoUpgrades) := by
    decide +kernel
  exact ⟨htransform, hsettling, (passed_iff_unpinned htransform).2 hsettling⟩

/-- An advisory whose fixed pin starts as the vulnerable one. -/
def patchUpgrade : Advisory := ⟨"requirements.txt", "lib==1.2", "lib==1.2.1", "old"⟩

/-- The vulnerable pin is part of the fixed one, and the upgraded text is refused. -/
theorem refused_patchUpgrade :
    transform (advisoriesFor ⟨"requirements.txt"⟩ [patchUpgrade]) "lib==1.2\n".toList =
        some "lib==1.2.1\n".toList ∧
      verify (advisoriesFor ⟨"requirements.txt"⟩ [patchUpgrade]) "lib==1.2.1\n".toList =
        .failed "lib==1.2 is still pinned" := by
  constructor
  · decide +kernel
  · decide +kernel

/-! ## The order of the advisories -/

/-- No two different advisories have vulnerable pins that meet, and no vulnerable pin meets a fixed
one, be it its own or that of another advisory. -/
structure Independent (advisories : List Advisory) : Prop where
  /-- The vulnerable pins of different advisories are apart. -/
  pins : ∀ a ∈ advisories, ∀ b ∈ advisories, a ≠ b → Apart a.vulnerable.toList b.vulnerable.toList
  /-- Every vulnerable pin is apart from every fixed one. -/
  upgrades : ∀ a ∈ advisories, ∀ b ∈ advisories, Apart a.vulnerable.toList b.fixed.toList

instance (advisories : List Advisory) : Decidable (Independent advisories) :=
  decidable_of_iff (_ ∧ _) ⟨fun h => ⟨h.1, h.2⟩, fun h => ⟨h.pins, h.upgrades⟩⟩

theorem Independent.settling {advisories : List Advisory} (h : Independent advisories) :
    Settling advisories :=
  ⟨fun a ha => h.upgrades a ha a ha, List.pairwise_iff_forall_sublist.mpr fun hpair =>
    h.upgrades _ (hpair.subset (by simp)) _ (hpair.subset (by simp))⟩

/-- A text without the vulnerable pin is kept, so an upgrade is a replacement in any case. -/
theorem upgrade_eq_replaceAll {a : Advisory} (h : a.vulnerable.toList ≠ []) (content : List Char) :
    upgrade content a = replaceAll a.vulnerable.toList a.fixed.toList content := by
  rw [upgrade]
  split
  · rfl
  · next hcontains =>
    rw [contains_iff] at hcontains
    exact (replaceAll_of_not_isInfix h hcontains).symm

theorem Independent.upgrade_comm {advisories : List Advisory} (h : Independent advisories)
    {a b : Advisory} (ha : a ∈ advisories) (hb : b ∈ advisories) (content : List Char) :
    upgrade (upgrade content a) b = upgrade (upgrade content b) a := by
  by_cases hab : a = b
  · rw [hab]
  · have hane := (h.upgrades a ha a ha).ne_nil
    have hbne := (h.upgrades b hb b hb).ne_nil
    rw [upgrade_eq_replaceAll hbne, upgrade_eq_replaceAll hane, upgrade_eq_replaceAll hane,
      upgrade_eq_replaceAll hbne]
    exact replaceAll_comm (h.pins b hb a ha (Ne.symm hab)) (h.upgrades b hb a ha)
      (h.upgrades a ha b hb) content

theorem getD_transform (advisories : List Advisory) (content : List Char) :
    (transform advisories content).getD content = advisories.foldl upgrade content := by
  rw [transform]
  split
  · next hsame => exact hsame.symm
  · rfl

/-- Independent advisories come to the same in every order, and no vulnerable pin is left by
them. -/
theorem transform_perm {advisories advisories' : List Advisory} (h : Independent advisories)
    (hperm : advisories'.Perm advisories) (content : List Char) :
    transform advisories' content = transform advisories content ∧
      ∀ a ∈ advisories, ¬ a.vulnerable.toList <:+: (transform advisories content).getD content := by
  have hfold : advisories'.foldl upgrade content = advisories.foldl upgrade content :=
    hperm.foldl_eq' (fun a ha b hb content =>
      h.upgrade_comm (hperm.mem_iff.mp ha) (hperm.mem_iff.mp hb) content) content
  refine ⟨?_, ?_⟩
  · rw [transform, transform, hfold]
  · rw [getD_transform]
    exact h.settling.not_isInfix content

/-- The pins of two packages of which one has the other's name in its own, one of them stated
twice. -/
def nestedNames : List Advisory :=
  [⟨"requirements.txt", "flask==1.0", "flask==1.1", "old"⟩,
    ⟨"requirements.txt", "flask==1.0", "flask==1.1", "old"⟩,
    ⟨"requirements.txt", "flask-cors==1.0", "flask-cors==1.1", "old"⟩]

theorem transform_perm_nestedNames :
    Independent nestedNames ∧ nestedNames.reverse ≠ nestedNames ∧
      transform nestedNames.reverse "flask-cors==1.0\nflask==1.0\n".toList =
        transform nestedNames "flask-cors==1.0\nflask==1.0\n".toList ∧
      transform nestedNames "flask-cors==1.0\nflask==1.0\n".toList =
        some "flask-cors==1.1\nflask==1.1\n".toList := by
  have h : Independent nestedNames := by decide +kernel
  exact ⟨h, by decide, (transform_perm h (List.reverse_perm nestedNames) _).1, by decide +kernel⟩

end RepoAudit.Remedy.Pin
