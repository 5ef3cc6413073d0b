import RepoAudit.Proofs.Snapshot.Sound
import RepoAudit.Proofs.Store.Reload
import RepoAudit.Remedy.Basic

/-!
# Weaknesses that are written and read again

A weakness is stored by its tag alone. One that was read from a tag, however the tag was spelled, is
read from its own tag as itself, so it comes through any number of writings and readings, by itself
and as the weakness of an issue, and its issue keeps its remedy.

## Main definitions

- `Weakness.named` — the weaknesses that are known by name
- `Weakness.afterRounds`, `Snapshot.afterRounds` — what is read after some writings and readings

## Main statements

- `Weakness.parse?_notMem_named` — the tag of any other weakness means none of them
- `Weakness.ofTag_eq_iff` — weaknesses that are read from tags are told apart by their own tags
- `Snapshot.keepsWeakness_afterRounds` — the issues of a snapshot keep such a weakness
- `Weakness.ofTag_survives` — all of this for a weakness that is read from a tag
-/

namespace RepoAudit

open Json

/-- The weaknesses that are known by name. -/
def Weakness.named : List Weakness :=
  [.promptInjection, .crossSiteScripting, .missingAuthorization, .codeInjection]

/-- What is read of a weakness after it is written and read some number of times. -/
def Weakness.afterRounds : Nat → Weakness → Option Weakness
  | 0, w => some w
  | n + 1, w => ((Json.read? (Json.text w.tag).pretty).bind weaknessOfJson?).bind (afterRounds n)

/-- What is read of a snapshot after it is written and read some number of times. -/
def Snapshot.afterRounds : Nat → Snapshot → Option Snapshot
  | 0, s => some s
  | n + 1, s => (Snapshot.read? s.write).bind (afterRounds n)

namespace Weakness

variable {raw raw' : String} {tag : String} {w : Weakness}

theorem notMem_named_iff : w ∉ named ↔ ∃ tag, w = .other tag := by
  cases w <;> simp [named]

/-- The tag of a weakness that has no name means none that has. -/
theorem parse?_notMem_named (h : ofTag raw = .other tag) :
    ∀ w ∈ parse? tag, w ∉ named := by
  intro w hw
  have hnormal : ofTag (ofTag raw).tag = ofTag raw := isNormal_ofTag raw
  rw [h, Weakness.tag, ofTag, hw, Option.getD_some] at hnormal
  exact notMem_named_iff.mpr ⟨tag, hnormal⟩

/-- Weaknesses that are read from tags are told apart by their own tags. -/
theorem ofTag_eq_iff : ofTag raw = ofTag raw' ↔ (ofTag raw).tag = (ofTag raw').tag := by
  refine ⟨congrArg Weakness.tag, fun h => ?_⟩
  calc
    ofTag raw = ofTag (ofTag raw).tag := (isNormal_ofTag raw).symm
    _ = ofTag (ofTag raw').tag := by rw [h]
    _ = ofTag raw' := isNormal_ofTag raw'

/-- A weakness is read from its written tag. -/
theorem weaknessOfJson?_written (w : Weakness) :
    (Json.read? (Json.text w.tag).pretty).bind weaknessOfJson? = some (ofTag w.tag) := by
  rw [Json.read?_pretty (Json.text w.tag) rfl]
  rfl

/-- A normal weakness is what is read of it, however often it is written. -/
theorem IsNormal.afterRounds_eq (h : w.IsNormal) (n : Nat) : afterRounds n w = some w := by
  induction n with
  | zero => rfl
  | succ n ih => rw [afterRounds, weaknessOfJson?_written, h, Option.bind_some, ih]

end Weakness

namespace Snapshot

/-- An issue has a weakness that another one in its place has. -/
def KeepsWeakness (w : Weakness) (i j : Issue) : Prop :=
  i.weakness = some w → j.weakness = some w

/-- A snapshot that its record keeps in full is read as it was, however often it is written. -/
theorem IsStorable.afterRounds_eq {s : Snapshot} (h : s.IsStorable) (n : Nat) :
    s.afterRounds n = some s := by
  induction n with
  | zero => rfl
  | succ n ih => rw [afterRounds, read?_write_of_isStorable h, Option.bind_some, ih]

/-- A normal weakness stays in its place when a snapshot is written and read. -/
theorem keepsWeakness_of_read?_write {s t : Snapshot} {w : Weakness} (hw : w.IsNormal)
    (h : Snapshot.read? s.write = some t) :
    List.Forall₂ (KeepsWeakness w) s.issues t.issues := by
  refine (issues_of_read?_write h).imp fun i j hj hi => ?_
  rw [Issue.eq_of_ofJson?_toJson hj, hi]
  exact congrArg some hw

/-- It stays there however often the snapshot is written and read. -/
theorem keepsWeakness_afterRounds {s t : Snapshot} {w : Weakness} {n : Nat} (hw : w.IsNormal)
    (h : s.afterRounds n = some t) : List.Forall₂ (KeepsWeakness w) s.issues t.issues := by
  induction n generalizing s with
  | zero =>
    obtain rfl := Option.some.inj h
    exact List.forall₂_same.mpr fun _ _ => id
  | succ n ih =>
    obtain ⟨s', hread, hrest⟩ := Option.bind_eq_some_iff.mp h
    exact forall₂_trans (fun _ _ _ hij hjk hi => hjk (hij hi))
      (keepsWeakness_of_read?_write hw hread) (ih hrest)

end Snapshot

/-- A weakness that is read from a tag, of whatever spelling, is read from its own tag as itself; it
is one without a name only if that tag means none with a name; it is told from others by its own
tag; and it comes through any number of rounds of writing and reading, by itself and as the weakness
of an issue, which keeps its remedy. -/
theorem Weakness.ofTag_survives (raw : String) :
    ofTag (ofTag raw).tag = ofTag raw ∧
    (∀ tag, ofTag raw = .other tag → ∀ w ∈ parse? tag, w ∉ named) ∧
    (∀ raw', ofTag raw = ofTag raw' ↔ (ofTag raw).tag = (ofTag raw').tag) ∧
    (∀ n, afterRounds n (ofTag raw) = some (ofTag raw)) ∧
    ∀ (n : Nat) (s : Snapshot), (s.IsStorable → s.afterRounds n = some s) ∧
      ∀ t, s.afterRounds n = some t →
        List.Forall₂ (fun i j => i.weakness = some (ofTag raw) →
          j.weakness = some (ofTag raw) ∧ j.weakness.bind Remedy.for? = i.weakness.bind Remedy.for?)
          s.issues t.issues := by
  have hnormal := isNormal_ofTag raw
  refine ⟨hnormal, fun _ => parse?_notMem_named, fun _ => ofTag_eq_iff, hnormal.afterRounds_eq,
    fun n s => ⟨fun hs => hs.afterRounds_eq n, fun t h => ?_⟩⟩
  refine (Snapshot.keepsWeakness_afterRounds hnormal h).imp fun i j hkeeps hi => ?_
  have hj := hkeeps hi
  exact ⟨hj, by rw [hi, hj]⟩

/-- The tag is not in its written form, and the number in it names no weakness because of the zero
in front. -/
theorem Weakness.ofTag_survives_padded :
    ofTag " cwe-079 " = .other "CWE-079" ∧ parse? "CWE-079" = some (.other "CWE-079") ∧
      Weakness.other "CWE-079" ∉ named ∧ ofTag " cwe-079 " ≠ ofTag "79" ∧
      afterRounds 3 (ofTag " cwe-079 ") = some (ofTag " cwe-079 ") ∧
      quotedSnapshot.afterRounds 3 = some quotedSnapshot := by
  have htag : ofTag " cwe-079 " = .other "CWE-079" := by decide
  have hparse : parse? "CWE-079" = some (.other "CWE-079") := by decide
  obtain ⟨-, hnamed, hsame, hrounds, hsnapshot⟩ := ofTag_survives " cwe-079 "
  refine ⟨htag, hparse, hnamed _ htag _ hparse, ?_, hrounds 3,
    (hsnapshot 3 quotedSnapshot).1 isStorable_quotedSnapshot⟩
  rw [Ne, hsame]
  decide

end RepoAudit
