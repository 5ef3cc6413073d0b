import RepoAudit.Proofs.Store.Route

/-!
# Slugs without a name

A slug keeps the characters of a repository that are no separators, and no underscores at its ends.
So it names a directory of its own unless this leaves nothing, a dot or a double dot.

## Main definitions

- `IsNameless` — a repository of which nothing, a dot or a double dot is left

## Main statements

- `isPlainSlug_slugOf_iff` — the slugs that name a directory of their own
-/

namespace RepoAudit

/-- A separator or an underscore. -/
def IsBare (c : Char) : Prop :=
  isSlugSeparator c = true ∨ c = '_'

/-- A repository of which separators and underscores at its ends leave nothing, a dot or a double
dot. -/
def IsNameless (repository : String) : Prop :=
  ∃ name ∈ ["", ".", ".."], ∃ lead tail : List Char, (∀ c ∈ lead ++ tail, IsBare c) ∧
    repository.toList = lead ++ (name.toList ++ tail)

/-! ## Joined separators -/

theorem joinSeparators_append (inRun : Bool) (cs ds : List Char) :
    ∃ inRun', joinSeparators inRun (cs ++ ds) =
      joinSeparators inRun cs ++ joinSeparators inRun' ds := by
  induction cs generalizing inRun with
  | nil => exact ⟨inRun, rfl⟩
  | cons c cs ih =>
    rw [List.cons_append, joinSeparators, joinSeparators]
    by_cases hc : isSlugSeparator c
    · obtain ⟨inRun', h⟩ := ih true
      refine ⟨inRun', ?_⟩
      rw [if_pos hc, if_pos hc, h]
      cases inRun <;> rfl
    · obtain ⟨inRun', h⟩ := ih false
      refine ⟨inRun', ?_⟩
      rw [if_neg hc, if_neg hc, h]
      rfl

/-- Only separators and underscores become underscores. -/
theorem forall_mem_joinSeparators (inRun : Bool) (cs : List Char) :
    (∀ c ∈ joinSeparators inRun cs, c = '_') ↔ ∀ c ∈ cs, IsBare c := by
  induction cs generalizing inRun with
  | nil => simp [joinSeparators]
  | cons c cs ih =>
    rw [joinSeparators, List.forall_mem_cons]
    by_cases hc : isSlugSeparator c
    · have hbare : IsBare c := .inl hc
      rw [if_pos hc]
      cases inRun <;> simp [hbare, ih]
    · rw [if_neg hc, List.forall_mem_cons, ih]
      simp [IsBare, hc]

theorem joinSeparators_eq_self (inRun : Bool) {cs : List Char}
    (h : ∀ c ∈ cs, isSlugSeparator c = false) : joinSeparators inRun cs = cs := by
  induction cs generalizing inRun with
  | nil => rfl
  | cons c cs ih =>
    rw [List.forall_mem_cons] at h
    rw [joinSeparators, if_neg (by simp [h.1]), ih false h.2]

/-- What is joined to two texts is two texts, one joined after the other. -/
theorem exists_of_joinSeparators_eq_append {inRun : Bool} {cs xs ys : List Char}
    (h : joinSeparators inRun cs = xs ++ ys) :
    ∃ as bs inRun', cs = as ++ bs ∧ joinSeparators inRun as = xs ∧
      joinSeparators inRun' bs = ys := by
  induction cs generalizing inRun xs with
  | nil =>
    obtain ⟨rfl, rfl⟩ := List.append_eq_nil_iff.mp h.symm
    exact ⟨[], [], inRun, rfl, rfl, rfl⟩
  | cons c cs ih =>
    cases xs with
    | nil => exact ⟨[], c :: cs, inRun, rfl, rfl, h⟩
    | cons x xs =>
      rw [joinSeparators] at h
      by_cases hc : isSlugSeparator c
      · rw [if_pos hc] at h
        cases inRun with
        | true =>
          obtain ⟨as, bs, inRun', rfl, has, hbs⟩ := ih h
          exact ⟨c :: as, bs, inRun', rfl, by rw [joinSeparators, if_pos hc]; exact has, hbs⟩
        | false =>
          obtain ⟨rfl, hrest⟩ := List.cons.inj h
          obtain ⟨as, bs, inRun', rfl, rfl, hbs⟩ := ih hrest
          exact ⟨c :: as, bs, inRun', rfl, by rw [joinSeparators, if_pos hc]; rfl, hbs⟩
      · rw [if_neg hc] at h
        obtain ⟨rfl, hrest⟩ := List.cons.inj h
        obtain ⟨as, bs, inRun', rfl, rfl, hbs⟩ := ih hrest
        exact ⟨c :: as, bs, inRun', rfl, by rw [joinSeparators, if_neg hc], hbs⟩

/-- What is joined to a text without underscores is that text after separators of a run. -/
theorem eq_append_of_joinSeparators_eq {inRun : Bool} {cs name : List Char}
    (hname : '_' ∉ name) (h : joinSeparators inRun cs = name) :
    ∃ lead : List Char, (∀ c ∈ lead, isSlugSeparator c = true) ∧ cs = lead ++ name ∧
      (inRun = false → lead = []) := by
  induction cs generalizing inRun name with
  | nil => exact ⟨[], by simp, h, fun _ => rfl⟩
  | cons c cs ih =>
    rw [joinSeparators] at h
    by_cases hc : isSlugSeparator c
    · rw [if_pos hc] at h
      cases inRun with
      | true =>
        obtain ⟨lead, hlead, rfl, -⟩ := ih hname h
        exact ⟨c :: lead, List.forall_mem_cons.mpr ⟨hc, hlead⟩, rfl, by simp⟩
      | false =>
        rw [if_neg Bool.false_ne_true] at h
        exact (hname (h ▸ List.mem_cons_self)).elim
    · rw [if_neg hc] at h
      subst h
      obtain ⟨lead, -, hcs, hnil⟩ := ih (fun hmem => hname (List.mem_cons_of_mem c hmem)) rfl
      rw [hnil rfl] at hcs
      exact ⟨[], by simp, congrArg (c :: ·) hcs, fun _ => rfl⟩

/-! ## Trimmed underscores -/

theorem trimUnderscores_append {lead name tail : List Char} (hlead : ∀ c ∈ lead, c = '_')
    (htail : ∀ c ∈ tail, c = '_') (hname : '_' ∉ name) :
    trimUnderscores (lead ++ (name ++ tail)) = name := by
  have hdrop : ∀ xs ys : List Char, (∀ c ∈ xs, c = '_') → '_' ∉ ys →
      (xs ++ ys).dropWhile (· = '_') = ys := by
    intro xs ys hxs hys
    rw [List.dropWhile_append_of_pos (by simpa using hxs)]
    cases ys with
    | nil => rfl
    | cons y ys =>
      have hy : y ≠ '_' := fun heq => hys (heq ▸ List.mem_cons_self)
      rw [List.dropWhile_cons_of_neg (by simpa using hy)]
  cases hcases : name with
  | nil =>
    have hall : ∀ c ∈ lead ++ tail, c = '_' := by
      intro c hc
      exact (List.mem_append.mp hc).elim (hlead c) (htail c)
    have hnil := hdrop _ [] hall (by simp)
    rw [List.append_nil] at hnil
    rw [trimUnderscores, List.nil_append, hnil]
    rfl
  | cons n ns =>
    have hn : n ≠ '_' := fun heq => hname (hcases ▸ heq ▸ List.mem_cons_self)
    have hfirst : (lead ++ (n :: ns ++ tail)).dropWhile (· = '_') = n :: ns ++ tail := by
      rw [List.dropWhile_append_of_pos (by simpa using hlead), List.cons_append,
        List.dropWhile_cons_of_neg (by simpa using hn)]
    have hlast := hdrop tail.reverse (n :: ns).reverse (by simpa using htail)
      (by rw [List.mem_reverse, ← hcases]; exact hname)
    rw [trimUnderscores, hfirst, List.reverse_append, hlast, List.reverse_reverse]

theorem exists_trimUnderscores (cs : List Char) :
    ∃ lead tail : List Char, (∀ c ∈ lead, c = '_') ∧ (∀ c ∈ tail, c = '_') ∧
      cs = lead ++ (trimUnderscores cs ++ tail) := by
  have hmem : ∀ (xs : List Char), ∀ c ∈ xs.takeWhile (· = '_'), c = '_' := by
    intro xs c hc
    have hall := List.all_eq_true.mp (List.all_takeWhile (l := xs) (p := (· = '_'))) c hc
    simpa using hall
  refine ⟨cs.takeWhile (· = '_'), ((cs.dropWhile (· = '_')).reverse.takeWhile (· = '_')).reverse,
    hmem cs, fun c hc => hmem _ c (List.mem_reverse.mp hc), ?_⟩
  rw [trimUnderscores, ← List.reverse_append, List.takeWhile_append_dropWhile,
    List.reverse_reverse, List.takeWhile_append_dropWhile]

/-! ## Slugs -/

/-- A slug without separators and underscores is what they leave of the repository. -/
theorem slugOf_eq_iff {repository name : String}
    (hname : ∀ c ∈ name.toList, ¬IsBare c) :
    slugOf repository = name ↔ ∃ lead tail : List Char, (∀ c ∈ lead ++ tail, IsBare c) ∧
      repository.toList = lead ++ (name.toList ++ tail) := by
  have hunderscore : '_' ∉ name.toList := fun hmem => hname '_' hmem (.inr rfl)
  constructor
  · intro h
    have htrim : trimUnderscores (joinSeparators false repository.toList) = name.toList := by
      rw [← h, slugOf, String.toList_ofList]
    obtain ⟨lead, tail, hlead, htail, hjoined⟩ :=
      exists_trimUnderscores (joinSeparators false repository.toList)
    rw [htrim] at hjoined
    obtain ⟨as, rest, inRun, hrepository, has, hrest⟩ := exists_of_joinSeparators_eq_append hjoined
    obtain ⟨middle, bs, inRun', rfl, hmiddle, hbs⟩ := exists_of_joinSeparators_eq_append hrest
    obtain ⟨run, hrun, rfl, -⟩ := eq_append_of_joinSeparators_eq hunderscore hmiddle
    refine ⟨as ++ run, bs, fun c hc => ?_, by simp [hrepository]⟩
    rw [← has, forall_mem_joinSeparators] at hlead
    rw [← hbs, forall_mem_joinSeparators] at htail
    rcases List.mem_append.mp hc with hc | hc
    · exact (List.mem_append.mp hc).elim (hlead c) fun hc => .inl (hrun c hc)
    · exact htail c hc
  · rintro ⟨lead, tail, hbare, hrepository⟩
    obtain ⟨hlead, htail⟩ := List.forall_mem_append.mp hbare
    have hkept : ∀ c ∈ name.toList, isSlugSeparator c = false :=
      fun c hc => Bool.eq_false_iff.mpr fun hsep => hname c hc (.inl hsep)
    obtain ⟨inRun, hjoin⟩ := joinSeparators_append false lead (name.toList ++ tail)
    obtain ⟨inRun', hjoin'⟩ := joinSeparators_append inRun name.toList tail
    rw [slugOf, hrepository, hjoin, hjoin', joinSeparators_eq_self inRun hkept,
      trimUnderscores_append ((forall_mem_joinSeparators _ _).mpr hlead)
        ((forall_mem_joinSeparators _ _).mpr htail) hunderscore, String.ofList_toList]

/-- A slug names a directory of its own unless the repository is nameless. -/
theorem isPlainSlug_slugOf_iff (repository : String) :
    IsPlainSlug (slugOf repository) ↔ ¬IsNameless repository := by
  have hkept : ∀ name ∈ ["", ".", ".."], ∀ c ∈ name.toList, ¬IsBare c := by
    simp [IsBare, isSlugSeparator, Text.isBlank]
  have hnameless : IsNameless repository ↔ ∃ name ∈ ["", ".", ".."], slugOf repository = name :=
    exists_congr fun name => and_congr_right fun hname =>
      (slugOf_eq_iff (hkept name hname)).symm
  rw [hnameless, IsPlainSlug]
  simp

/-- A repository of separators alone has no slug. -/
example : slugOf "/_" = "" := by decide

end RepoAudit
