import RepoAudit.Proofs.Text.Lines
import RepoAudit.Ruby.Shell

/-!
# The method around a line

The method around a line is told by indentation: it is the nearest one above whose method line is
indented less than the line itself. What stands between the two is not looked at, so the method may
have ended, and a line after its end that is indented for another reason is taken for a line of its
body. The search never goes wrong where behind every such method there is one that goes on.

## Main definitions

- `Precedes` — a method line above another line that is indented less
- `Encloses` — nothing between the two lines leaves the body of the method
- `StaysInside` — what is told of the method around a line comes from a method that encloses it

## Main statements

- `enclosingDef?_eq_some_iff` — the search finds the last method line that precedes
- `staysInside_iff` — when what is told of the method around a line can be relied on
-/

namespace RepoAudit.Ruby

open RepoAudit.Text

variable {lines : List Line} {index d e : Nat}

/-- A method line that is indented less than a bound. -/
def OpensBelow (bound : Nat) (line : Line) : Prop :=
  (afterDef? line).isSome = true ∧ indentWidth line < bound

/-- A method line stands above another line and is indented less. -/
structure Precedes (lines : List Line) (d index : Nat) : Prop where
  /-- It stands above. -/
  lt : d < index
  /-- It opens a method and is indented less. -/
  opens : OpensBelow (indentWidth (lines.getD index [])) (lines.getD d [])

/-- A line stands in the body of a method: all lines between the two that are not blank are indented
more than the method line. -/
structure Encloses (lines : List Line) (d index : Nat) : Prop extends Precedes lines d index where
  /-- No line in between leaves the body. -/
  stays : ∀ k, d < k → k < index → isBlankText (lines.getD k []) = false →
    indentWidth (lines.getD d []) < indentWidth (lines.getD k [])

/-- What is told of the method around a line comes from a method that encloses it. -/
structure StaysInside (lines : List Line) (index : Nat) : Prop where
  /-- The method that is found encloses the line. -/
  body : ∀ d, enclosingDef? lines index = some d → Encloses lines d index
  /-- The parameter is that of a method that encloses the line. -/
  parameter : ∀ p, methodParameter? lines index = some p →
    ∃ d, Encloses lines d index ∧ firstParameter? (lines.getD d []) = some p
  /-- The guard goes directly above the line, or to the top of a method that encloses it, with more
  indentation than the method line. -/
  guard : guardSite lines index = (index, indent (lines.getD index [])) ∨
    ∃ d, Encloses lines d index ∧ (guardSite lines index).1 = d + 1 ∧
      indentWidth (lines.getD d []) < byteLength (guardSite lines index).2

/-! ## The method that is found -/

/-- Beyond the last line there is no method line. -/
theorem OpensBelow.lt_length {bound n : Nat} (h : OpensBelow bound (lines.getD n [])) :
    n < lines.length := by
  refine Nat.lt_of_not_le fun hn => ?_
  have hnone : (afterDef? (lines.getD n [])).isSome = false := by
    rw [List.getD_eq_default _ _ hn]
    rfl
  rw [h.1] at hnone
  cases hnone

/-- The search upwards finds a method line that is indented less than the bound, and passes over
none. -/
theorem methodAbove_take (bound n : Nat) :
    (∀ d, methodAbove bound (lines.take n).reverse = some d →
      d < n ∧ OpensBelow bound (lines.getD d [])) ∧
    ∀ e < n, OpensBelow bound (lines.getD e []) →
      ∃ d, methodAbove bound (lines.take n).reverse = some d ∧ e ≤ d := by
  induction n with
  | zero => simp [methodAbove]
  | succ n ih =>
    obtain ⟨hsound, hcomplete⟩ := ih
    by_cases hopens : OpensBelow bound (lines.getD n [])
    · have hn := hopens.lt_length
      have hlength : (lines.take n).reverse.length = n := by
        rw [List.length_reverse, List.length_take, Nat.min_eq_left (Nat.le_of_lt hn)]
      have hfound : methodAbove bound (lines.take (n + 1)).reverse = some n := by
        rw [reverse_take_succ hn, methodAbove, hlength, hopens.1, decide_eq_true hopens.2]
        rfl
      refine ⟨fun d hd => ?_, fun e he _ => ⟨n, hfound, Nat.le_of_lt_succ he⟩⟩
      obtain rfl := Option.some.inj (hfound.symm.trans hd)
      exact ⟨Nat.lt_succ_self n, hopens⟩
    · have hsame : methodAbove bound (lines.take (n + 1)).reverse =
          methodAbove bound (lines.take n).reverse := by
        by_cases hn : n < lines.length
        · have hpassed : ((afterDef? (lines.getD n [])).isSome &&
              decide (indentWidth (lines.getD n []) < bound)) ≠ true := by
            rwa [ne_eq, Bool.and_eq_true, decide_eq_true_eq]
          rw [reverse_take_succ hn, methodAbove, if_neg hpassed]
        · rw [List.take_of_length_le (by omega), List.take_of_length_le (by omega)]
      rw [hsame]
      refine ⟨fun d hd => ?_, fun e he hopens' => ?_⟩
      · obtain ⟨hlt, hd'⟩ := hsound d hd
        exact ⟨Nat.lt_succ_of_lt hlt, hd'⟩
      · rcases Nat.lt_succ_iff_lt_or_eq.mp he with hlt | rfl
        · exact hcomplete e hlt hopens'
        · exact absurd hopens' hopens

theorem precedes_of_enclosingDef? (h : enclosingDef? lines index = some d) :
    Precedes lines d index := by
  obtain ⟨hlt, hopens⟩ := (methodAbove_take _ _).1 d h
  exact ⟨hlt, hopens⟩

/-- No method that precedes is passed over. -/
theorem Precedes.exists_enclosingDef? (h : Precedes lines e index) :
    ∃ d, enclosingDef? lines index = some d ∧ e ≤ d :=
  (methodAbove_take _ _).2 e h.lt h.opens

/-- The method that is found is the last one that precedes. -/
theorem enclosingDef?_eq_some_iff :
    enclosingDef? lines index = some d ↔
      Precedes lines d index ∧ ∀ e, Precedes lines e index → e ≤ d := by
  constructor
  · intro h
    refine ⟨precedes_of_enclosingDef? h, fun e he => ?_⟩
    obtain ⟨d', hd', hle⟩ := he.exists_enclosingDef?
    obtain rfl := Option.some.inj (h.symm.trans hd')
    exact hle
  · rintro ⟨hd, hlast⟩
    obtain ⟨d', hd', hle⟩ := hd.exists_enclosingDef?
    rw [hd', Nat.le_antisymm (hlast d' (precedes_of_enclosingDef? hd')) hle]

/-! ## What is told of the method around a line -/

/-- Up to the line, the first line below the method line that is not blank is in the body. -/
theorem Encloses.lt_indentWidth (h : Encloses lines d index) {body : Line}
    (hbody : ((lines.take (index + 1)).drop (d + 1)).find? (fun line => !isBlankText line) =
      some body) : indentWidth (lines.getD d []) < indentWidth body := by
  obtain ⟨k, hk⟩ := List.mem_iff_getElem?.mp (List.mem_of_find?_eq_some hbody)
  have hblank : isBlankText body = false := by simpa using List.find?_some hbody
  rw [List.getElem?_drop, List.getElem?_take] at hk
  split at hk
  · next hplace =>
    obtain rfl : lines.getD (d + 1 + k) [] = body := by rw [List.getD_eq_getElem?_getD, hk]; rfl
    rcases Nat.lt_or_eq_of_le (Nat.le_of_lt_succ hplace) with hlt | heq
    · exact h.stays _ (by omega) hlt hblank
    · rw [heq]
      exact h.opens.2
  · cases hk

/-- What is told of the method around a line comes from a method that encloses it exactly when
behind every method that precedes the line, and does not enclose it, there is one that does. -/
theorem staysInside_iff (lines : List Line) (index : Nat) :
    StaysInside lines index ↔
      ∀ e, Precedes lines e index →
        Encloses lines e index ∨ ∃ d, e < d ∧ Encloses lines d index := by
  constructor
  · intro h e he
    obtain ⟨d, hd, hle⟩ := he.exists_enclosingDef?
    rcases Nat.lt_or_eq_of_le hle with hlt | rfl
    · exact .inr ⟨d, hlt, h.body d hd⟩
    · exact .inl (h.body e hd)
  · intro h
    have hbody : ∀ d, enclosingDef? lines index = some d → Encloses lines d index := by
      intro d hd
      obtain ⟨hprecedes, hlast⟩ := enclosingDef?_eq_some_iff.mp hd
      rcases h d hprecedes with hd' | ⟨d', hlt, hd'⟩
      · exact hd'
      · exact absurd (hlast d' hd'.toPrecedes) (Nat.not_le_of_lt hlt)
    refine ⟨hbody, fun p hp => ?_, ?_⟩
    · obtain ⟨d, hd, hparameter⟩ := Option.bind_eq_some_iff.mp hp
      exact ⟨d, hbody d hd, hparameter⟩
    · rw [guardSite]
      cases hd : enclosingDef? lines index with
      | none => exact .inl rfl
      | some d =>
        dsimp only
        split
        · next body hfind => exact .inr ⟨d, hbody d hd, rfl, (hbody d hd).lt_indentWidth hfind⟩
        · exact .inl rfl

/-- A method that has ended, and a call behind it that is indented for another reason. -/
def endedMethod : List Line :=
  ["def load(name)".toList, "  name".toList, "end".toList, "if ready".toList,
    "  system('ls')".toList, "end".toList]

/-- The search takes a call behind the end of a method for one in its body, offers the parameter of
that method and puts the guard into it. -/
theorem not_staysInside_endedMethod :
    enclosingDef? endedMethod 4 = some 0 ∧ methodParameter? endedMethod 4 = some "name".toList ∧
      guardSite endedMethod 4 = (1, "  ".toList) ∧ ¬ Encloses endedMethod 0 4 ∧
      ¬ StaysInside endedMethod 4 := by
  have hfound : enclosingDef? endedMethod 4 = some 0 := by decide
  have hended : ¬ Encloses endedMethod 0 4 := fun h =>
    absurd (h.stays 2 (by decide) (by decide) (by decide)) (by decide)
  exact ⟨hfound, by decide, by decide, hended, fun h => hended (h.body 0 hfound)⟩

end RepoAudit.Ruby
