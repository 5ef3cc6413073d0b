import RepoAudit.Proofs.Diff.Script

/-!
# The search finds a script

Whatever cuts the search makes, its script leads from one sequence to the other: what is kept is
common to both parts, and the rest is cut, searched, or exchanged. A cut that lies outside of a part
leaves nothing of it to place.

## Main definitions

- `Diff.Lies` — a part of a sequence lies at a place, which a script names rightly

## Main statements

- `Diff.covers_search` — the script of the search
-/

namespace RepoAudit.Diff

variable {α : Type} {olds news : Array α} {old new i j : Nat} {as bs : List α}

/-- A part of a sequence lies at a place. It is named by that place unless it is empty. -/
structure Lies (whole : Array α) (named i : Nat) (part : List α) : Prop where
  /-- It ends within the sequence. -/
  stop_le : i + part.length ≤ whole.size
  /-- It is what stands there. -/
  window_eq : window whole i part.length = part
  /-- The name is the place. -/
  named_eq : part ≠ [] → named = i

namespace Lies

variable {whole : Array α} {named : Nat} {part : List α}

theorem take (h : Lies whole named i part) (k : Nat) : Lies whole named i (part.take k) where
  stop_le := by
    have hstop := h.stop_le
    rw [List.length_take]
    omega
  window_eq := by
    have htake := congrArg (List.take (part.take k).length) h.window_eq
    rw [take_window (by rw [List.length_take]; omega)] at htake
    rw [htake, List.length_take, ← List.take_eq_take_min]
  named_eq := by
    intro hne
    refine h.named_eq ?_
    rintro rfl
    exact hne List.take_nil

/-- The rest lies where the part that was taken stops. -/
theorem drop (h : Lies whole named i part) (k : Nat) :
    Lies whole (named + k) (i + (part.take k).length) (part.drop k) where
  stop_le := by
    have hstop := h.stop_le
    rw [List.length_take, List.length_drop]
    omega
  window_eq := by
    have hdrop := congrArg (List.drop (part.take k).length) h.window_eq
    rw [drop_window] at hdrop
    have hlength : part.length - (part.take k).length = (part.drop k).length := by
      rw [List.length_take, List.length_drop]
      omega
    rw [hlength] at hdrop
    rw [hdrop, List.length_take]
    by_cases hk : k ≤ part.length
    · rw [Nat.min_eq_left hk]
    · rw [Nat.min_eq_right (by omega), List.drop_length, List.drop_eq_nil_of_le (by omega)]
  named_eq := by
    intro hne
    have hlt : k < part.length := Nat.lt_of_not_le fun hle => hne (List.drop_eq_nil_of_le hle)
    have hpart : part ≠ [] := by
      rintro rfl
      cases hlt
    rw [h.named_eq hpart, List.length_take, Nat.min_eq_left (by omega)]

end Lies

/-- A run that is kept unless it is empty. -/
theorem covers_keep {n : Nat} {lines : List α} (ha : Lies olds old i lines)
    (hb : Lies news new j lines) (hn : lines.length = n) :
    Covers olds news i j n n (if 0 < n then [.keep old new n] else []) := by
  subst hn
  by_cases hpos : 0 < lines.length
  · have hne := List.length_pos_iff.mp hpos
    rw [if_pos hpos]
    refine ⟨⟨⟨ha.named_eq hne, hb.named_eq hne, ha.stop_le, hb.stop_le, ?_⟩, trivial⟩, ?_, ?_⟩
    · rw [ha.window_eq, hb.window_eq]
    · simp [Edit.oldSize]
    · simp [Edit.newSize]
  · rw [if_neg hpos, Nat.eq_zero_of_not_pos hpos]
    exact .nil i j

theorem covers_delete (ha : Lies olds old i as) :
    Covers olds news i j as.length 0 (if 0 < as.length then [.delete old new as.length] else []) := by
  by_cases hpos : 0 < as.length
  · rw [if_pos hpos]
    exact ⟨⟨⟨ha.named_eq (List.length_pos_iff.mp hpos), ha.stop_le⟩, trivial⟩,
      by simp [Edit.oldSize], by simp [Edit.newSize]⟩
  · rw [if_neg hpos, Nat.eq_zero_of_not_pos hpos]
    exact .nil i j

theorem covers_insert (hb : Lies news new j bs) :
    Covers olds news i j 0 bs.length (if 0 < bs.length then [.insert old new bs.length] else []) := by
  by_cases hpos : 0 < bs.length
  · rw [if_pos hpos]
    exact ⟨⟨⟨hb.named_eq (List.length_pos_iff.mp hpos), hb.stop_le⟩, trivial⟩,
      by simp [Edit.oldSize], by simp [Edit.newSize]⟩
  · rw [if_neg hpos, Nat.eq_zero_of_not_pos hpos]
    exact .nil i j

/-- One part is deleted and the other one inserted. -/
theorem covers_exchange (ha : Lies olds old i as) (hb : Lies news new j bs) :
    Covers olds news i j as.length bs.length (exchange old new as bs) := by
  have hdelete : Covers olds news i j as.length 0
      (if 0 < as.length then [.delete old new as.length] else []) := covers_delete ha
  have hinsert : Covers olds news (i + as.length) (j + 0) 0 bs.length
      (if 0 < bs.length then [.insert old new bs.length] else []) := covers_insert hb
  have hboth := hdelete.append hinsert
  rwa [Nat.add_zero, Nat.zero_add] at hboth

variable [DecidableEq α]

/-- A script for what is before the common end of two parts makes one for the parts. -/
theorem covers_beforeTail {middle : Script} {as' bs' : List α} (ha : Lies olds old i as)
    (hb : Lies news new j bs) (has : as' = as.take (as.length - commonTail as bs))
    (hbs : bs' = bs.take (bs.length - commonTail as bs))
    (hmiddle : Lies olds old i as' → Lies news new j bs' →
      Covers olds news i j as'.length bs'.length middle) :
    Covers olds news i j as.length bs.length (middle ++ if 0 < commonTail as bs then
      [.keep (old + as'.length) (new + bs'.length) (commonTail as bs)] else []) := by
  subst has hbs
  have hle := commonTail_le_left as bs
  have hle' := commonTail_le_right as bs
  have hsame := drop_commonTail as bs
  have hbody := hmiddle (ha.take _) (hb.take _)
  generalize commonTail as bs = tail at hle hle' hsame hbody ⊢
  have ha' := ha.drop (as.length - tail)
  have hb' := hb.drop (bs.length - tail)
  rw [List.length_take, Nat.min_eq_left (Nat.sub_le _ _)] at ha' hb' hbody
  rw [List.length_take, Nat.min_eq_left (Nat.sub_le _ _)] at hbody ⊢
  rw [List.length_take, Nat.min_eq_left (Nat.sub_le _ _)]
  rw [← hsame] at hb'
  have hboth := hbody.append (covers_keep ha' hb' (n := tail) (by rw [List.length_drop]; omega))
  rwa [Nat.sub_add_cancel hle, Nat.sub_add_cancel hle'] at hboth

/-- A script for what is behind the common start of two parts makes one for the parts. -/
theorem covers_afterLead {rest : Script} (ha : Lies olds old i as) (hb : Lies news new j bs)
    (hrest : ∀ i j, Lies olds (old + commonLead as bs) i (as.drop (commonLead as bs)) →
      Lies news (new + commonLead as bs) j (bs.drop (commonLead as bs)) →
      Covers olds news i j (as.drop (commonLead as bs)).length (bs.drop (commonLead as bs)).length
        rest) :
    Covers olds news i j as.length bs.length
      ((if 0 < commonLead as bs then [.keep old new (commonLead as bs)] else []) ++ rest) := by
  have hsame := take_commonLead as bs
  have hle := commonLead_le_left as bs
  have hle' := commonLead_le_right as bs
  generalize commonLead as bs = lead at hsame hle hle' hrest ⊢
  have hlength : (as.take lead).length = lead := by rw [List.length_take, Nat.min_eq_left hle]
  have hlength' : (bs.take lead).length = lead := by rw [List.length_take, Nat.min_eq_left hle']
  have hbehind := hrest _ _ (ha.drop lead) (hb.drop lead)
  rw [hlength, hlength'] at hbehind
  have hboth := (covers_keep (ha.take lead) (hsame ▸ hb.take lead) hlength).append hbehind
  rwa [List.length_drop, List.length_drop, Nat.add_sub_cancel' hle, Nat.add_sub_cancel' hle'] at hboth

/-- The script between two parts leads from where they lie to where they stop. -/
theorem covers_searchFrom (fuel : Nat) (ha : Lies olds old i as) (hb : Lies news new j bs) :
    Covers olds news i j as.length bs.length (searchFrom fuel old new as bs) := by
  induction fuel generalizing old new i j as bs with
  | zero => exact covers_exchange ha hb
  | succ fuel ih =>
    rw [searchFrom, List.append_assoc]
    refine covers_afterLead ha hb fun i j ha hb => ?_
    refine covers_beforeTail ha hb rfl rfl fun ha hb => ?_
    split
    · exact covers_exchange ha hb
    · split
      · next x y _ =>
        -- The two halves of a cut, wherever it is.
        have hboth := (ih (ha.take x) (hb.take y)).append (ih (ha.drop x) (hb.drop y))
        rwa [← List.length_append, ← List.length_append, List.take_append_drop,
          List.take_append_drop] at hboth
      · exact covers_exchange ha hb

/-- The search finds a script from one sequence to the other. -/
theorem covers_search (as bs : List α) :
    Covers as.toArray bs.toArray 0 0 as.length bs.length (search as bs) := by
  have hlies : ∀ cs : List α, Lies cs.toArray 0 0 cs := fun cs =>
    ⟨by simp, by rw [window_eq]; simp, fun _ => rfl⟩
  exact covers_searchFrom _ (hlies as) (hlies bs)

end RepoAudit.Diff
