import RepoAudit.Proofs.Diff.Search

/-!
# Tidying keeps what a script does

Every step of a run that slides amends the script: runs pass each other, join, or slide over lines
that are the same at both ends. So does the joining of runs that meet. Sliding counts on there being
no replacements yet.

## Main definitions

- `Diff.IsPlain` — a script without replacements
- `Diff.Cursor.script` — the script that is open at one of its edits

## Main statements

- `Diff.amends_slideUp`, `Diff.amends_slideDown` — one run slides
- `Diff.amends_slideRuns` — all runs slide
- `Diff.amends_joinFrom` — runs that meet are joined
- `Diff.covers_script` — the tidied script leads from one sequence to the other
-/

namespace RepoAudit.Diff

variable {α : Type}

/-- An edit that replaces nothing. -/
def Edit.IsPlain : Edit → Prop
  | .replace _ _ _ _ => False
  | _ => True

/-- A script without replacements. -/
def IsPlain (script : Script) : Prop :=
  ∀ e ∈ script, e.IsPlain

theorem isPlain_append {s t : Script} : IsPlain (s ++ t) ↔ IsPlain s ∧ IsPlain t :=
  List.forall_mem_append

/-- The script that is open at one of its edits. -/
def Cursor.script (c : Cursor) : Script :=
  c.before.reverse ++ c.edit :: c.after

/-- An edit that slides. -/
def Edit.IsMovable (e : Edit) : Prop :=
  e.isDelete ∨ e.isInsert

theorem length_window_le (as : Array α) (i n : Nat) : (window as i n).length ≤ n := by
  rw [window_eq, List.length_take]
  exact Nat.min_le_left _ _

variable {olds news : Array α}

namespace Amends

variable (olds news)

/-- A kept run grows to the left. -/
theorem of_keepBelow (k old new : Nat) (after : Script) :
    Amends olds news (.keep old new k :: after) (keepBelow k old new after) := by
  fun_cases keepBelow k old new after with
  | case1 old' new' size rest =>
    have hjoin : Amends olds news [.keep old new k, .keep old' new' size]
        [.keep (old' - k) (new' - k) (size + k)] := by
      refine ⟨by simp [Edit.oldSize]; omega, by simp [Edit.newSize]; omega, ?_⟩
      rintro i j ⟨⟨rfl, rfl, hsize⟩, ⟨rfl, rfl, hsize'⟩, -⟩
      simp only [Edit.oldSize, Edit.newSize] at hsize' ⊢
      rw [Nat.add_sub_cancel, Nat.add_sub_cancel, Nat.add_comm size]
      refine ⟨⟨rfl, rfl, by omega, by omega, ?_⟩, trivial⟩
      rw [window_add, window_add, hsize.2.2, hsize'.2.2]
    exact hjoin.before rest
  | case2 rest h => exact .refl _

/-- A kept run grows to the right. -/
theorem of_keepAbove (k old new : Nat) (before : List Edit) :
    Amends olds news (before.reverse ++ [.keep old new k]) (keepAbove k old new before).reverse := by
  fun_cases keepAbove k old new before with
  | case1 old' new' size rest =>
    rw [List.reverse_cons, List.reverse_cons, List.append_assoc]
    exact (of_keeps olds news old' new' old new size k).behind rest.reverse
  | case2 rest h =>
    rw [List.reverse_cons]
    exact .refl _

variable [DecidableEq α]

/-- An inserted run slides up over lines that are those at its end. -/
theorem of_insert_up (o n size a b m : Nat) :
    let k := commonTail (window olds o size) (window news b m)
    Amends olds news [.keep o n size, .insert a b m]
      [.keep o n (size - k), .insert (a - k) (b - k) m, .keep (o + size - k) (b + m - k) k] := by
  intro k
  have hk : k ≤ size := Nat.le_trans (commonTail_le_left _ _) (length_window_le olds o size)
  have hk' : k ≤ m := Nat.le_trans (commonTail_le_right _ _) (length_window_le news b m)
  refine ⟨by simp [Edit.oldSize]; omega, by simp [Edit.newSize]; omega, ?_⟩
  rintro i j ⟨⟨rfl, rfl, hold, hnew, hsame⟩, ⟨rfl, hinsert⟩, -⟩
  simp only [Edit.newSize] at hinsert
  have hends := drop_commonTail (window olds o size) (window news (n + size) m)
  rw [length_window hold, length_window hinsert, drop_window, drop_window] at hends
  change window olds (o + (size - k)) (size - (size - k)) =
    window news (n + size + (m - k)) (m - (m - k)) at hends
  rw [Nat.sub_sub_self hk, Nat.sub_sub_self hk'] at hends
  refine ⟨⟨rfl, rfl, by omega, by omega, ?_⟩, ⟨?_, ?_⟩, ⟨?_, ?_, ?_, ?_, ?_⟩, trivial⟩ <;>
    try simp only [Edit.oldSize, Edit.newSize]
  · exact window_part (k := 0) hsame (by omega)
  · omega
  · omega
  · omega
  · omega
  · omega
  · omega
  · rw [Nat.add_zero, hends]
    congr 1
    omega

/-- An inserted run slides down over lines that are those at its start. -/
theorem of_insert_down (o n size a b m : Nat) :
    let k := commonLead (window olds o size) (window news b m)
    Amends olds news [.insert a b m, .keep o n size]
      [.keep o b k, .insert (a + k) (b + k) m, .keep (o + k) (n + k) (size - k)] := by
  intro k
  have hk : k ≤ size := Nat.le_trans (commonLead_le_left _ _) (length_window_le olds o size)
  have hk' : k ≤ m := Nat.le_trans (commonLead_le_right _ _) (length_window_le news b m)
  refine ⟨by simp [Edit.oldSize]; omega, by simp [Edit.newSize]; omega, ?_⟩
  rintro i j ⟨⟨rfl, hinsert⟩, ⟨hplace, hplace', hold, hnew, hsame⟩, -⟩
  simp only [Edit.newSize, Edit.oldSize, Nat.add_zero] at hplace hplace' hold hnew hsame
  subst hplace hplace'
  have hstarts := take_commonLead (window olds o size) (window news b m)
  change (window olds o size).take k = (window news b m).take k at hstarts
  rw [take_window hk, take_window hk'] at hstarts
  have hrest := window_part (k := k) (m := size - k) hsame (by omega)
  refine ⟨⟨rfl, rfl, by omega, by omega, hstarts⟩, ⟨?_, ?_⟩, ⟨?_, ?_, ?_, ?_, ?_⟩, trivial⟩ <;>
    simp only [Edit.oldSize, Edit.newSize]
  · omega
  · omega
  · omega
  · omega
  · omega
  · rw [Nat.add_zero, hrest]
    congr 1
    omega

end Amends

/-! ## Sliding -/

theorem Edit.IsMovable.isPlain {e : Edit} (h : e.IsMovable) : e.IsPlain := by
  cases e with
  | replace => simp [IsMovable, isDelete, isInsert] at h
  | _ => trivial

/-- A run that is not kept in a script without replacements slides. -/
theorem Edit.IsPlain.isMovable {e : Edit} (h : e.IsPlain)
    (hkeep : ∀ old new size, e ≠ .keep old new size) : e.IsMovable := by
  cases e with
  | keep old new size => exact absurd rfl (hkeep old new size)
  | delete => exact .inl rfl
  | insert => exact .inr rfl
  | replace => exact h.elim

theorem isPlain_script {c : Cursor} :
    IsPlain c.script ↔ IsPlain c.before ∧ c.edit.IsPlain ∧ IsPlain c.after := by
  rw [Cursor.script, isPlain_append, IsPlain, IsPlain, IsPlain, IsPlain, List.forall_mem_cons]
  simp only [List.mem_reverse]

theorem isPlain_keepBelow {after : List Edit} (n old new : Nat) (h : IsPlain after) :
    IsPlain (keepBelow n old new after) := by
  fun_cases keepBelow n old new after with
  | case1 => exact List.forall_mem_cons.mpr ⟨trivial, (List.forall_mem_cons.mp h).2⟩
  | case2 => exact List.forall_mem_cons.mpr ⟨trivial, h⟩

theorem isPlain_keepAbove {before : List Edit} (n old new : Nat) (h : IsPlain before) :
    IsPlain (keepAbove n old new before) := by
  fun_cases keepAbove n old new before with
  | case1 => exact List.forall_mem_cons.mpr ⟨trivial, (List.forall_mem_cons.mp h).2⟩
  | case2 => exact List.forall_mem_cons.mpr ⟨trivial, h⟩

/-- A deleted and an inserted run pass each other. -/
theorem Amends.of_pass {e e' : Edit} (he : e.IsMovable) (he' : e'.IsMovable)
    (hinserts : ∀ old new n old' new' size, e = .insert old new n →
      e' = .insert old' new' size → False)
    (hdeletes : ∀ old new n old' new' size, e = .delete old new n →
      e' = .delete old' new' size → False) :
    Amends olds news [e, e'] [e', e] := by
  cases e with
  | keep => simp [Edit.IsMovable, Edit.isDelete, Edit.isInsert] at he
  | replace => simp [Edit.IsMovable, Edit.isDelete, Edit.isInsert] at he
  | delete =>
    cases e' with
    | keep => simp [Edit.IsMovable, Edit.isDelete, Edit.isInsert] at he'
    | replace => simp [Edit.IsMovable, Edit.isDelete, Edit.isInsert] at he'
    | delete => exact (hdeletes _ _ _ _ _ _ rfl rfl).elim
    | insert => exact of_delete_insert ..
  | insert =>
    cases e' with
    | keep => simp [Edit.IsMovable, Edit.isDelete, Edit.isInsert] at he'
    | replace => simp [Edit.IsMovable, Edit.isDelete, Edit.isInsert] at he'
    | delete => exact of_insert_delete ..
    | insert => exact (hinserts _ _ _ _ _ _ rfl rfl).elim

/-- A kept run of no lines may stand before a script. -/
theorem Amends.of_keep_ite (olds news : Array α) (old new size : Nat) :
    Amends olds news [.keep old new size] (if size = 0 then [] else [.keep old new size]) := by
  split
  · next hzero =>
    subst hzero
    exact of_keep_zero olds news old new
  · exact .refl _

/-- A cursor whose run has slid amends the script of another one. -/
structure Slides (olds news : Array α) (c c' : Cursor) : Prop where
  /-- The script is amended. -/
  amends : Amends olds news c.script c'.script
  /-- It has no replacements. -/
  plain : IsPlain c'.script
  /-- The run is still one that slides. -/
  movable : c'.edit.IsMovable

theorem Slides.refl {c : Cursor} (hplain : IsPlain c.script) (hmovable : c.edit.IsMovable) :
    Slides olds news c c :=
  ⟨.refl _, hplain, hmovable⟩

theorem Slides.trans {c c' c'' : Cursor} (h : Slides olds news c c') (h' : Slides olds news c' c'') :
    Slides olds news c c'' :=
  ⟨h.amends.trans h'.amends, h'.plain, h'.movable⟩

/-- Only the lines of an inserted run let it slide over kept ones. -/
theorem exists_insert_of_slidingLines {e : Edit}
    (h : slidingLines news e ≠ []) : ∃ old new size, e = .insert old new size := by
  cases e with
  | insert old new size => exact ⟨old, new, size, rfl⟩
  | _ => exact absurd rfl h

/-- The run at a cursor is exchanged with the edit before it for an amended part. -/
theorem slides_of_before {before after t : List Edit} {e e' previous : Edit}
    (h : Amends olds news [previous, e] (e' :: t)) (hplain : IsPlain (e' :: t))
    (hmovable : e'.IsMovable) (hbefore : IsPlain before) (hafter : IsPlain after) :
    Slides olds news ⟨previous :: before, e, after⟩ ⟨before, e', t ++ after⟩ := by
  have hsplit := List.forall_mem_cons.mp hplain
  refine ⟨?_, isPlain_script.mpr ⟨hbefore, hsplit.1, isPlain_append.mpr ⟨hsplit.2, hafter⟩⟩,
    hmovable⟩
  have hall := h.around before.reverse after
  simpa [Cursor.script] using hall

/-- The run at a cursor is exchanged with the edit behind it for an amended part. -/
theorem slides_of_after {before after t : List Edit} {e e' next : Edit}
    (h : Amends olds news [e, next] (t.reverse ++ [e'])) (hplain : IsPlain (e' :: t))
    (hmovable : e'.IsMovable) (hbefore : IsPlain before) (hafter : IsPlain after) :
    Slides olds news ⟨before, e, next :: after⟩ ⟨t ++ before, e', after⟩ := by
  have hsplit := List.forall_mem_cons.mp hplain
  refine ⟨?_, isPlain_script.mpr ⟨isPlain_append.mpr ⟨hsplit.2, hbefore⟩, hsplit.1, hafter⟩,
    hmovable⟩
  have hall := h.around before.reverse after
  simpa [Cursor.script] using hall

section Runs

variable [DecidableEq α]

/-- One step of an inserted run upwards. -/
theorem slides_insert_up (olds news : Array α) {before after : List Edit}
    (o n size a b m : Nat)
    (hbefore : IsPlain before) (hafter : IsPlain after) :
    let k := commonTail (window olds o size) (window news b m)
    Slides olds news ⟨.keep o n size :: before, .insert a b m, after⟩
      ⟨if size - k = 0 then before else .keep o n (size - k) :: before,
        .insert (a - k) (b - k) m, keepBelow k (o + size - k) (b + m - k) after⟩ := by
  intro k
  refine ⟨?_, isPlain_script.mpr ⟨?_, trivial, isPlain_keepBelow _ _ _ hafter⟩, .inr rfl⟩
  · have hslide := (Amends.of_insert_up olds news o n size a b m).around
      before.reverse after
    have hbelow := (Amends.of_keepBelow olds news k (o + size - k) (b + m - k)
      after).behind (before.reverse ++ [.keep o n (size - k), .insert (a - k) (b - k) m])
    have hempty := (Amends.of_keep_ite olds news o n (size - k)).around
      before.reverse (.insert (a - k) (b - k) m :: keepBelow k (o + size - k) (b + m - k) after)
    rw [List.append_assoc, List.append_assoc] at hbelow
    have hall := hslide.trans (hbelow.trans hempty)
    have hstart : Cursor.script ⟨.keep o n size :: before, .insert a b m, after⟩ =
        before.reverse ++ ([.keep o n size, .insert a b m] ++ after) := by
      simp [Cursor.script]
    have hstop : (if size - k = 0 then before else .keep o n (size - k) :: before).reverse =
        before.reverse ++ if size - k = 0 then [] else [.keep o n (size - k)] := by
      split <;> simp
    rw [hstart, Cursor.script, hstop, List.append_assoc]
    exact hall
  · split
    · exact hbefore
    · exact List.forall_mem_cons.mpr ⟨trivial, hbefore⟩

/-- One step of an inserted run downwards. -/
theorem slides_insert_down (olds news : Array α) {before after : List Edit}
    (o n size a b m : Nat)
    (hbefore : IsPlain before) (hafter : IsPlain after) :
    let k := commonLead (window olds o size) (window news b m)
    Slides olds news ⟨before, .insert a b m, .keep o n size :: after⟩
      ⟨keepAbove k o b before, .insert (a + k) (b + k) m,
        if size - k = 0 then after else .keep (o + k) (n + k) (size - k) :: after⟩ := by
  intro k
  refine ⟨?_, isPlain_script.mpr ⟨isPlain_keepAbove _ _ _ hbefore, trivial, ?_⟩, .inr rfl⟩
  · have hslide := (Amends.of_insert_down olds news o n size a b m).around
      before.reverse after
    have habove := (Amends.of_keepAbove olds news k o b before).before
      (.insert (a + k) (b + k) m :: .keep (o + k) (n + k) (size - k) :: after)
    have hempty := (Amends.of_keep_ite olds news (o + k) (n + k)
      (size - k)).around ((keepAbove k o b before).reverse ++ [.insert (a + k) (b + k) m]) after
    rw [List.append_assoc] at habove hempty
    have hall := hslide.trans (habove.trans (by rwa [List.append_assoc] at hempty))
    have hstop : (if size - k = 0 then after else .keep (o + k) (n + k) (size - k) :: after) =
        (if size - k = 0 then [] else [.keep (o + k) (n + k) (size - k)]) ++ after := by
      split <;> simp
    rw [Cursor.script, Cursor.script, hstop]
    exact hall
  · split
    · exact hafter
    · exact List.forall_mem_cons.mpr ⟨trivial, hafter⟩

/-- A run slides up by amendments of the script. -/
theorem slides_up (fuel : Nat) (c : Cursor) (hplain : IsPlain c.script)
    (hmovable : c.edit.IsMovable) : Slides olds news c (slideUp olds news fuel c) := by
  -- A run moves over kept lines, meets an empty run, joins one of its kind or passes another one.
  fun_induction slideUp olds news fuel c with
  | case1 c => exact .refl hplain hmovable
  | case2 fuel c hbefore => exact .refl hplain hmovable
  | case3 fuel c old new size rest hbefore n hpos after before ih =>
    obtain ⟨_, e, behind⟩ := c
    obtain rfl : _ = _ := hbefore
    have hlines : slidingLines news e ≠ [] := by
      intro hnil
      have hzero : n = 0 := by
        show commonTail _ (slidingLines news e) = 0
        rw [hnil, commonTail_nil]
      omega
    obtain ⟨a, b, m, rfl⟩ := exists_insert_of_slidingLines hlines
    obtain ⟨hrest, -, hbehind⟩ := isPlain_script.mp hplain
    have hstep := slides_insert_up olds news old new size a b m
      (List.forall_mem_cons.mp hrest).2 hbehind
    exact hstep.trans (ih hstep.plain hstep.movable)
  | case4 fuel c old new rest hbefore n hpos ih =>
    obtain ⟨_, e, behind⟩ := c
    obtain rfl : _ = _ := hbefore
    obtain ⟨hrest, -, hbehind⟩ := isPlain_script.mp hplain
    have hstep : Slides olds news ⟨.keep old new 0 :: rest, e, behind⟩ ⟨rest, e, behind⟩ := by
      refine slides_of_before (t := []) ?_ ?_ hmovable (List.forall_mem_cons.mp hrest).2 hbehind
      · exact (Amends.of_keep_zero olds news old new).before [e]
      · exact List.forall_mem_singleton.mpr hmovable.isPlain
    exact hstep.trans (ih hstep.plain hstep.movable)
  | case5 => exact .refl hplain hmovable
  | case6 fuel c rest a b m old new size hedit _ hbefore ih =>
    obtain ⟨_, e, behind⟩ := c
    obtain rfl : _ = _ := hbefore
    obtain rfl : _ = _ := hedit
    obtain ⟨hrest, -, hbehind⟩ := isPlain_script.mp hplain
    have hstep := slides_of_before (t := [])
      (Amends.of_inserts olds news old new a b size m)
      (List.forall_mem_singleton.mpr trivial) (.inr rfl) (List.forall_mem_cons.mp hrest).2 hbehind
    exact hstep.trans (ih hstep.plain hstep.movable)
  | case7 fuel c rest a b m old new size hedit _ hbefore ih =>
    obtain ⟨_, e, behind⟩ := c
    obtain rfl : _ = _ := hbefore
    obtain rfl : _ = _ := hedit
    obtain ⟨hrest, -, hbehind⟩ := isPlain_script.mp hplain
    have hstep := slides_of_before (t := [])
      (Amends.of_deletes olds news old new a b size m)
      (List.forall_mem_singleton.mpr trivial) (.inl rfl) (List.forall_mem_cons.mp hrest).2 hbehind
    exact hstep.trans (ih hstep.plain hstep.movable)
  | case8 fuel c rest previous hkeep hbefore hinserts hdeletes ih =>
    obtain ⟨_, e, behind⟩ := c
    obtain rfl : _ = _ := hbefore
    obtain ⟨hrest, -, hbehind⟩ := isPlain_script.mp hplain
    obtain ⟨hprevious, hrest⟩ := List.forall_mem_cons.mp hrest
    have hpass : Amends olds news [previous, e] [e, previous] := by
      refine .of_pass (hprevious.isMovable hkeep) hmovable ?_ ?_
      · exact fun o n k o' n' k' h h' => hinserts _ _ _ _ _ _ h' h
      · exact fun o n k o' n' k' h h' => hdeletes _ _ _ _ _ _ h' h
    have hstep := slides_of_before hpass (List.forall_mem_cons.mpr
      ⟨hmovable.isPlain, List.forall_mem_singleton.mpr hprevious⟩) hmovable hrest hbehind
    exact hstep.trans (ih hstep.plain hstep.movable)

/-- A run slides down by amendments of the script. -/
theorem slides_down (fuel : Nat) (c : Cursor) (hplain : IsPlain c.script)
    (hmovable : c.edit.IsMovable) : Slides olds news c (slideDown olds news fuel c) := by
  fun_induction slideDown olds news fuel c with
  | case1 c => exact .refl hplain hmovable
  | case2 fuel c hafter => exact .refl hplain hmovable
  | case3 fuel c old new size rest hafter n hpos before after ih =>
    obtain ⟨front, e, _⟩ := c
    obtain rfl : _ = _ := hafter
    have hlines : slidingLines news e ≠ [] := by
      intro hnil
      have hzero : n = 0 := by
        show commonLead _ (slidingLines news e) = 0
        rw [hnil, commonLead_nil]
      omega
    obtain ⟨a, b, m, rfl⟩ := exists_insert_of_slidingLines hlines
    obtain ⟨hfront, -, hrest⟩ := isPlain_script.mp hplain
    have hstep := slides_insert_down olds news old new size a b m hfront
      (List.forall_mem_cons.mp hrest).2
    exact hstep.trans (ih hstep.plain hstep.movable)
  | case4 fuel c old new rest hafter n hpos ih =>
    obtain ⟨front, e, _⟩ := c
    obtain rfl : _ = _ := hafter
    obtain ⟨hfront, -, hrest⟩ := isPlain_script.mp hplain
    have hstep : Slides olds news ⟨front, e, .keep old new 0 :: rest⟩ ⟨front, e, rest⟩ := by
      refine slides_of_after (t := []) ?_ ?_ hmovable hfront (List.forall_mem_cons.mp hrest).2
      · exact (Amends.of_keep_zero olds news old new).behind [e]
      · exact List.forall_mem_singleton.mpr hmovable.isPlain
    exact hstep.trans (ih hstep.plain hstep.movable)
  | case5 => exact .refl hplain hmovable
  | case6 fuel c rest a b m old new size hedit _ hafter ih =>
    obtain ⟨front, e, _⟩ := c
    obtain rfl : _ = _ := hafter
    obtain rfl : _ = _ := hedit
    obtain ⟨hfront, -, hrest⟩ := isPlain_script.mp hplain
    have hstep := slides_of_after (t := [])
      (Amends.of_inserts olds news a b old new m size)
      (List.forall_mem_singleton.mpr trivial) (.inr rfl) hfront (List.forall_mem_cons.mp hrest).2
    exact hstep.trans (ih hstep.plain hstep.movable)
  | case7 fuel c rest a b m old new size hedit _ hafter ih =>
    obtain ⟨front, e, _⟩ := c
    obtain rfl : _ = _ := hafter
    obtain rfl : _ = _ := hedit
    obtain ⟨hfront, -, hrest⟩ := isPlain_script.mp hplain
    have hstep := slides_of_after (t := [])
      (Amends.of_deletes olds news a b old new m size)
      (List.forall_mem_singleton.mpr trivial) (.inl rfl) hfront (List.forall_mem_cons.mp hrest).2
    exact hstep.trans (ih hstep.plain hstep.movable)
  | case8 fuel c rest next hkeep hafter hinserts hdeletes ih =>
    obtain ⟨front, e, _⟩ := c
    obtain rfl : _ = _ := hafter
    obtain ⟨hfront, -, hrest⟩ := isPlain_script.mp hplain
    obtain ⟨hnext, hrest⟩ := List.forall_mem_cons.mp hrest
    have hpass : Amends olds news [e, next] [next, e] :=
      .of_pass hmovable (hnext.isMovable hkeep) hinserts hdeletes
    have hstep := slides_of_after (t := [next]) hpass (List.forall_mem_cons.mpr
      ⟨hmovable.isPlain, List.forall_mem_singleton.mpr hnext⟩) hmovable hfront hrest
    exact hstep.trans (ih hstep.plain hstep.movable)

/-- All chosen runs slide by amendments of the script. -/
theorem amends_slideRuns (olds news : Array α) (chosen : Edit → Bool)
    (hchosen : ∀ e, chosen e → e.IsMovable) (fuel : Nat) (before after : List Edit)
    (hplain : IsPlain (before.reverse ++ after)) :
    Amends olds news (before.reverse ++ after) (slideRuns olds news chosen fuel before after) ∧
      IsPlain (slideRuns olds news chosen fuel before after) := by
  fun_induction slideRuns olds news chosen fuel before after with
  | case1 fuel before =>
    rw [List.append_nil] at hplain ⊢
    exact ⟨.refl _, hplain⟩
  | case2 before after h => exact ⟨.refl _, hplain⟩
  | case3 fuel before edit after hedit up down ih =>
    have hup : Slides olds news ⟨before, edit, after⟩ up := slides_up _ _ hplain (hchosen edit hedit)
    have hdown : Slides olds news up down := slides_down _ _ hup.plain hup.movable
    have hboth := hup.trans hdown
    have hscript : down.script = (down.edit :: down.before).reverse ++ down.after := by
      rw [Cursor.script, List.reverse_cons, List.append_assoc, List.singleton_append]
    obtain ⟨hrest, hrestPlain⟩ := ih (hscript ▸ hboth.plain)
    exact ⟨hboth.amends.trans (hscript ▸ hrest), hrestPlain⟩
  | case4 fuel before edit after hedit ih =>
    rw [List.reverse_cons, List.append_assoc, List.singleton_append] at ih
    exact ih hplain

theorem amends_slide (olds news : Array α) {script : Script} (hplain : IsPlain script) :
    Amends olds news script (slide olds news script) ∧ IsPlain (slide olds news script) := by
  obtain ⟨hdeleted, hdeletedPlain⟩ := amends_slideRuns
    olds news Edit.isDelete (fun _ h => .inl h)
    (4 * (olds.size + news.size + script.length) + 4) [] script hplain
  obtain ⟨hinserted, hinsertedPlain⟩ := amends_slideRuns
    olds news Edit.isInsert (fun _ h => .inr h)
    (4 * (olds.size + news.size + script.length) + 4) [] _ hdeletedPlain
  exact ⟨hdeleted.trans hinserted, hinsertedPlain⟩

end Runs

/-! ## Joining -/

namespace Pending

/-- The runs that wait, one by one. -/
def runs (p : Pending) : Script :=
  p.kept.toList ++ (p.deleted.toList ++ p.inserted.toList)

/-- What waits is of the kinds it should be, and nothing else waits with a kept run. -/
structure IsOrderly (p : Pending) : Prop where
  /-- The kept run. -/
  kept : ∀ e, p.kept = some e → ∃ o n size, e = .keep o n size
  /-- The deleted run. -/
  deleted : ∀ e, p.deleted = some e → ∃ o n size, e = .delete o n size
  /-- The inserted run. -/
  inserted : ∀ e, p.inserted = some e → ∃ o n size, e = .insert o n size
  /-- Nothing else waits with a kept run. -/
  apart : p.kept ≠ none → p.deleted = none ∧ p.inserted = none

theorem IsOrderly.keep (o n size : Nat) : IsOrderly ⟨some (.keep o n size), none, none⟩ where
  kept := fun e h => ⟨o, n, size, (Option.some.inj h).symm⟩
  deleted := fun _ h => by cases h
  inserted := fun _ h => by cases h
  apart := fun _ => ⟨rfl, rfl⟩

/-- The changes that wait make one edit. -/
theorem IsOrderly.amends_changes {p : Pending} (h : p.IsOrderly) :
    Amends olds news (p.deleted.toList ++ p.inserted.toList) p.changes := by
  obtain ⟨kept, deleted, inserted⟩ := p
  cases deleted with
  | none =>
    cases inserted with
    | none => exact .refl _
    | some i => exact .refl _
  | some d =>
    obtain ⟨o, n, size, rfl⟩ := h.deleted d rfl
    cases inserted with
    | none => exact .refl _
    | some i =>
      obtain ⟨o', n', size', rfl⟩ := h.inserted i rfl
      exact Amends.of_replace ..

end Pending

/-- A kept run joins what waits. -/
theorem Pending.IsOrderly.amends_keep (olds news : Array α) {p : Pending} (hp : p.IsOrderly)
    (old new size : Nat) :
    ∃ o n k, (∀ rest, joinFrom p (.keep old new size :: rest) =
        p.changes ++ joinFrom ⟨some (.keep o n k), none, none⟩ rest) ∧
      Amends olds news (p.runs ++ [.keep old new size]) (p.changes ++ [.keep o n k]) := by
  obtain ⟨kept, deleted, inserted⟩ := p
  cases kept with
  | none => exact ⟨old, new, size, fun _ => rfl, hp.amends_changes.before _⟩
  | some e =>
    obtain ⟨o, n, k, rfl⟩ := hp.kept e rfl
    obtain ⟨rfl, rfl⟩ : deleted = none ∧ inserted = none := hp.apart (by simp)
    exact ⟨o, n, k + size, fun _ => rfl, Amends.of_keeps ..⟩

/-- A deleted run passes an inserted one that waits and joins a deleted one. -/
theorem Pending.IsOrderly.amends_delete (olds news : Array α) {p : Pending} (hp : p.IsOrderly)
    (old new size : Nat) :
    ∃ o n k, (∀ rest, joinFrom p (.delete old new size :: rest) =
        p.kept.toList ++ joinFrom ⟨none, some (.delete o n k), p.inserted⟩ rest) ∧
      Amends olds news (p.runs ++ [.delete old new size])
        (p.kept.toList ++ (Pending.runs ⟨none, some (.delete o n k), p.inserted⟩)) := by
  obtain ⟨kept, deleted, inserted⟩ := p
  have hpass : Amends olds news (inserted.toList ++ [.delete old new size])
      (.delete old new size :: inserted.toList) := by
    cases inserted with
    | none => exact .refl _
    | some i =>
      obtain ⟨o, n, k, rfl⟩ := hp.inserted i rfl
      exact Amends.of_insert_delete ..
  cases deleted with
  | none =>
    refine ⟨old, new, size, fun _ => rfl, ?_⟩
    rw [runs, List.append_assoc]
    exact hpass.behind _
  | some d =>
    obtain ⟨o, n, k, rfl⟩ := hp.deleted d rfl
    refine ⟨o, n, k + size, fun _ => rfl, ?_⟩
    rw [runs, List.append_assoc, List.append_assoc]
    exact ((hpass.behind [.delete o n k]).trans
      ((Amends.of_deletes olds news o n old new k size).before inserted.toList)).behind _

/-- An inserted run joins one that waits. -/
theorem Pending.IsOrderly.amends_insert (olds news : Array α) {p : Pending} (hp : p.IsOrderly)
    (old new size : Nat) :
    ∃ o n k, (∀ rest, joinFrom p (.insert old new size :: rest) =
        p.kept.toList ++ joinFrom ⟨none, p.deleted, some (.insert o n k)⟩ rest) ∧
      Amends olds news (p.runs ++ [.insert old new size])
        (p.kept.toList ++ (Pending.runs ⟨none, p.deleted, some (.insert o n k)⟩)) := by
  obtain ⟨kept, deleted, inserted⟩ := p
  cases inserted with
  | none =>
    refine ⟨old, new, size, fun _ => rfl, ?_⟩
    simp only [runs, Option.toList_none, Option.toList_some, List.append_nil, List.nil_append,
      List.append_assoc]
    exact .refl _
  | some i =>
    obtain ⟨o, n, k, rfl⟩ := hp.inserted i rfl
    refine ⟨o, n, k + size, fun _ => rfl, ?_⟩
    rw [runs, List.append_assoc, List.append_assoc]
    exact ((Amends.of_inserts olds news o n old new k size).behind deleted.toList).behind _

/-- Joining the runs that meet amends the script. -/
theorem amends_joinFrom {p : Pending} (hp : p.IsOrderly) {script : Script}
    (hplain : IsPlain script) : Amends olds news (p.runs ++ script) (joinFrom p script) := by
  induction script generalizing p with
  | nil =>
    rw [List.append_nil]
    exact hp.amends_changes.behind _
  | cons e script ih =>
    obtain ⟨he, hscript⟩ := List.forall_mem_cons.mp hplain
    have hsplit : p.runs ++ e :: script = (p.runs ++ [e]) ++ script := by simp
    rw [hsplit]
    cases e with
    | replace => exact he.elim
    | keep old new size =>
      obtain ⟨o, n, k, hkept, hamends⟩ := hp.amends_keep olds news old new size
      have hrest := (ih (.keep o n k) hscript).behind p.changes
      rw [hkept]
      refine (hamends.before script).trans ?_
      rw [List.append_assoc]
      exact hrest
    | delete old new size =>
      obtain ⟨o, n, k, hdeleted, hamends⟩ := hp.amends_delete olds news old new size
      have horderly : Pending.IsOrderly ⟨none, some (.delete o n k), p.inserted⟩ :=
        ⟨fun _ h => (by cases h), fun e h => ⟨o, n, k, (Option.some.inj h).symm⟩, hp.inserted,
          fun h => absurd rfl h⟩
      rw [hdeleted]
      refine (hamends.before script).trans ?_
      rw [List.append_assoc]
      exact (ih horderly hscript).behind _
    | insert old new size =>
      obtain ⟨o, n, k, hinserted, hamends⟩ := hp.amends_insert olds news old new size
      have horderly : Pending.IsOrderly ⟨none, p.deleted, some (.insert o n k)⟩ :=
        ⟨fun _ h => (by cases h), hp.deleted, fun e h => ⟨o, n, k, (Option.some.inj h).symm⟩,
          fun h => absurd rfl h⟩
      rw [hinserted]
      refine (hamends.before script).trans ?_
      rw [List.append_assoc]
      exact (ih horderly hscript).behind _

/-! ## The whole script -/

theorem isPlain_exchange {old new : Nat} (as bs : List α) : IsPlain (exchange old new as bs) := by
  rw [exchange, isPlain_append]
  constructor
  · split
    · exact List.forall_mem_singleton.mpr trivial
    · exact List.forall_mem_nil _
  · split
    · exact List.forall_mem_singleton.mpr trivial
    · exact List.forall_mem_nil _

variable [DecidableEq α]

theorem isPlain_searchFrom (fuel old new : Nat) (as bs : List α) :
    IsPlain (searchFrom fuel old new as bs) := by
  have hkeep : ∀ old new n, IsPlain (if 0 < n then [.keep old new n] else []) := by
    intro old new n
    split
    · exact List.forall_mem_singleton.mpr trivial
    · exact List.forall_mem_nil _
  induction fuel generalizing old new as bs with
  | zero => exact isPlain_exchange as bs
  | succ fuel ih =>
    rw [searchFrom]
    refine isPlain_append.mpr ⟨isPlain_append.mpr ⟨hkeep _ _ _, ?_⟩, hkeep _ _ _⟩
    split
    · exact isPlain_exchange _ _
    · split
      · exact isPlain_append.mpr ⟨ih _ _ _ _, ih _ _ _ _⟩
      · exact isPlain_exchange _ _

/-- The tidied script leads from one sequence to the other. -/
theorem covers_script (as bs : List α) :
    Covers as.toArray bs.toArray 0 0 as.length bs.length (script as bs) := by
  obtain ⟨hslide, hplain⟩ := amends_slide as.toArray bs.toArray
    (isPlain_searchFrom (as.length + bs.length + 1) 0 0 as bs)
  have horderly : Pending.IsOrderly ⟨none, none, none⟩ :=
    ⟨fun _ h => (by cases h), fun _ h => (by cases h), fun _ h => (by cases h), fun h => absurd rfl h⟩
  exact (amends_joinFrom horderly hplain).covers (hslide.covers (covers_search as bs))

end RepoAudit.Diff
