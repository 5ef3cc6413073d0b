import RepoAudit.Proofs.Script.Rewriting
import RepoAudit.Proofs.Text.LineOffset

/-!
# Sinks by their offsets

The sinks of a text can be told by byte offsets alone: whatever is looked at is cut out of the whole
text between two offsets, and the search fails where such an offset falls inside a character or
beyond the end. It never does, and it finds the sinks. They start one after the other, and each of
them is a part of the text without a blank at either end, in which no separator stands outside of
every bracket.

## Main definitions

- `sinksByOffset?` — the sinks of a text, searched for by offsets
- `nestingAfter` — what stands around the character behind the front of an expression
- `Sink.IsCutFrom` — what is between the offsets of a sink

## Main statements

- `stopFrom?_eq`, `sinkBetween?_eq`, `sinksBetween?_eq` — the search by offsets step by step
- `pairwise_start_sinksOf` — the sinks start one after the other
- `isFlat_nestingAfter_of_separator` — where a separator may stand in an expression
- `sinks_cut_in_order` — where the sinks of a text stand
-/

namespace RepoAudit.Script

open RepoAudit.Text

/-! ## The search by offsets -/

/-- The offsets between which the matches stand in a text, given the bytes before it. -/
def spansFrom {α : Type} (offset : Nat) : List (Piece α) → List (Nat × Nat)
  | [] => []
  | .plain c :: ps => spansFrom (offset + c.utf8Size) ps
  | .found _ text :: ps =>
    (offset, offset + byteLength text) :: spansFrom (offset + byteLength text) ps

/-- Whether the expression that starts at an offset goes on after the newline at another one. -/
def goesOnAt? (cs : List Char) (start newline : Nat) : Option Bool := do
  let read ← between? start newline cs
  let (_, rest) ← cutAt? (newline + 1) cs
  let before := trimEnd read
  some (before.isEmpty || before.getLast? == some '+' || (trimStart rest).head? == some '+')

/-- Whether the expression that starts at an offset ends before the character at another one. The
text is looked at again only at a newline outside of every bracket. -/
def endsAt? (cs : List Char) (start : Nat) (s : Nesting) (offset : Nat) (c : Char) :
    Option Bool :=
  match s.frame, s.outer with
  | .code brackets braces, [] =>
    if ((c = ')' || c = ']') && brackets = 0) || (c = '}' && braces = 0) then some true
    else if s.isFlat && (c = ';' || c = ',') then some true
    else if s.isFlat && c = '\n' then (goesOnAt? cs start offset).map (!·)
    else some false
  | _, _ => some false

/-- Where the expression ends that starts at an offset and has been read up to another one, where
the given characters stand. -/
def stopFrom? (cs : List Char) (start : Nat) (s : Nesting) (offset : Nat) :
    List Char → Option Nat
  | [] => some (byteLength cs)
  | c :: rest => do
    let ends ← endsAt? cs start s offset c
    if ends then some offset else stopFrom? cs start (s.step true c) (offset + c.utf8Size) rest

/-- Where the expression ends that starts at an offset. -/
def stopAt? (cs : List Char) (start : Nat) : Option Nat := do
  let (_, body) ← cutAt? start cs
  stopFrom? cs start .start start body

/-- The sink whose assignment stands between two offsets, if it is one. -/
def sinkBetween? (cs : List Char) (span : Nat × Nat) : Option (Option Sink) := do
  let (_, rest) ← cutAt? span.2 cs
  if rest.head? == some '=' then some none
  else do
    let start := span.2 + (byteLength rest - byteLength (trimStart rest))
    let stop ← stopAt? cs start
    let read ← between? start stop cs
    let trimmed := start + byteLength (trimEnd read)
    if start < trimmed then do
      let line ← lineAt? cs span.1
      let expression ← between? start trimmed cs
      some (some ⟨start, trimmed, line, expression⟩)
    else some none

/-- The sinks whose assignments stand between some offsets. -/
def sinksBetween? (cs : List Char) : List (Nat × Nat) → Option (List Sink)
  | [] => some []
  | span :: spans => do
    let found ← sinkBetween? cs span
    let later ← sinksBetween? cs spans
    some (found.toList ++ later)

/-- The sinks of a text, searched for by offsets. There are none when an offset falls inside a
character or beyond the end of the text. -/
def sinksByOffset? (cs : List Char) : Option (List Sink) :=
  sinksBetween? cs (spansFrom 0 (pieces assignment cs))

section Search

variable {cs lead front text rest : List Char}

theorem goesOnAt?_eq (hcs : cs = lead ++ (front ++ '\n' :: rest)) :
    goesOnAt? cs (byteLength lead) (byteLength lead + byteLength front) =
      some (goesOn front.reverse rest) := by
  have hread : between? (byteLength lead) (byteLength lead + byteLength front) cs = some front := by
    rw [hcs, between?_append]
  have hcut : cutAt? (byteLength lead + byteLength front + 1) cs =
      some (lead ++ (front ++ ['\n']), rest) := by
    have hnewline : byteLength (lead ++ (front ++ ['\n'])) =
        byteLength lead + byteLength front + 1 := by
      rw [byteLength_append, byteLength_append, Nat.add_assoc]
      rfl
    have happend : cs = lead ++ (front ++ ['\n']) ++ rest := by
      rw [hcs]
      simp only [List.append_assoc, List.singleton_append]
    rw [happend, ← hnewline, cutAt?_append]
  rw [goesOnAt?, hread, hcut, goesOn]
  simp only [Option.bind_eq_bind, Option.bind_some, trimEnd, List.isEmpty_reverse,
    List.getLast?_reverse]

theorem endsAt?_eq {c : Char} (hcs : cs = lead ++ (front ++ c :: rest)) (s : Nesting) :
    endsAt? cs (byteLength lead) s (byteLength lead + byteLength front) c =
      some (endsBefore s front.reverse c rest) := by
  obtain ⟨frame, outer, escaped, dollar⟩ := s
  cases frame with
  | quoted quote => rfl
  | template => rfl
  | code brackets braces =>
    cases outer with
    | cons f fs => rfl
    | nil =>
      simp only [endsAt?, endsBefore, Bool.and_or_distrib_left]
      split
      · next hcloses => rw [hcloses, Bool.true_or]
      · next hcloses =>
        rw [Bool.eq_false_iff.mpr hcloses, Bool.false_or, ← Bool.and_or_distrib_left]
        split
        · next hmark => rw [hmark, Bool.true_or]
        · next hmark =>
          rw [Bool.eq_false_iff.mpr hmark, Bool.false_or, ← Bool.and_assoc]
          split
          · next hline =>
            obtain rfl : c = '\n' := of_decide_eq_true (Bool.and_eq_true_iff.mp hline).2
            rw [hline, goesOnAt?_eq hcs]
            rfl
          · next hline => rw [Bool.eq_false_iff.mpr hline, Bool.false_and]

/-- Reading on from where an expression has been read to leads to its end. -/
theorem stopFrom?_eq (hcs : cs = lead ++ (front ++ rest)) (s : Nesting) :
    stopFrom? cs (byteLength lead) s (byteLength lead + byteLength front) rest =
      some (byteLength lead + byteLength front +
        byteLength (rest.take (extentFrom s front.reverse rest))) := by
  induction rest generalizing s front with
  | nil =>
    rw [stopFrom?, hcs, List.append_nil, List.take_nil, byteLength_nil, Nat.add_zero,
      byteLength_append]
  | cons c rest ih =>
    rw [stopFrom?, endsAt?_eq hcs, Option.bind_eq_bind, Option.bind_some, extentFrom]
    split
    · rw [List.take_zero, byteLength_nil, Nat.add_zero]
    · -- The offset is always the one behind what has been read, so no cut is inside a character.
      have hnext : cs = lead ++ ((front ++ [c]) ++ rest) := by
        rw [hcs, List.append_assoc, List.singleton_append]
      have hlater := ih hnext (s.step true c)
      rw [byteLength_append, byteLength_cons, byteLength_nil, Nat.add_zero, List.reverse_append,
        List.reverse_singleton, List.singleton_append, ← Nat.add_assoc] at hlater
      rw [hlater, List.take_succ_cons, byteLength_cons]
      simp only [Nat.add_assoc]

theorem stopAt?_eq (lead body : List Char) :
    stopAt? (lead ++ body) (byteLength lead) =
      some (byteLength lead + byteLength (expressionAt body)) := by
  rw [stopAt?, cutAt?_append, Option.bind_eq_bind, Option.bind_some]
  have hstop := stopFrom?_eq (show lead ++ body = lead ++ ([] ++ body) from rfl) .start
  rw [byteLength_nil, Nat.add_zero] at hstop
  exact hstop

/-- The sink behind an assignment is the one that the offsets of the assignment lead to. -/
theorem sinkBetween?_eq (hcs : cs = lead ++ (text ++ rest)) :
    sinkBetween? cs (byteLength lead, byteLength lead + byteLength text) =
      some (sinkAfter? (byteLength lead + byteLength text) (lineAfter lead) rest) := by
  have hcut : cutAt? (byteLength lead + byteLength text) cs = some (lead ++ text, rest) := by
    rw [hcs, ← List.append_assoc, ← byteLength_append, cutAt?_append]
  rw [sinkBetween?, hcut, Option.bind_eq_bind, Option.bind_some, sinkAfter?]
  dsimp only
  split
  · rfl
  · have hrest : byteLength (indent rest) + byteLength (trimStart rest) = byteLength rest := by
      rw [← byteLength_append, indent_append_trimStart]
    obtain ⟨front, hfront⟩ : ∃ front, front = lead ++ (text ++ indent rest) := ⟨_, rfl⟩
    have hstart : byteLength lead + byteLength text +
        (byteLength rest - byteLength (trimStart rest)) = byteLength front := by
      rw [hfront, byteLength_append, byteLength_append]
      omega
    have hbody : cs = front ++ trimStart rest := by
      rw [hcs, hfront, List.append_assoc, List.append_assoc, indent_append_trimStart]
    have hexpression : expressionAt (trimStart rest) <+: trimStart rest := List.take_prefix _ _
    have htrim := trimEnd_isPrefix (expressionAt (trimStart rest))
    have hstop : stopAt? cs (byteLength front) =
        some (byteLength front + byteLength (expressionAt (trimStart rest))) := by
      rw [hbody, stopAt?_eq]
    have hread : between? (byteLength front)
        (byteLength front + byteLength (expressionAt (trimStart rest))) cs =
          some (expressionAt (trimStart rest)) := by
      rw [hbody, between?_of_isPrefix front hexpression]
    have hsink : between? (byteLength front)
        (byteLength front + byteLength (trimEnd (expressionAt (trimStart rest)))) cs =
          some (trimEnd (expressionAt (trimStart rest))) := by
      rw [hbody, between?_of_isPrefix front (htrim.trans hexpression)]
    have hline : lineAt? cs (byteLength lead) = some (lineAfter lead) := by
      rw [hcs, lineAt?_append]
    have hindent : byteLength lead + byteLength text + byteLength (indent rest) =
        byteLength front := by
      omega
    simp only [hstart, hindent, hstop, hread, Option.bind_eq_bind, Option.bind_some]
    by_cases hnil : trimEnd (expressionAt (trimStart rest)) = []
    · simp [hnil]
    · have hpos : byteLength (trimEnd (expressionAt (trimStart rest))) ≠ 0 :=
        mt eq_nil_of_byteLength_eq_zero hnil
      rw [if_pos (by omega), if_neg (by simp [hnil])]
      simp only [hline, hsink, Option.bind_some]

theorem sinksBetween?_eq {before : Option Char} {tail : List Char} {ps : List (Piece (List Char))}
    (h : Cut assignment before tail ps) (hcs : cs = lead ++ tail) :
    sinksBetween? cs (spansFrom (byteLength lead) ps) =
      some (sinksOf (byteLength lead) (lineAfter lead) ps) := by
  induction h generalizing lead with
  | done => rfl
  | @plain _ c tail ps _ _ ih =>
    have hbytes : byteLength (lead ++ [c]) = byteLength lead + c.utf8Size := byteLength_append _ _
    rw [spansFrom, sinksOf, ← hbytes, ← lineAfter_concat]
    exact ih (by rw [hcs, List.append_assoc, List.singleton_append])
  | @found _ value text rest ps _ hmatch _ ih =>
    obtain ⟨-, text', -, happend, hlength⟩ := assignment_eq_some.mp hmatch
    obtain ⟨rfl, rfl⟩ := List.append_inj happend hlength
    have htext : cs = (lead ++ text) ++ rest := by rw [hcs, List.append_assoc]
    have hlater := ih htext
    rw [byteLength_append, lineAfter_append] at hlater
    rw [spansFrom, sinksBetween?, sinkBetween?_eq hcs, hlater, sinksOf]
    rfl

/-- The search by offsets never fails, and finds the sinks. -/
theorem sinksByOffset?_eq (cs : List Char) : sinksByOffset? cs = some (sinks cs) :=
  sinksBetween?_eq (fits_assignment.cut cs) (show cs = [] ++ cs from rfl)

end Search

/-! ## The order of the sinks -/

/-- A sink starts behind the blanks that it is searched from. -/
theorem lt_start_of_mem_sinksOf {before : Option Char} {cs : List Char}
    {ps : List (Piece (List Char))} (h : Cut assignment before cs ps) {offset line : Nat}
    {s : Sink} (hs : s ∈ sinksOf offset line ps) :
    offset + byteLength (indent cs) < s.start := by
  induction h generalizing offset line with
  | done => cases hs
  | @plain _ c cs _ _ _ ih =>
    rw [sinksOf] at hs
    have hlt := ih hs
    have hpos := c.utf8Size_pos
    by_cases hc : isBlank c = true
    · rw [indent, List.takeWhile_cons_of_pos hc, byteLength_cons]
      rw [indent] at hlt
      omega
    · rw [indent, List.takeWhile_cons_of_neg hc, byteLength_nil]
      omega
  | @found _ value text rest _ hne hmatch _ ih =>
    obtain ⟨-, text', htext, happend, hlength⟩ := assignment_eq_some.mp hmatch
    obtain ⟨rfl, rfl⟩ := List.append_inj happend hlength
    -- An assignment starts with a letter: the blanks behind an equals sign come before the next.
    have hindent : indent (text ++ rest) = [] := by
      obtain ⟨c, hc, -, hblank⟩ := htext.head?_append rest
      refine indent_eq_nil fun d hd => ?_
      obtain rfl := Option.some.inj (hc.symm.trans hd)
      exact hblank
    have hpos : 0 < byteLength text :=
      Nat.pos_of_ne_zero fun h => hne (eq_nil_of_byteLength_eq_zero h)
    rw [hindent, byteLength_nil]
    rw [sinksOf] at hs
    rcases List.mem_append.mp hs with hs | hs
    · obtain ⟨-, -, hstart, -⟩ := sinkAfter?_eq_some (Option.mem_toList.mp hs)
      omega
    · have hlt := ih hs
      omega

theorem pairwise_start_sinksOf {before : Option Char} {cs : List Char}
    {ps : List (Piece (List Char))} (h : Cut assignment before cs ps) (offset line : Nat) :
    (sinksOf offset line ps).Pairwise fun s t => s.start < t.start := by
  induction h generalizing offset line with
  | done => exact .nil
  | plain _ _ ih => exact ih _ _
  | @found _ value text rest ps _ hmatch hcut ih =>
    obtain ⟨-, text', -, happend, hlength⟩ := assignment_eq_some.mp hmatch
    obtain ⟨rfl, rfl⟩ := List.append_inj happend hlength
    rw [sinksOf, List.pairwise_append]
    refine ⟨?_, ih _ _, fun s hs t ht => ?_⟩
    · cases sinkAfter? (offset + byteLength text) line rest with
      | none => exact .nil
      | some s => exact List.pairwise_singleton _ s
    · obtain ⟨-, -, hstart, -⟩ := sinkAfter?_eq_some (Option.mem_toList.mp hs)
      rw [hstart]
      exact lt_start_of_mem_sinksOf hcut ht

/-! ## What is in a sink -/

/-- What stands around the character behind the front of an expression. -/
def nestingAfter (front : List Char) : Nesting :=
  front.foldl (Nesting.step true) .start

/-- Nothing that an expression could end before is read in it. -/
theorem endsBefore_of_take {s : Nesting} {read cs front back : List Char} {c : Char}
    (h : cs.take (extentFrom s read cs) = front ++ c :: back) :
    ∃ rest, endsBefore (front.foldl (Nesting.step true) s) (front.reverse ++ read) c rest =
      false := by
  induction cs generalizing s read front with
  | nil =>
    rw [List.take_nil] at h
    cases front <;> cases h
  | cons d cs ih =>
    rw [extentFrom] at h
    split at h
    · rw [List.take_zero] at h
      cases front <;> cases h
    · next hends =>
      rw [List.take_succ_cons] at h
      cases front with
      | nil =>
        obtain ⟨rfl, -⟩ := List.cons.inj h
        exact ⟨cs, Bool.eq_false_iff.mpr hends⟩
      | cons e front =>
        obtain ⟨rfl, hrest⟩ := List.cons.inj h
        obtain ⟨rest, hrest⟩ := ih hrest
        refine ⟨rest, ?_⟩
        rw [List.foldl_cons, List.reverse_cons, List.append_assoc, List.singleton_append]
        exact hrest

/-- An expression ends before a separator outside of every bracket. -/
theorem endsBefore_of_isFlat {s : Nesting} {c : Char} (hs : s.isFlat = true)
    (hc : c = ';' ∨ c = ',') (read rest : List Char) : endsBefore s read c rest = true := by
  obtain ⟨frame, outer, escaped, dollar⟩ := s
  simp only [Nesting.isFlat, Bool.and_eq_true, beq_iff_eq, List.isEmpty_iff] at hs
  obtain ⟨rfl, rfl⟩ := hs
  rcases hc with rfl | rfl <;> rfl

/-- A separator in an expression stands inside a bracket, a string or a template. -/
theorem isFlat_nestingAfter_of_separator {cs front back : List Char} {c : Char}
    (h : expressionAt cs = front ++ c :: back) (hc : c = ';' ∨ c = ',') :
    (nestingAfter front).isFlat = false := by
  obtain ⟨behind, hends⟩ := endsBefore_of_take h
  refine Bool.eq_false_iff.mpr fun hflat => ?_
  have hstops := endsBefore_of_isFlat hflat hc (front.reverse ++ []) behind
  exact Bool.false_ne_true (hends.symm.trans hstops)

/-- What is between the offsets of a sink. They are boundaries of the text, in their order, and the
right-hand side between them has no blank at either end and no separator outside of every
bracket. -/
structure Sink.IsCutFrom (s : Sink) (cs : List Char) : Prop where
  start_lt_stop : s.start < s.stop
  stop_le : s.stop ≤ byteLength cs
  isBoundary_start : IsBoundary cs s.start
  isBoundary_stop : IsBoundary cs s.stop
  between_eq : between? s.start s.stop cs = some s.expression
  head_not_blank : ∀ c ∈ s.expression.head?, isBlank c = false
  last_not_blank : ∀ c ∈ s.expression.getLast?, isBlank c = false
  separator_nested : ∀ front c back, s.expression = front ++ c :: back → c = ';' ∨ c = ',' →
    (nestingAfter front).isFlat = false

/-- The right-hand side of a sink is cut out of the text in which the sink is found. -/
theorem Sink.isCutFrom_of_mem_sinks {cs : List Char} {s : Sink} (h : s ∈ sinks cs) :
    s.IsCutFrom cs := by
  obtain ⟨rest, text, next, line, -, hsink⟩ := exists_found_of_mem_sinksOf h
  obtain ⟨-, hexpression, hne⟩ := expression_of_sinkAfter? hsink
  obtain ⟨lead, tail, hcs, hstart, hstop⟩ := standsIn_of_mem_sinks h
  rw [Nat.zero_add] at hstart
  have hbytes : s.stop = byteLength (lead ++ s.expression) := by
    rw [hstop, hstart, byteLength_append]
  have hpos : byteLength s.expression ≠ 0 := mt eq_nil_of_byteLength_eq_zero hne
  have hfront : s.expression <+: expressionAt (trimStart rest) :=
    hexpression ▸ trimEnd_isPrefix _
  constructor
  case start_lt_stop => omega
  case stop_le =>
    rw [hcs, byteLength_append, hbytes]
    exact Nat.le_add_right _ _
  case isBoundary_start =>
    rw [hcs, List.append_assoc]
    exact ⟨lead, List.prefix_append _ _, hstart.symm⟩
  case isBoundary_stop =>
    rw [hcs]
    exact ⟨lead ++ s.expression, List.prefix_append _ _, hbytes.symm⟩
  case between_eq =>
    rw [hstop, hstart, hcs, List.append_assoc]
    exact between?_append lead s.expression tail
  case head_not_blank =>
    intro c hc
    obtain ⟨d, ds, hcons⟩ := List.exists_cons_of_ne_nil hne
    obtain ⟨back, hback⟩ := hfront.trans (List.take_prefix _ _)
    refine head?_trimStart rest c ?_
    rw [hcons] at hc hback
    rw [← hback]
    exact hc
  case last_not_blank =>
    rw [hexpression]
    exact getLast?_trimEnd _
  case separator_nested =>
    intro front c back hsplit hc
    obtain ⟨more, hmore⟩ := hfront
    rw [hsplit, List.append_assoc, List.cons_append] at hmore
    exact isFlat_nestingAfter_of_separator hmore.symm hc

/-- The search for sinks cuts the text at its boundaries alone. The sinks that it finds start one
after the other, and each is cut out of the text at its offsets, trimmed, without a separator
outside of every bracket. -/
theorem sinks_cut_in_order (cs : List Char) :
    sinksByOffset? cs = some (sinks cs) ∧
      ((sinks cs).map fun s => s.start).Pairwise (· < ·) ∧
      ∀ s ∈ sinks cs, s.IsCutFrom cs :=
  ⟨sinksByOffset?_eq cs,
    List.pairwise_map.mpr (pairwise_start_sinksOf (fits_assignment.cut cs) 0 1),
    fun _ => Sink.isCutFrom_of_mem_sinks⟩

/-- An assignment in the arguments of a call that another one assigns, and a template that is not
closed. -/
def nestedAssignment : List Char :=
  "a.innerHTML = f('é;', b.outerHTML += y), z;\nc.innerHTML =\u2003`$\x7bd,\n".toList

theorem sinks_cut_in_order_nestedAssignment :
    ⟨14, 40, 1, "f('é;', b.outerHTML += y)".toList⟩ ∈ sinks nestedAssignment ∧
      Sink.IsCutFrom ⟨14, 40, 1, "f('é;', b.outerHTML += y)".toList⟩ nestedAssignment := by
  have hmem : ⟨14, 40, 1, "f('é;', b.outerHTML += y)".toList⟩ ∈ sinks nestedAssignment := by
    decide +kernel
  obtain ⟨-, -, hcut⟩ := sinks_cut_in_order nestedAssignment
  exact ⟨hmem, hcut _ hmem⟩

end RepoAudit.Script
