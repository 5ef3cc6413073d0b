import RepoAudit.Proofs.Remedy.Markup
import RepoAudit.Proofs.Script.Harmless

/-!
# Escaping a script twice

What the sinks of an orderly script become is a rewritten script, which has no sink left that needs
escaping; nor has it when the helper is defined behind its prologue. So the result is accepted, and
there is nothing to do when it is escaped again. Where a right-hand side holds another one, the
outer one is replaced at offsets that no longer hold.

## Main statements

- `Rewritten.escaped` — a rewritten script has the unsafe sinks of the script escaped
- `transform_settles` — an escaped script is accepted and left alone
-/

namespace RepoAudit.Remedy.Markup

open RepoAudit.Text RepoAudit.Script

variable {before : Option Char} {cs cs' rest : List Char}

/-! ## Sinks of a rewritten script -/

/-- The unsafe sinks of a text that follows a character, a byte offset and some lines. -/
def unsafeBehind (before : Option Char) (offset line : Nat) (cs : List Char) : List Sink :=
  (sinksOf offset line (piecesFrom assignment before 0 cs)).filter fun s =>
    needsEscaping s.expression

theorem unsafeBehind_cons {c : Char} (h : assignment before (c :: cs) = none) (offset line : Nat) :
    unsafeBehind before offset line (c :: cs) =
      unsafeBehind (some c) (offset + c.utf8Size) (if c = '\n' then line + 1 else line) cs := by
  rw [unsafeBehind, piecesFrom, h]
  rfl

/-- A text in which no assignment starts is passed over. -/
theorem exists_unsafeBehind_append (h : Silent before cs rest) (offset line : Nat) : ∃ line',
    unsafeBehind before offset line (cs ++ rest) =
      unsafeBehind (lastAfter before cs) (offset + byteLength cs) line' rest := by
  induction cs generalizing before offset line with
  | nil => exact ⟨line, rfl⟩
  | cons c cs ih =>
    obtain ⟨hhere, hlater⟩ := silent_cons.mp h
    obtain ⟨line', hline⟩ := ih hlater (offset + c.utf8Size) (if c = '\n' then line + 1 else line)
    refine ⟨line', ?_⟩
    rw [List.cons_append, unsafeBehind_cons hhere, hline, lastAfter_cons, byteLength_cons,
      Nat.add_assoc]

/-- An assignment may be an unsafe sink, and the search goes on behind it. -/
theorem unsafeBehind_append {text : List Char} (h : Assigns text)
    (hword : continuesWord before = false) (offset line : Nat) (rest : List Char) :
    unsafeBehind before offset line (text ++ rest) =
      (sinkAfter? (offset + byteLength text) line rest).toList.filter
          (fun s => needsEscaping s.expression) ++
        unsafeBehind (lastAfter before text) (offset + byteLength text)
          (line + text.count '\n') rest := by
  rw [unsafeBehind, h.piecesFrom_append hword, sinksOf, List.filter_append]
  rfl

/-- The sink at a right-hand side. -/
def sinkAt (offset line : Nat) (gap expression : List Char) : Sink :=
  ⟨offset + byteLength gap, offset + byteLength gap + byteLength expression, line, expression⟩

@[simp] theorem sinkAt_expression (offset line : Nat) (gap expression : List Char) :
    (sinkAt offset line gap expression).expression = expression := rfl

/-- A right-hand side belongs to an unsafe sink if it needs escaping. -/
theorem filter_sinkAfter? {gap expression tail : List Char}
    (h : RightHandSide before gap expression tail) (offset line : Nat) :
    ((sinkAfter? offset line (gap ++ (expression ++ tail))).toList.filter fun s =>
      needsEscaping s.expression) =
        if needsEscaping expression then [sinkAt offset line gap expression] else [] := by
  have hindent : indent (gap ++ (expression ++ tail)) = gap := by
    rw [indent_append h.blanks, indent_eq_nil h.head, List.append_nil]
  rw [sinkAfter?, if_neg (by simpa using h.equals)]
  simp only [trimStart_append h.blanks, trimStart_eq_self h.head, h.expression_eq, hindent]
  cases expression with
  | nil => rfl
  | cons c expression =>
    rw [if_neg (by simp), Option.toList_some]
    split
    · next hneeds => exact List.filter_cons_of_pos hneeds
    · next hsafe => exact List.filter_cons_of_neg hsafe

/-- What stands in front of the first sink is kept. -/
theorem Escaped.append {offset : Nat} {sinks : List Sink} {text : List Char} (lead : List Char)
    (h : Escaped (offset + byteLength lead) cs sinks text) :
    Escaped offset (lead ++ cs) sinks (lead ++ text) := by
  cases h with
  | nil => exact .nil
  | @cons _ kept rest text s sinks hstart hstop h =>
    have hlead : s.start = offset + byteLength (lead ++ kept) := by
      rw [hstart, byteLength_append, Nat.add_assoc]
    have hcons := Escaped.cons hlead hstop h
    simpa only [List.append_assoc] using hcons

/-- A rewritten script has the unsafe sinks of the script escaped and all else as it was. -/
theorem escaped_of_rewritten (h : Rewritten before cs cs') (offset line : Nat) :
    Escaped offset cs (unsafeBehind before offset line cs) cs' := by
  induction h generalizing offset line with
  | done => exact .nil
  | @plain _ c cs cs' hnone h ih =>
    rw [unsafeBehind_cons hnone]
    exact (ih _ _).append [c]
  | @compared before text rest rest' htext hword hequals h ih =>
    have hnone : ∀ offset line, sinkAfter? offset line rest = none := by
      intro offset line
      rw [sinkAfter?, if_pos (by simpa using hequals)]
    rw [unsafeBehind_append htext hword, hnone]
    exact (ih _ _).append text
  | @assigned before text gap expression tail tail' htext hword hside h ih =>
    obtain ⟨line', hline⟩ := exists_unsafeBehind_append hside.silent (offset + byteLength text)
      (line + text.count '\n')
    have hlater := ih (offset + byteLength text + byteLength (gap ++ expression)) line'
    rw [lastAfter_append, ← hline, List.append_assoc] at hlater
    rw [unsafeBehind_append htext hword, filter_sinkAfter? hside, settle]
    split
    · rw [byteLength_append, ← Nat.add_assoc] at hlater
      have hstart : (sinkAt (offset + byteLength text) line gap expression).start =
          offset + byteLength (text ++ gap) := by
        rw [byteLength_append, ← Nat.add_assoc]
        rfl
      have hcons := Escaped.cons hstart rfl hlater
      simpa only [List.append_assoc, sinkAt_expression, List.singleton_append] using hcons
    · have hkept := (hlater.append (gap ++ expression)).append text
      simpa only [List.append_assoc, List.nil_append] using hkept

/-! ## The helper -/

/-- No assignment starts in the line that defines the helper. -/
theorem silent_helperLine (before : Option Char) (rest : List Char) :
    Silent before (helperSource.toList ++ ['\n']) rest := by
  intro u v huv hv
  rw [assignment_eq_none_iff]
  rintro - text tail ⟨property, hproperty, blanks, -, sign, -, rfl⟩ hsplit
  have hname : 'H' ∈ property.toList ∧ '\n' ∉ property.toList := by
    revert property
    simp [sinkProperties]
  have hinit : property.toList <+: v ++ rest := by
    rw [hsplit, List.append_assoc, List.append_assoc]
    exact List.prefix_append _ _
  have hline : ∀ c ∈ helperSource.toList ++ ['\n'], c ≠ 'H' := by
    intro c hc
    obtain hc | hc := List.mem_append.mp hc
    · exact (helperSource_text.2 c hc).2
    · rw [List.mem_singleton.mp hc]
      decide
  rcases List.prefix_or_prefix_of_prefix hinit (List.prefix_append v rest) with hle | hle
  · refine hline 'H' ?_ rfl
    rw [huv]
    exact List.mem_append_right u (hle.subset hname.1)
  · -- The rest of the line ends it, and no property reaches over the end of a line.
    have hlast : v.getLast hv = '\n' := by
      have hsame : (u ++ v).getLast? = (helperSource.toList ++ ['\n']).getLast? := by rw [huv]
      rw [List.getLast?_concat, List.getLast?_append, List.getLast?_eq_some_getLast hv] at hsame
      exact Option.some.inj hsame
    exact hname.2 (hle.subset (hlast ▸ List.getLast_mem hv))

/-- A rewritten script stays harmless when the helper is defined in it. -/
theorem harmless_withHelper {content text : List Char} (h : Rewritten none content text)
    (hnames : ∀ line ∈ leadingDirectives content, NamesNoProperty line) :
    Harmless none (withHelper text) := by
  rw [withHelper]
  split
  · exact h.harmless
  · obtain ⟨lead, rest, hlead, rfl, hsilent, hend⟩ := h.exists_prologue true rfl hnames
    have hprologue : prologue (lead ++ rest) = lead := hlead
    obtain ⟨tail, hhead⟩ : ∃ tail, helperSource.toList = 'c' :: tail := by
      obtain ⟨tail, htail⟩ := helperSource_text.1
      rw [← htail, helperMarker]
      exact ⟨_, rfl⟩
    have hbehind : Silent none lead (helperSource.toList ++ ['\n'] ++ rest) := by
      refine hsilent.transfer ?_ rfl
      rw [hhead]
      exact follows_of_head (by decide) (by decide)
    have hrest : assignedFrom (lastAfter none lead) rest =
        assignedFrom (lastAfter (lastAfter none lead) (helperSource.toList ++ ['\n'])) rest := by
      refine assignedFrom_congr ?_
      obtain rfl | hword := hend
      · have hnil : ∀ c ∈ ([] : List Char).head?, c ≠ 'i' ∧ c ≠ 'o' := by simp
        rw [assignment_eq_none_of_head? hnil, assignment_eq_none_of_head? hnil]
      · rw [lastAfter_append, assignment, assignment, hword]
        rfl
    have hsplit : lead ++ helperSource.toList ++ '\n' :: rest =
        lead ++ (helperSource.toList ++ ['\n'] ++ rest) := by simp
    have hharmless := h.harmless
    rw [Harmless, hsilent.assignedFrom_append, hrest] at hharmless
    simp only [hprologue, List.drop_left]
    rw [Harmless, hsplit, hbehind.assignedFrom_append,
      (silent_helperLine _ rest).assignedFrom_append]
    exact hharmless

theorem contains_withHelper (text : List Char) :
    contains (withHelper text) helperMarker.toList = true := by
  rw [withHelper]
  split
  · next h => exact h
  · have hsource := helperSource_text.1.isInfix
    exact contains_iff.mpr (hsource.trans ⟨prologue text, _, rfl⟩)

/-! ## Orderly scripts -/

/-- An orderly script in which no leading line that starts like a directive names a markup property
is escaped without a misplaced cut. The result is accepted, and there is nothing to do when it is
escaped again. -/
theorem transform_settles {content : List Char} (h : IsOrderly content)
    (hnames : ∀ line ∈ leadingDirectives content, NamesNoProperty line) :
    (∃ result, transform content = .ok result) ∧
      ∀ changed, transform content = .ok (some changed) →
        verify changed = .passed ∧ transform changed = .ok none := by
  obtain ⟨text, htext⟩ := exists_rewritten h
  have hescape : escapeSinks content (unsafeSinks content) = .ok text :=
    (escaped_of_rewritten htext 0 1).escapeSinks_eq [] rfl
  have hnone : unsafeSinks (withHelper text) = [] :=
    (harmless_withHelper htext hnames).unsafeSinks_eq_nil
  have hverify : verify (withHelper text) = .passed := by
    have hfirst : firstUnsafeSink? (withHelper text) = none := by
      rw [firstUnsafeSink?, ← List.head?_filter]
      exact congrArg List.head? hnone
    rw [verify, contains_withHelper, hfirst]
    rfl
  have hagain : transform (withHelper text) = .ok none := by
    rw [transform, hnone]
  refine ⟨exists_transform hescape, fun changed hchanged => ?_⟩
  obtain ⟨-, -, text', htext', rfl⟩ := transform_eq_some_iff.mp hchanged
  obtain rfl := Except.ok.inj (hescape.symm.trans htext')
  exact ⟨hverify, hagain⟩

/-- Two assignments of markup below a directive. -/
def strictSinks : List Char :=
  "'use strict';\na.innerHTML = 'é' + f(x, ',');\nb.outerHTML += \x60<i>$\x7by\x7d</i>\x60\n".toList

/-- What becomes of them. -/
def strictSinksEscaped : List Char :=
  "'use strict';\n".toList ++ helperSource.toList ++
    ("\na.innerHTML = 'é' + sanitize(f(x, ','));\n" ++
      "b.outerHTML += \x60<i>$\x7bsanitize(y)\x7d</i>\x60\n").toList

theorem settles_strictSinks :
    IsOrderly strictSinks ∧ (∀ line ∈ leadingDirectives strictSinks, NamesNoProperty line) ∧
      transform strictSinks = .ok (some strictSinksEscaped) ∧
      verify strictSinksEscaped = .passed ∧ transform strictSinksEscaped = .ok none := by
  have horderly : IsOrderly strictSinks := by decide +kernel
  have hnames : ∀ line ∈ leadingDirectives strictSinks, NamesNoProperty line := by decide +kernel
  have htransform : transform strictSinks = .ok (some strictSinksEscaped) := by decide +kernel
  exact ⟨horderly, hnames, htransform, (transform_settles horderly hnames).2 _ htransform⟩

/-- An assignment of markup in the right-hand side of another one. -/
def nestedSink : List Char :=
  "el.innerHTML = '<b>' + (b.innerHTML = x + y);\n".toList

/-- What becomes of it: the outer right-hand side is replaced up to where it ended before the inner
one grew. -/
def nestedSinkEscaped : List Char :=
  helperSource.toList ++
    "\nel.innerHTML = '<b>' + sanitize((b.innerHTML = x + y))ze(x) + sanitize(y));\n".toList

/-- The result is refused. -/
theorem not_settles_nestedSink :
    ¬∀ content changed, transform content = .ok (some changed) →
      verify changed = .passed ∧ transform changed = .ok none := by
  intro h
  have htransform : transform nestedSink = .ok (some nestedSinkEscaped) := by decide +kernel
  have hrefused : verify nestedSinkEscaped ≠ .passed := by decide +kernel
  exact hrefused (h _ _ htransform).1

end RepoAudit.Remedy.Markup
