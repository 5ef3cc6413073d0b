import RepoAudit.Proofs.Remedy.Markup
import RepoAudit.Proofs.Script.Harmless

/-!
# Where the helper is defined

The helper's definition goes behind the prologue of the rewritten script, whose lines are told by
how they start and end. A line of the prologue may assign markup all the same; the definition then
comes after its first use, and if the line is the last one and has no newline, in its middle. Apart
from that the definition is a line of its own above everything that was rewritten.

## Main definitions

- `Sink.AssignedBehind` — where the assignment of a sink stands in a text
- `DefinedFirst` — a lead behind which the helper is defined before it is used

## Main statements

- `Sink.AssignedBehind.of_wholeLines` — a sink stands behind the lines above its own
- `isPrefix_of_escapeSinks` — what stands before all sinks is kept
- `definedFirst_prologue_iff` — when the helper is defined before it is used
-/

namespace RepoAudit.Script

open RepoAudit.Text

/-! ### The assignment of a sink -/

/-- In the text behind a lead the right-hand side of a sink is assigned to a property, at the
offset and in the line that the sink gives. -/
def Sink.AssignedBehind (s : Sink) (lead cs : List Char) : Prop :=
  ∃ before text gap tail, cs = before ++ (text ++ (gap ++ (s.expression ++ tail))) ∧
    Assigns text ∧ (∀ c ∈ gap, isBlank c = true) ∧
    s.start = byteLength (lead ++ (before ++ (text ++ gap))) ∧
    s.line = lineAfter (lead ++ before)

namespace Sink.AssignedBehind

variable {s : Sink} {lead cs : List Char}

theorem append (text : List Char) (h : s.AssignedBehind (lead ++ text) cs) :
    s.AssignedBehind lead (text ++ cs) := by
  obtain ⟨before, sign, gap, tail, rfl, hsign, hgap, hstart, hline⟩ := h
  refine ⟨text ++ before, sign, gap, tail, by simp only [List.append_assoc], hsign, hgap, ?_, ?_⟩
  · rw [hstart]
    simp only [List.append_assoc]
  · rw [hline, List.append_assoc]

theorem byteLength_le_start (h : s.AssignedBehind lead cs) : byteLength lead ≤ s.start := by
  obtain ⟨before, text, gap, tail, -, -, -, hstart, -⟩ := h
  rw [hstart, byteLength_append]
  exact Nat.le_add_right _ _

theorem count_lt_line (h : s.AssignedBehind lead cs) : lead.count '\n' < s.line := by
  obtain ⟨before, text, gap, tail, -, -, -, -, hline⟩ := h
  rw [hline, lineAfter, List.count_append]
  omega

/-- The line of a sink is not above the text that assigns it. -/
theorem line_le (h : s.AssignedBehind [] cs) : s.line ≤ lineAfter cs := by
  obtain ⟨before, text, gap, tail, rfl, -, -, -, hline⟩ := h
  rw [hline, lineAfter, lineAfter, List.nil_append, List.count_append]
  omega

/-- A sink stands behind the lines above its own. -/
theorem of_wholeLines (h : s.AssignedBehind [] (lead ++ cs)) (hlead : WholeLines lead)
    (hline : lead.count '\n' < s.line) : s.AssignedBehind lead cs := by
  obtain ⟨before, text, gap, tail, hcs, htext, hgap, hstart, hbefore⟩ := h
  have hcount : lead.count '\n' ≤ before.count '\n' := by
    rw [hbefore, lineAfter, List.nil_append] at hline
    omega
  obtain ⟨kept, rfl⟩ := hlead.isPrefix_of_count_le (List.prefix_append lead cs)
    (hcs ▸ List.prefix_append before _) hcount
  rw [List.append_assoc] at hcs
  refine ⟨kept, text, gap, tail, List.append_cancel_left hcs, htext, hgap, ?_, hbefore⟩
  rw [hstart, List.nil_append, List.append_assoc]

end Sink.AssignedBehind

theorem assignedBehind_of_mem_sinksOf {before : Option Char} {cs : List Char}
    {ps : List (Piece (List Char))} (h : Cut assignment before cs ps) {lead : List Char} {s : Sink}
    (hs : s ∈ sinksOf (byteLength lead) (lineAfter lead) ps) : s.AssignedBehind lead cs := by
  induction h generalizing lead with
  | done => cases hs
  | @plain _ c cs ps _ _ ih =>
    have hbytes : byteLength (lead ++ [c]) = byteLength lead + c.utf8Size := byteLength_append _ _
    rw [sinksOf, ← hbytes, ← lineAfter_concat] at hs
    exact (ih hs).append [c]
  | @found _ value text rest ps _ hmatch _ ih =>
    obtain ⟨-, text', htext, happend, hlength⟩ := assignment_eq_some.mp hmatch
    obtain ⟨rfl, rfl⟩ := List.append_inj happend hlength
    rw [sinksOf, ← byteLength_append, ← lineAfter_append] at hs
    rcases List.mem_append.mp hs with hs | hs
    · obtain ⟨tail, hrest, hstart, -, hsink⟩ := sinkAfter?_eq_some (Option.mem_toList.mp hs)
      refine ⟨[], text, indent rest, tail, by rw [← hrest]; rfl, htext,
        fun c => isBlank_of_mem_indent, ?_, ?_⟩
      · rw [hstart, ← byteLength_append, List.append_assoc]
        rfl
      · rw [hsink, List.append_nil]
    · exact (ih hs).append text

/-- Every sink of a text is assigned in it. -/
theorem assignedBehind_of_mem_sinks {cs : List Char} {s : Sink} (h : s ∈ sinks cs) :
    s.AssignedBehind [] cs :=
  assignedBehind_of_mem_sinksOf (fits_assignment.cut cs) h

/-! ### The lines of a prologue -/

/-- The first lines of a text are read from it alone. -/
theorem splitTerminated_flatten {parts : List (List Char)} {cs : List Char}
    (h : parts <+: splitTerminated cs) : splitTerminated parts.flatten = parts := by
  induction parts generalizing cs with
  | nil => rfl
  | cons part parts ih =>
    have hne : cs ≠ [] := by
      rintro rfl
      cases List.eq_nil_of_prefix_nil h
    obtain ⟨line, rest, rfl, hline⟩ := exists_line hne
    rw [hline.splitTerminated_eq, List.cons_prefix_cons] at h
    obtain ⟨rfl, hparts⟩ := h
    have hflatten : Line part parts.flatten := by
      cases hline with
      | terminated hfront rest => exact .terminated hfront _
      | last hlast hnil =>
        rw [List.eq_nil_of_prefix_nil hparts]
        exact .last hlast hnil
    rw [List.flatten_cons, hflatten.splitTerminated_eq, ih hparts]

end RepoAudit.Script

namespace RepoAudit.Remedy.Markup

open RepoAudit.Text RepoAudit.Script

/-! ### The helper's line -/

theorem splitTerminated_prologue (cs : List Char) :
    splitTerminated (prologue cs) = prologueOf true (splitTerminated cs) :=
  splitTerminated_flatten (prologueOf_isPrefix true _)

/-- Behind a lead of the script a line starts, and all of its unsafe sinks are assigned there. -/
def DefinedFirst (content lead : List Char) : Prop :=
  WholeLines lead ∧
    ∃ tail, content = lead ++ tail ∧ ∀ s ∈ unsafeSinks content, s.AssignedBehind lead tail

variable {content changed text : List Char}

/-- What stands before all sinks is kept when these are escaped. -/
theorem isPrefix_of_escapeSinks {sinks : List Sink} {lead : List Char}
    (h : escapeSinks content sinks = .ok changed) (hlead : lead <+: content)
    (hsinks : ∀ s ∈ sinks, byteLength lead ≤ s.start) : lead <+: changed := by
  induction sinks generalizing changed with
  | nil =>
    obtain rfl : content = changed := Except.ok.inj h
    exact hlead
  | cons s sinks ih =>
    rw [List.forall_mem_cons] at hsinks
    rw [escapeSinks] at h
    split at h
    · cases h
    · next later hlater =>
      split at h
      · next spliced hsplice =>
        obtain rfl : spliced = changed := Except.ok.inj h
        exact isPrefix_of_spliceAt? hsplice (ih hlater hsinks.2) hsinks.1
      · cases h

/-- The helper is defined before it is used exactly when no line of the prologue is that of a sink
that was escaped. -/
theorem definedFirst_prologue_iff (h : escapeSinks content (unsafeSinks content) = .ok changed)
    (hne : unsafeSinks content ≠ []) : DefinedFirst content (prologue changed) ↔
      ∀ s ∈ unsafeSinks content, (prologueOf true (splitTerminated changed)).length < s.line := by
  have hassigned : ∀ s ∈ unsafeSinks content, s.AssignedBehind [] content :=
    fun s hs => assignedBehind_of_mem_sinks (List.mem_filter.mp hs).1
  constructor
  · rintro ⟨hlines, tail, -, hbehind⟩ s hs
    rw [← splitTerminated_prologue, hlines.length_splitTerminated]
    exact (hbehind s hs).count_lt_line
  · intro hbelow
    obtain ⟨first, hfirst⟩ := List.exists_mem_of_ne_nil _ hne
    have hcount : (prologueOf true (splitTerminated changed)).length ≤ content.count '\n' := by
      have hlt := hbelow first hfirst
      have hle := (hassigned first hfirst).line_le
      rw [lineAfter] at hle
      omega
    -- As many lines of the script as the prologue has stand above all sinks and are kept.
    obtain ⟨lead, tail, rfl, hlead, hlength⟩ := exists_wholeLines hcount
    have hbehind : ∀ s ∈ unsafeSinks (lead ++ tail), s.AssignedBehind lead tail := by
      intro s hs
      have hlt := hbelow s hs
      exact (hassigned s hs).of_wholeLines hlead (by omega)
    obtain ⟨rest, rfl⟩ := isPrefix_of_escapeSinks h (List.prefix_append lead tail)
      fun s hs => (hbehind s hs).byteLength_le_start
    have hprologue : prologue (lead ++ rest) = lead := by
      have hprefix := prologueOf_isPrefix true (splitTerminated (lead ++ rest))
      rw [← hlead.length_splitTerminated] at hlength
      rw [hlead.splitTerminated_append] at hprefix hlength
      have hlines := (List.prefix_of_prefix_length_le hprefix (List.prefix_append _ _)
        (Nat.le_of_eq hlength.symm)).eq_of_length hlength.symm
      rw [prologue, hlead.splitTerminated_append, hlines, flatten_splitTerminated]
    rw [hprologue]
    exact ⟨hlead, tail, rfl, hbehind⟩

/-- A missing helper is put in behind the prologue. -/
theorem withHelper_of_missing (h : contains changed helperMarker.toList = false) :
    ∃ rest, changed = prologue changed ++ rest ∧
      withHelper changed = prologue changed ++ helperSource.toList ++ '\n' :: rest := by
  refine ⟨changed.drop (prologue changed).length,
    (List.prefix_iff_eq_append.mp (prologue_isPrefix changed)).symm, ?_⟩
  rw [withHelper, h]
  rfl

/-- The helper's definition is a single line. -/
theorem newline_notMem_helperSource : '\n' ∉ helperSource.toList :=
  fun h => (helperSource_text.2 _ h).1 rfl

/-- When the helper is put in, its definition stands behind the prologue and ends its line. It
starts the line, above every assignment that was rewritten, exactly when no line of the prologue is
that of a rewritten sink. -/
theorem transform_defines_helper (h : escapeSinks content (unsafeSinks content) = .ok changed)
    (hmissing : contains changed helperMarker.toList = false)
    (htransform : transform content = .ok (some text)) :
    '\n' ∉ helperSource.toList ∧
      ∃ rest, changed = prologue changed ++ rest ∧
        text = prologue changed ++ helperSource.toList ++ '\n' :: rest ∧
        (DefinedFirst content (prologue changed) ↔ ∀ s ∈ unsafeSinks content,
          (prologueOf true (splitTerminated changed)).length < s.line) := by
  obtain ⟨hne, -, changed', hchanged', rfl⟩ := transform_eq_some_iff.mp htransform
  obtain rfl := Except.ok.inj (h.symm.trans hchanged')
  obtain ⟨rest, hchanged, hhelper⟩ := withHelper_of_missing hmissing
  exact ⟨newline_notMem_helperSource, rest, hchanged, hhelper, definedFirst_prologue_iff h hne⟩

/-- An assignment of markup below a shebang line and a directive. -/
def shebangSink : List Char :=
  "#!node\n\"use strict\"\na.innerHTML += 'b' + c".toList

/-- The assignment with its right-hand side escaped. -/
def shebangSinkEscaped : List Char :=
  "#!node\n\"use strict\"\na.innerHTML += 'b' + sanitize(c)".toList

/-- The assignment and the helper's line above it. -/
def shebangSinkHelped : List Char :=
  "#!node\n\"use strict\"\n".toList ++ helperSource.toList ++
    "\na.innerHTML += 'b' + sanitize(c)".toList

theorem defines_helper_shebangSink :
    escapeSinks shebangSink (unsafeSinks shebangSink) = .ok shebangSinkEscaped ∧
      contains shebangSinkEscaped helperMarker.toList = false ∧
      transform shebangSink = .ok (some shebangSinkHelped) ∧
      DefinedFirst shebangSink (prologue shebangSinkEscaped) := by
  have hescape : escapeSinks shebangSink (unsafeSinks shebangSink) = .ok shebangSinkEscaped := by
    decide +kernel
  have hmissing : contains shebangSinkEscaped helperMarker.toList = false := by decide +kernel
  have htransform : transform shebangSink = .ok (some shebangSinkHelped) := by decide +kernel
  have hbelow : ∀ s ∈ unsafeSinks shebangSink,
      (prologueOf true (splitTerminated shebangSinkEscaped)).length < s.line := by decide +kernel
  obtain ⟨-, -, -, -, hiff⟩ := transform_defines_helper hescape hmissing htransform
  exact ⟨hescape, hmissing, htransform, hiff.mpr hbelow⟩

/-- An assignment of markup behind a directive on the same line. -/
def directiveSink : List Char :=
  "'use strict'; el.innerHTML = '<b>' + x;\n".toList

/-- The assignment with its right-hand side escaped. -/
def directiveSinkEscaped : List Char :=
  "'use strict'; el.innerHTML = '<b>' + sanitize(x);\n".toList

/-- The helper is defined below the assignment that uses it, and the result is accepted all the
same. -/
theorem not_definedFirst_directiveSink :
    escapeSinks directiveSink (unsafeSinks directiveSink) = .ok directiveSinkEscaped ∧
      contains directiveSinkEscaped helperMarker.toList = false ∧
      transform directiveSink =
        .ok (some (directiveSinkEscaped ++ helperSource.toList ++ ['\n'])) ∧
      verify (directiveSinkEscaped ++ helperSource.toList ++ ['\n']) = .passed ∧
      ¬ DefinedFirst directiveSink (prologue directiveSinkEscaped) := by
  refine ⟨by decide +kernel, by decide +kernel, by decide +kernel, by decide +kernel, ?_⟩
  rintro ⟨-, tail, -, hbehind⟩
  have hsink : ⟨29, 38, 1, "'<b>' + x".toList⟩ ∈ unsafeSinks directiveSink := by decide +kernel
  have hlines : (prologue directiveSinkEscaped).count '\n' = 1 := by decide +kernel
  have hline := (hbehind _ hsink).count_lt_line
  rw [hlines] at hline
  exact absurd hline (Nat.lt_irrefl 1)

end RepoAudit.Remedy.Markup
