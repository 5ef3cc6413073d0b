import Mathlib.Control.Monad.Basic
import RepoAudit.Proofs.Script.Sink
import RepoAudit.Proofs.Text.Offset
import RepoAudit.Remedy.Markup

/-!
# What escaping keeps

Sinks are escaped from the last one to the first at the offsets that they have in the text as it
was found. These offsets hold as long as no right-hand side lies in another one: then every cut
falls on a boundary, and what stands outside the right-hand sides is kept in its order. A
right-hand side inside another one moves the end of the outer one.

## Main definitions

- `Separate` — no right-hand side reaches into the next one
- `Escaped` — the right-hand sides of some sinks are escaped and all else is kept
- `HelperAdded` — the helper's definition may stand on a line of its own in addition

## Main statements

- `Escaped.escapeSinks_eq` — sinks that lie one after the other are escaped where they stand
- `transform_keeps_outside` — what a changed text is made of
-/

namespace RepoAudit.Remedy.Markup

open RepoAudit.Text RepoAudit.Script

/-- The right-hand side of every sink ends before that of any later one starts. -/
def Separate (sinks : List Sink) : Prop :=
  sinks.Pairwise fun a b => a.stop ≤ b.start

instance (sinks : List Sink) : Decidable (Separate sinks) :=
  inferInstanceAs (Decidable (List.Pairwise _ _))

/-- The text that follows a byte offset, cut at the right-hand sides of some sinks, and the text
that has these escaped and all else as it stands. -/
inductive Escaped : Nat → List Char → List Sink → List Char → Prop where
  | nil {offset : Nat} {kept : List Char} : Escaped offset kept [] kept
  | cons {offset : Nat} {kept rest text : List Char} {s : Sink} {sinks : List Sink} :
      s.start = offset + byteLength kept → s.stop = s.start + byteLength s.expression →
        Escaped s.stop rest sinks text →
        Escaped offset (kept ++ s.expression ++ rest) (s :: sinks)
          (kept ++ escape s.expression ++ text)

/-- A text that is another one, or that one with the line that defines the helper put in. -/
def HelperAdded (text changed : List Char) : Prop :=
  changed = text ∨
    ∃ lead rest, text = lead ++ rest ∧ changed = lead ++ helperSource.toList ++ '\n' :: rest

/-- The helper's definition starts with the text by which it is known, is a single line and names no
markup property. -/
theorem helperSource_text : helperMarker.toList <+: helperSource.toList ∧
    ∀ c ∈ helperSource.toList, c ≠ '\n' ∧ c ≠ 'H' := by
  -- The two halves are read apart: reading a long literal takes the square of its length.
  obtain ⟨lead, rest, hsource, hlead, hrest⟩ : ∃ lead rest : String, helperSource = lead ++ rest ∧
      (helperMarker.toList <+: lead.toList ∧ ∀ c ∈ lead.toList, c ≠ '\n' ∧ c ≠ 'H') ∧
      ∀ c ∈ rest.toList, c ≠ '\n' ∧ c ≠ 'H' := by
    refine ⟨_, _, rfl, ⟨?_, ?_⟩, ?_⟩
    · simp only [helperMarker, String.reduceToList]
      exact ⟨_, rfl⟩
    · simp
    · simp
  rw [hsource, String.toList_append]
  exact ⟨hlead.1.trans (List.prefix_append _ _),
    fun c hc => (List.mem_append.mp hc).elim (hlead.2 c) (hrest c)⟩

/-- Sinks that lie one after the other cut the text in which they stand. -/
theorem Separate.exists_escaped {sinks : List Sink} (h : Separate sinks)
    {content : List Char} (lead : List Char) {cs : List Char}
    (hcontent : content = lead ++ cs) (hstands : ∀ s ∈ sinks, s.StandsIn 0 content)
    (hafter : ∀ s ∈ sinks, byteLength lead ≤ s.start) :
    ∃ text, Escaped (byteLength lead) cs sinks text := by
  induction sinks generalizing lead cs with
  | nil => exact ⟨cs, .nil⟩
  | cons s sinks ih =>
    obtain ⟨hfirst, hrest⟩ := List.pairwise_cons.mp h
    obtain ⟨front, tail, hplace, hstart, hstop⟩ := hstands s List.mem_cons_self
    rw [Nat.zero_add] at hstart
    have hle : byteLength lead ≤ byteLength front := hstart ▸ hafter s List.mem_cons_self
    have hsplit : lead ++ cs = front ++ (s.expression ++ tail) := by
      rw [← hcontent, hplace, List.append_assoc]
    obtain ⟨kept, rfl, rfl⟩ := exists_append_of_byteLength_le hsplit hle
    have hbytes : byteLength (lead ++ kept ++ s.expression) = s.stop := by
      rw [hstop, hstart, byteLength_append]
    obtain ⟨text, htext⟩ := ih hrest (lead ++ kept ++ s.expression) hplace
      (fun s' hs' => hstands s' (List.mem_cons_of_mem s hs'))
      (fun s' hs' => hbytes ▸ hfirst s' hs')
    rw [hbytes] at htext
    rw [byteLength_append] at hstart
    refine ⟨kept ++ escape s.expression ++ text, ?_⟩
    rw [← List.append_assoc]
    exact .cons hstart hstop htext

/-- When a sink's turn comes, everything up to its end is as it was found. -/
theorem Escaped.escapeSinks_eq {offset : Nat} {cs text : List Char} {sinks : List Sink}
    (h : Escaped offset cs sinks text) (lead : List Char) (hlead : byteLength lead = offset) :
    escapeSinks (lead ++ cs) sinks = .ok (lead ++ text) := by
  induction h generalizing lead with
  | nil => rfl
  | @cons offset kept rest text s sinks hstart hstop _ ih =>
    have hfront : s.start = byteLength (lead ++ kept) := by
      rw [byteLength_append, hlead, hstart]
    have hlater := ih (lead ++ kept ++ s.expression) <| by
      rw [byteLength_append, ← hfront, hstop]
    have hsplice := spliceAt?_append (lead ++ kept) s.expression (escape s.expression) text
    rw [← hfront, ← hstop] at hsplice
    simp only [List.append_assoc] at hlater hsplice ⊢
    simp only [escapeSinks, hlater, hsplice]

theorem prologueOf_isPrefix (first : Bool) (lines : List (List Char)) :
    prologueOf first lines <+: lines := by
  induction lines generalizing first with
  | nil => exact List.prefix_rfl
  | cons line lines ih =>
    rw [prologueOf]
    split
    · exact (List.prefix_cons_inj line).mpr (ih false)
    · exact List.nil_prefix

theorem flatten_consFirst {α : Type} (a : α) (parts : List (List α)) :
    (consFirst a parts).flatten = a :: parts.flatten := by
  cases parts with
  | nil => rfl
  | cons part parts => rfl

theorem flatten_splitTerminated (cs : List Char) : (splitTerminated cs).flatten = cs := by
  induction cs with
  | nil => rfl
  | cons c cs ih =>
    rw [splitTerminated]
    split
    · rw [List.flatten_cons, ih]
      rfl
    · rw [flatten_consFirst, ih]

/-- The prologue starts the text. -/
theorem prologue_isPrefix (cs : List Char) : prologue cs <+: cs := by
  obtain ⟨rest, hrest⟩ := prologueOf_isPrefix true (splitTerminated cs)
  refine ⟨rest.flatten, ?_⟩
  rw [prologue, ← List.flatten_append, hrest, flatten_splitTerminated]

theorem helperAdded_withHelper (text : List Char) : HelperAdded text (withHelper text) := by
  rw [withHelper]
  split
  · exact .inl rfl
  · exact .inr ⟨prologue text, text.drop (prologue text).length,
      (List.prefix_iff_eq_append.mp (prologue_isPrefix text)).symm, rfl⟩

/-- A changed text has its unsafe sinks escaped and the helper defined. -/
theorem transform_eq_some_iff {content changed : List Char} :
    transform content = .ok (some changed) ↔ unsafeSinks content ≠ [] ∧ changed ≠ content ∧
      ∃ text, escapeSinks content (unsafeSinks content) = .ok text ∧ changed = withHelper text := by
  rw [transform]
  cases hsinks : unsafeSinks content with
  | nil => simp
  | cons s sinks =>
    cases hescape : escapeSinks content (s :: sinks) with
    | error e => simp [hescape]
    | ok text =>
      simp only [hescape, Except.ok.injEq, Option.ite_none_left_eq_some, Option.some.injEq]
      constructor
      · rintro ⟨hne, rfl⟩
        exact ⟨List.cons_ne_nil _ _, hne, text, rfl, rfl⟩
      · rintro ⟨-, hne, _, rfl, rfl⟩
        exact ⟨hne, rfl⟩

/-- Where no cut is misplaced there is a result. -/
theorem exists_transform {content text : List Char}
    (h : escapeSinks content (unsafeSinks content) = .ok text) :
    ∃ result, transform content = .ok result := by
  rw [transform]
  split
  · exact ⟨none, rfl⟩
  · rw [h]
    exact ⟨_, rfl⟩

/-- When the unsafe right-hand sides lie one after the other, no cut is misplaced, and a changed text
is the one found with these escaped and all else kept in its order, apart from one line for the
helper. -/
theorem transform_keeps_outside {content : List Char} (h : Separate (unsafeSinks content)) :
    (∃ result, transform content = .ok result) ∧
      ∀ changed, transform content = .ok (some changed) →
        ∃ text, Escaped 0 content (unsafeSinks content) text ∧ HelperAdded text changed := by
  obtain ⟨text, htext⟩ := h.exists_escaped [] rfl
    (fun s hs => standsIn_of_mem_sinks (List.mem_filter.mp hs).1) (fun _ _ => Nat.zero_le _)
  have hescape : escapeSinks content (unsafeSinks content) = .ok text :=
    htext.escapeSinks_eq [] rfl
  refine ⟨exists_transform hescape, fun changed hchanged => ⟨text, htext, ?_⟩⟩
  obtain ⟨-, -, text', htext', rfl⟩ := transform_eq_some_iff.mp hchanged
  obtain rfl := Except.ok.inj (hescape.symm.trans htext')
  exact helperAdded_withHelper text

/-- Two assignments of markup, one after the other, in a text that is not all ASCII. -/
def twoSinks : List Char :=
  "a.innerHTML = 'é' + x;\nb.outerHTML = `<i>$\x7by\x7d</i>`;\n".toList

/-- What becomes of them below the helper's line. -/
def twoSinksEscaped : List Char :=
  "a.innerHTML = 'é' + sanitize(x);\nb.outerHTML = `<i>$\x7bsanitize(y)\x7d</i>`;\n".toList

theorem keeps_outside_twoSinks :
    Separate (unsafeSinks twoSinks) ∧
      transform twoSinks = .ok (some (helperSource.toList ++ '\n' :: twoSinksEscaped)) ∧
      ∃ text, Escaped 0 twoSinks (unsafeSinks twoSinks) text ∧
        HelperAdded text (helperSource.toList ++ '\n' :: twoSinksEscaped) := by
  have hseparate : Separate (unsafeSinks twoSinks) := by decide +kernel
  have htransform : transform twoSinks =
      .ok (some (helperSource.toList ++ '\n' :: twoSinksEscaped)) := by decide +kernel
  exact ⟨hseparate, htransform, (transform_keeps_outside hseparate).2 _ htransform⟩

/-- The right-hand side of the second assignment lies in that of the first one. It grows when it is
escaped, and the end of the first one then falls inside a character. -/
theorem misplaced_nestedSink :
    transform "a.innerHTML = 'x' + (b.innerHTML = x + y) + 'ééééééééééééééééé';\n".toList =
      .error ⟨80⟩ := by
  decide +kernel

end RepoAudit.Remedy.Markup
