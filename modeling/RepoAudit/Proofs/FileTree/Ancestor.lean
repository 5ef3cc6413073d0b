import Mathlib.Data.List.Infix
import RepoAudit.Proofs.FileTree.Route

/-!
# Where the parents of a path lead

The parents of a path spell the first segments of it. So they lead only to routes that the way to
the path passes.

## Main definitions

- `Path.Avoids` — the way to a path does not pass a route

## Main statements

- `Path.segments_parent?` — the segments of the parent of a path
- `Path.Avoids.routeFrom_ne` — a path and its parents do not lead to a route that is avoided
- `Path.Avoids.entry` — a name behind a path
-/

namespace RepoAudit.Path

open RepoAudit.Text

/-- The route from which the segments of a path are followed. -/
def originOf (p : Path) (here : Route) : Route :=
  if p.isAbsolute then [] else here

/-- The way to a path does not pass a route. -/
def Avoids (here r : Route) (p : Path) : Prop :=
  ∀ segments, segments <+: p.segments → segments.foldl stepRoute (p.originOf here) ≠ r

instance (here r : Route) (p : Path) : Decidable (p.Avoids here r) :=
  decidable_of_iff
    (∀ segments ∈ p.segments.inits, segments.foldl stepRoute (p.originOf here) ≠ r)
    (by simp only [List.mem_inits, Avoids])

theorem dropLast_isPrefix_dropLast {α : Type} {as bs : List α} (h : as <+: bs) :
    as.dropLast <+: bs.dropLast := by
  obtain ⟨rest, rfl⟩ := h
  by_cases hrest : rest = []
  · simp [hrest]
  · rw [List.dropLast_append_of_ne_nil hrest]
    exact (List.dropLast_prefix as).trans (List.prefix_append _ _)

theorem withoutSilentTail_isPrefix (absolute : Bool) (segments : List (List Char)) :
    withoutSilentTail absolute segments <+: segments := by
  rw [withoutSilentTail]
  split
  · next hcurrent =>
    simp only [Bool.and_eq_true, beq_iff_eq] at hcurrent
    obtain ⟨rest, hrest⟩ := List.head?_eq_some_iff.mp hcurrent.2
    exact ⟨rest, hrest.symm⟩
  · rw [← List.reverse_suffix, List.reverse_reverse]
    exact List.dropWhile_suffix _

theorem notMem_of_mem_segments {p : Path} {segment : List Char} (h : segment ∈ p.segments) :
    '/' ∉ segment := by
  rw [segments] at h
  split at h <;> exact notMem_of_mem_splitOn h

/-- The first segment of a relative path is empty in the empty path alone. -/
theorem head?_segments {p : Path} (h : p.isAbsolute = false) (hchars : p.chars ≠ []) :
    p.segments.head? ≠ some [] := by
  obtain ⟨c, cs, hcs⟩ := List.exists_cons_of_ne_nil hchars
  have hc : c ≠ '/' := by
    rintro rfl
    simp [isAbsolute, hcs] at h
  obtain ⟨first, parts, hparts⟩ := List.exists_cons_of_ne_nil (splitOn_ne_nil '/' cs)
  simp [segments, h, hcs, splitOn, hc, hparts, consFirst]

/-- What some segments spell has these segments. -/
theorem segments_ofSegments (absolute : Bool) {segments : List (List Char)}
    (hsegment : ∀ s ∈ segments, '/' ∉ s) (hfirst : absolute = false → segments.head? ≠ some []) :
    (ofSegments absolute segments).isAbsolute = absolute ∧
      (ofSegments absolute segments).segments = if segments = [] then [[]] else segments := by
  have hsplit : splitOn '/' (['/'].intercalate segments) =
      if segments = [] then [[]] else segments := by
    split
    · next hnil =>
      subst hnil
      rfl
    · next hne => rw [splitOn_eq, List.splitOn_intercalate '/' hsegment hne]
  cases absolute with
  | true =>
    have habsolute : (ofSegments true segments).isAbsolute = true := by
      rw [isAbsolute, ofSegments, chars_ofList]
      rfl
    refine ⟨habsolute, ?_⟩
    rw [Path.segments, if_pos habsolute, ← hsplit, ofSegments, chars_ofList]
    rfl
  | false =>
    have habsolute : (ofSegments false segments).isAbsolute = false := by
      rw [isAbsolute, ofSegments, chars_ofList]
      cases segments with
      | nil => rfl
      | cons s rest =>
        obtain ⟨c, cs, rfl⟩ : ∃ c cs, s = c :: cs := by
          cases s with
          | nil => exact absurd rfl (hfirst rfl)
          | cons c cs => exact ⟨c, cs, rfl⟩
        have hc : c ≠ '/' := by
          rintro rfl
          exact hsegment _ List.mem_cons_self List.mem_cons_self
        cases rest with
        | nil => simpa using hc
        | cons s' rest => simpa [List.intercalate] using hc
    refine ⟨habsolute, ?_⟩
    rw [Path.segments, habsolute, ← hsplit, ofSegments, chars_ofList]
    rfl

/-- The parent of a path spells the first segments of it. -/
theorem segments_parent? {p parent : Path} (h : p.parent? = some parent) :
    parent.isAbsolute = p.isAbsolute ∧
      (parent.segments = [[]] ∨ parent.segments <+: p.segments.dropLast) := by
  rw [parent?] at h
  split at h
  · cases h
  · next spoken hspoken =>
    obtain rfl := Option.some.inj h
    have hfront := withoutSilentTail_isPrefix p.isAbsolute p.segments
    have hlead : withoutSilentTail p.isAbsolute
        (withoutSilentTail p.isAbsolute p.segments).dropLast <+: p.segments.dropLast := by
      exact (withoutSilentTail_isPrefix _ _).trans (dropLast_isPrefix_dropLast hfront)
    generalize withoutSilentTail p.isAbsolute
        (withoutSilentTail p.isAbsolute p.segments).dropLast = lead at hlead ⊢
    have hpart := hlead.trans (List.dropLast_prefix _)
    have hspells := segments_ofSegments p.isAbsolute
      (fun s hs => notMem_of_mem_segments (hpart.subset hs)) ?_
    · refine ⟨hspells.1, ?_⟩
      rw [hspells.2]
      split
      · exact .inl rfl
      · exact .inr hlead
    · intro habsolute hhead
      obtain ⟨rest, hrest⟩ := List.head?_eq_some_iff.mp hhead
      have hchars : p.chars ≠ [] := by
        intro hnil
        have hsegments : p.segments = [[]] := by simp [Path.segments, habsolute, hnil, splitOn]
        rw [hsegments, hrest] at hlead
        simp at hlead
      apply head?_segments habsolute hchars
      obtain ⟨tail, htail⟩ := hpart
      rw [← htail, hrest]
      rfl

/-- A path is the first of its ancestors, and those of its parent follow. -/
theorem ancestors_go_succ (fuel : Nat) (p : Path) :
    ancestors.go (fuel + 1) p = match p.parent? with
      | some parent => p :: ancestors.go fuel parent
      | none => [p] := rfl

/-- What holds of an ancestor of a path, and of a path when it holds of its parent, holds of the
path. -/
theorem ancestor_induction {motive : Path → Prop} {p q : Path} (hq : q ∈ p.ancestors)
    (self : motive q)
    (step : ∀ p parent : Path, p.parent? = some parent → motive parent → motive p) : motive p := by
  rw [ancestors] at hq
  generalize p.segments.length = fuel at hq
  induction fuel generalizing p with
  | zero =>
    obtain rfl := List.mem_singleton.mp hq
    exact self
  | succ fuel ih =>
    rw [ancestors_go_succ] at hq
    split at hq
    · next parent hparent =>
      rcases List.mem_cons.mp hq with rfl | hq
      · exact self
      · exact step p parent hparent (ih hq)
    · obtain rfl := List.mem_singleton.mp hq
      exact self

namespace Avoids

variable {here r : Route} {p parent : Path}

theorem routeFrom_self (h : p.Avoids here r) : p.routeFrom here ≠ r :=
  h _ List.prefix_rfl

theorem of_parent? (h : ∀ segments, segments <+: p.segments.dropLast →
      segments.foldl stepRoute (p.originOf here) ≠ r)
    (hparent : p.parent? = some parent) : parent.Avoids here r := by
  obtain ⟨habsolute, hsegments⟩ := segments_parent? hparent
  intro segments hfront
  rw [originOf, habsolute, ← originOf]
  rcases hsegments with hroot | hlead
  · rw [hroot] at hfront
    have hempty : segments.foldl stepRoute (p.originOf here) = p.originOf here := by
      rcases List.prefix_cons_iff.mp hfront with rfl | ⟨rest, rfl, hrest⟩
      · rfl
      · rw [List.prefix_nil.mp hrest]
        rfl
    rw [hempty]
    exact h [] List.nil_prefix
  · exact h _ (hfront.trans hlead)

theorem to_parent (h : p.Avoids here r) (hparent : p.parent? = some parent) :
    parent.Avoids here r :=
  of_parent? (fun _ hsegments => h _ (hsegments.trans (List.dropLast_prefix _))) hparent

/-- A path and its parents do not lead to a route that the way to the path does not pass. -/
theorem routeFrom_ne (h : p.Avoids here r) {q : Path} (hq : q ∈ p.ancestors) :
    q.routeFrom here ≠ r := by
  have hroute : p.Avoids here r → q.routeFrom here ≠ r :=
    ancestor_induction (motive := fun p => p.Avoids here r → q.routeFrom here ≠ r) hq
      routeFrom_self fun _ _ hparent ih h => ih (h.to_parent hparent)
  exact hroute h

end Avoids

theorem length_stepRoute_le (r : Route) (segment : List Char) :
    (stepRoute r segment).length ≤ r.length + 1 := by
  rw [stepRoute]
  split
  · rw [List.length_dropLast]
    omega
  split
  · omega
  · simp

theorem length_stepRoute (r : Route) {segment : List Char} (hsegment : segment ≠ []) :
    (stepRoute r segment).length =
      if segment = ['.', '.'] then r.length - 1
      else if segment = ['.'] then r.length
      else r.length + 1 := by
  by_cases hparent : segment = ['.', '.']
  · rw [stepRoute, if_pos (by simp [hparent]), if_pos hparent, List.length_dropLast]
  rw [stepRoute, if_neg (by simpa using hparent), if_neg hparent]
  by_cases hdot : segment = ['.']
  · rw [if_pos (by simp [isSilent, hdot]), if_pos hdot]
  · rw [if_neg (by simp [isSilent, hsegment, hdot]), if_neg hdot, List.length_append,
      List.length_singleton]

/-- Below the root, different segments lead to different routes. -/
theorem stepRoute_inj {r : Route} (hr : r ≠ []) {a b : List Char} (ha : a ≠ []) (hb : b ≠ []) :
    stepRoute r a = stepRoute r b ↔ a = b := by
  refine ⟨fun heq => ?_, fun hab => by rw [hab]⟩
  have hpos : 0 < r.length := List.length_pos_of_ne_nil hr
  have hlength := congrArg List.length heq
  rw [length_stepRoute r ha, length_stepRoute r hb] at hlength
  by_cases haparent : a = ['.', '.']
  · by_cases hbparent : b = ['.', '.']
    · rw [haparent, hbparent]
    · rw [if_pos haparent, if_neg hbparent] at hlength
      split at hlength <;> omega
  rw [if_neg haparent] at hlength
  by_cases hbparent : b = ['.', '.']
  · rw [if_pos hbparent] at hlength
    split at hlength <;> omega
  rw [if_neg hbparent] at hlength
  by_cases hadot : a = ['.']
  · by_cases hbdot : b = ['.']
    · rw [hadot, hbdot]
    · rw [if_pos hadot, if_neg hbdot] at hlength
      omega
  by_cases hbdot : b = ['.']
  · rw [if_neg hadot, if_pos hbdot] at hlength
    omega
  rw [stepRoute, stepRoute, if_neg (by simpa using haparent), if_neg (by simp [isSilent, ha, hadot]),
    if_neg (by simpa using hbparent), if_neg (by simp [isSilent, hb, hbdot])] at heq
  exact String.ofList_injective (List.singleton_inj.mp (List.append_cancel_left heq))

/-- The text whose parts are the segments of a path, whatever is written behind it. -/
theorem exists_segments_append {p : Path} (hchars : p.chars ≠ []) :
    ∃ cs, p.segments = splitOn '/' cs ∧
      (p.chars.getLast? = some '/' → cs = [] ∨ ∃ body, cs = body ++ ['/']) ∧
      ∀ text, (ofList (p.chars ++ text)).segments = splitOn '/' (cs ++ text) := by
  obtain ⟨c, rest, hcs⟩ := List.exists_cons_of_ne_nil hchars
  cases habsolute : p.isAbsolute with
  | true =>
    refine ⟨rest, by rw [segments, if_pos habsolute, hcs]; rfl, fun hlast => ?_, fun text => ?_⟩
    · rw [hcs] at hlast
      cases rest with
      | nil => exact .inl rfl
      | cons d ds => exact .inr (List.getLast?_eq_some_iff.mp (by simpa using hlast))
    · rw [segments, if_pos ((isAbsolute_append hchars text).trans habsolute), chars_ofList, hcs]
      rfl
  | false =>
    refine ⟨p.chars, by rw [segments, habsolute]; rfl, fun hlast => ?_, fun text => ?_⟩
    · exact .inr (List.getLast?_eq_some_iff.mp hlast)
    · rw [segments, (isAbsolute_append hchars text).trans habsolute, chars_ofList]
      rfl

theorem splitOn_of_notMem {separator : Char} {cs : List Char} (h : separator ∉ cs) :
    splitOn separator cs = [cs] := by
  have hsplit : List.splitOn separator ([separator].intercalate [cs]) = [cs] :=
    List.splitOn_intercalate separator (by simpa using h) (by simp)
  rw [splitOn_eq]
  simpa using hsplit

theorem isAbsolute_of_notMem {name : String} (h : '/' ∉ name.toList) :
    (Path.mk name).isAbsolute = false := by
  rw [isAbsolute, chars]
  cases hcs : name.toList with
  | nil => rfl
  | cons c cs =>
    have hc : c ≠ '/' := by
      rintro rfl
      exact h (hcs ▸ List.mem_cons_self)
    simpa using hc

/-- A name without slashes leads one step on. -/
theorem routeFrom_of_notMem {name : String} (h : '/' ∉ name.toList) (here : Route) :
    (Path.mk name).routeFrom here = stepRoute here name.toList := by
  have habsolute := isAbsolute_of_notMem h
  rw [routeFrom, segments, habsolute, if_neg Bool.false_ne_true, if_neg Bool.false_ne_true, chars,
    splitOn_of_notMem h]
  rfl

theorem routeFrom_entry_of_notMem {name : String} (h : '/' ∉ name.toList) (here : Route)
    (p : Path) : (p.entry name).routeFrom here = stepRoute (p.routeFrom here) name.toList := by
  rw [entry, routeFrom_join (isAbsolute_of_notMem h), routeFrom_of_notMem h]

/-- A name behind a path adds one segment to those that lead to the path. -/
theorem segments_entry {name : String} (hname : '/' ∉ name.toList) (p : Path) :
    ∃ lead, (p.entry name).segments = lead ++ [name.toList] ∧ lead <+: p.segments ∧
      ∀ here, (p.entry name).originOf here = p.originOf here ∧
        lead.foldl stepRoute (p.originOf here) = p.routeFrom here := by
  have habsolute := isAbsolute_of_notMem hname
  rw [entry, join_eq habsolute]
  split
  · next hchars =>
    have hp : p.isAbsolute = false := by rw [isAbsolute, hchars]; rfl
    refine ⟨[], ?_, List.nil_prefix, fun here => ⟨?_, ?_⟩⟩
    · rw [segments, habsolute]
      exact splitOn_of_notMem hname
    · rw [originOf, originOf, habsolute, hp]
    · rw [routeFrom, segments, hp, hchars, originOf, hp]
      rfl
  · next hchars =>
    obtain ⟨cs, hsegments, hlast, happend⟩ := exists_segments_append hchars
    have horigin : ∀ here text, (ofList (p.chars ++ text)).originOf here = p.originOf here := by
      intro here text
      rw [originOf, isAbsolute_append hchars, originOf]
    have hroute : ∀ here, p.routeFrom here = p.segments.foldl stepRoute (p.originOf here) :=
      fun _ => rfl
    split
    · next hslash =>
      rcases hlast hslash with rfl | ⟨body, rfl⟩
      · refine ⟨[], ?_, List.nil_prefix, fun here => ⟨horigin here _, ?_⟩⟩
        · rw [happend]
          exact splitOn_of_notMem hname
        · rw [hroute, hsegments]
          rfl
      · rw [splitOn_append_cons] at hsegments
        refine ⟨splitOn '/' body, ?_, ⟨_, hsegments.symm⟩, fun here => ⟨horigin here _, ?_⟩⟩
        · rw [happend, List.append_assoc]
          exact (splitOn_append_cons '/' body _).trans (congrArg _ (splitOn_of_notMem hname))
        · rw [hroute, hsegments, List.foldl_append]
          rfl
    · refine ⟨p.segments, ?_, List.prefix_rfl, fun here => ⟨horigin here _, (hroute here).symm⟩⟩
      rw [happend, splitOn_append_cons, hsegments]
      exact congrArg _ (splitOn_of_notMem hname)

/-- A name behind a path leads on from where the path leads. -/
theorem Avoids.entry {here r : Route} {p : Path} (h : p.Avoids here r) {name : String}
    (hname : '/' ∉ name.toList) (hne : stepRoute (p.routeFrom here) name.toList ≠ r) :
    (p.entry name).Avoids here r := by
  obtain ⟨lead, hsegments, hlead, hroute⟩ := segments_entry hname p
  obtain ⟨horigin, hfold⟩ := hroute here
  intro segments hfront
  rw [hsegments, List.prefix_concat_iff] at hfront
  rw [horigin]
  rcases hfront with rfl | hfront
  · rw [List.foldl_append, hfold]
    exact hne
  · exact h _ (hfront.trans hlead)

/-- The parent of a name behind a path. -/
theorem Avoids.parent?_entry {here r : Route} {p parent : Path} (h : p.Avoids here r)
    {name : String} (hname : '/' ∉ name.toList) (hparent : (p.entry name).parent? = some parent) :
    parent.Avoids here r := by
  obtain ⟨lead, hsegments, hlead, hroute⟩ := segments_entry hname p
  refine .of_parent? (fun segments hfront => ?_) hparent
  rw [hsegments, List.dropLast_concat] at hfront
  rw [(hroute here).1]
  exact h _ (hfront.trans hlead)

end RepoAudit.Path
