import RepoAudit.Remedy.Command
import RepoAudit.Proofs.Ruby.Literal
import RepoAudit.Proofs.Text.Lines

/-!
# Guarded shell commands

The text that the remedy makes is accepted by its own check, and has no further change to make,
exactly when the text with its guard can be routed: no shell call and no percent literal that a
search finds holds the start of another one, and no line has an interpolation between two backticks
that quote no command found.

## Main definitions

- `HoldsGuard` — a text with the list of allowed commands and its check on lines of their own
- `Routable` — a text whose shell sites are all sent through the wrapper

## Main statements

- `firstSite?_withWrapper_route` — a text that can be routed is left without a site
- `holdsGuard_of_insertGuard?`, `holdsGuard_route` — the guard survives the routing
- `verify_transform_iff` — when the remedy meets its own check
-/

namespace RepoAudit.Remedy.Command

open RepoAudit.Text RepoAudit.Ruby

/-- A text whose shell sites are all sent through the wrapper. -/
structure Routable (content : List Char) : Prop where
  /-- No call starts inside a call that is found. -/
  calls : ¬ Overlaps shellCall (pieces shellCall content)
  /-- No interpolation stands between two backticks that quote no command found. -/
  quotes : ¬ EnclosesInput (unquoted (callsRouted content))
  /-- No literal starts inside a literal that is found. -/
  literals : ¬ Overlaps percentCommand
    (pieces percentCommand (quotesRouted (callsRouted content)))

/-! ## What is left after the routing -/

/-- What is written after a text to define the wrapper. -/
def wrapperTail (content : List Char) : List Char :=
  (if isTerminated content then [] else ['\n']) ++ '\n' :: wrapperSource

theorem withWrapper_eq (content : List Char) :
    withWrapper content = content ∨ withWrapper content = content ++ wrapperTail content := by
  rw [withWrapper, wrapperTail, List.append_assoc]
  split
  · exact .inl rfl
  · exact .inr rfl

theorem wrapperSource_eq : wrapperSource = ["def safe_execute(command)\n", "  require 'open3'\n",
    "  argv = command.to_s.split\n", "  raise ArgumentError, 'Invalid command' if argv.empty?\n",
    "  stdout, status = Open3.capture2(*argv)\n",
    "  raise \"Command failed: #\x7bargv.first\x7d\" unless status.success?\n", "  stdout\n",
    "end\n"].flatMap String.toList := by
  have h : ∀ a b c d e f g h : String, (a ++ b ++ c ++ d ++ e ++ f ++ g ++ h).toList =
      [a, b, c, d, e, f, g, h].flatMap String.toList := by
    intros
    simp only [String.toList_append, List.flatMap_cons, List.flatMap_nil, List.append_assoc,
      List.append_nil]
  exact h _ _ _ _ _ _ _ _

theorem wrapperTail_eq (content : List Char) :
    wrapperTail content = '\n' :: wrapperSource ∨
      wrapperTail content = '\n' :: '\n' :: wrapperSource := by
  rw [wrapperTail]
  split
  · exact .inl rfl
  · exact .inr rfl

/-- The source of the wrapper holds no call, no backtick and no percent literal. -/
theorem wrapperSource_plain : ('\n' :: '\n' :: wrapperSource).IsChain Call.NoBracket ∧
    backtick ∉ '\n' :: '\n' :: wrapperSource ∧ '%' ∉ '\n' :: '\n' :: wrapperSource := by
  rw [wrapperSource_eq]
  decide +kernel

theorem mem_wrapperTail {content : List Char} {c : Char} (h : c ∈ wrapperTail content) :
    c ∈ '\n' :: '\n' :: wrapperSource := by
  rcases wrapperTail_eq content with htail | htail <;> rw [htail] at h
  · exact List.mem_cons_of_mem _ h
  · exact h

theorem run_withWrapper (content : List Char) :
    Call.run .free (withWrapper content) = .opened ↔ Call.run .free content = .opened := by
  obtain ⟨hchain, -⟩ := wrapperSource_plain
  have htail : ∀ st, Call.run st (wrapperTail content) = .opened ↔ st = .opened := by
    intro st
    constructor
    · intro hrun
      by_contra hst
      have hnewline : ∀ st : Call.State, st ≠ .opened → st.step '\n' ≠ .opened := by
        intro st hst hopened
        rcases Call.State.step_eq_opened hopened with h | ⟨h, -⟩
        · exact hst h
        · cases h
      rcases wrapperTail_eq content with h | h
      · rw [h, Call.run_cons] at hrun
        exact Call.run_ne_opened hchain.tail (hnewline st hst) hrun
      · rw [h, Call.run_cons] at hrun
        exact Call.run_ne_opened hchain (hnewline st hst) hrun
    · rintro rfl
      exact Call.run_opened _
  rcases withWrapper_eq content with h | h <;> rw [h]
  rw [Call.run_append, htail]

theorem quote_run_withWrapper (content : List Char) :
    Quote.run .dead (withWrapper content) = .fed ↔ Quote.run .dead content = .fed := by
  have hquote : backtick ∉ wrapperTail content := fun h =>
    wrapperSource_plain.2.1 (mem_wrapperTail h)
  rcases withWrapper_eq content with h | h <;> rw [h]
  rw [Quote.run_append, Quote.run_eq_fed_of_notMem hquote]

/-- A percent literal does not go on after its line. -/
theorem opensPercent_append_newline {cs : List Char} (hcs : cs ≠ []) (rest : List Char) :
    OpensPercent (cs ++ '\n' :: rest) ↔ OpensPercent cs := by
  have hline : ∀ st, st = .fed ∨ Body.State.step ')' st '\n' = .dead := by
    intro st
    cases st <;> decide
  obtain ⟨c, cs, rfl⟩ := List.exists_cons_of_ne_nil hcs
  constructor
  · rintro ⟨tail, htext, hrun⟩
    obtain ⟨rfl, hx⟩ := List.cons.inj htext
    obtain ⟨cs, rfl, hbracket⟩ := (append_cons_eq_cons (c := 'x') (by decide)).mp hx
    obtain ⟨cs, rfl, rfl⟩ := (append_cons_eq_cons (c := '(') (by decide)).mp hbracket.symm
    refine ⟨cs, rfl, ?_⟩
    rw [Body.run_append, Body.run_cons] at hrun
    rcases hline (Body.run ')' .lead cs) with hfed | hdead
    · exact hfed
    · rw [hdead, Body.run_dead] at hrun
      cases hrun
  · rintro ⟨tail, htext, hrun⟩
    refine ⟨tail ++ '\n' :: rest, by rw [htext]; rfl, ?_⟩
    rw [Body.run_append, hrun, Body.run_fed]

theorem percentIn_newline (text rest : List Char) :
    PercentIn text ('\n' :: rest) ↔ PercentIn text [] := by
  constructor
  · rintro ⟨u, w, htext, hw, hopens⟩
    refine ⟨u, w, htext, hw, ?_⟩
    rw [List.append_nil]
    exact (opensPercent_append_newline hw rest).mp hopens
  · rintro ⟨u, w, htext, hw, hopens⟩
    refine ⟨u, w, htext, hw, (opensPercent_append_newline hw rest).mpr ?_⟩
    rwa [List.append_nil] at hopens

theorem percentIn_withWrapper (content : List Char) :
    PercentIn (withWrapper content) [] ↔ PercentIn content [] := by
  have htail : ¬ PercentIn (wrapperTail content) [] :=
    not_percentIn_of_notMem (fun h => wrapperSource_plain.2.2 (mem_wrapperTail h)) []
  obtain ⟨rest, hrest⟩ : ∃ rest, wrapperTail content = '\n' :: rest := by
    rcases wrapperTail_eq content with h | h <;> exact ⟨_, h⟩
  rcases withWrapper_eq content with h | h <;> rw [h]
  rw [percentIn_append, or_iff_left htail, List.append_nil, hrest, percentIn_newline]

theorem earlier_eq_none_iff {a b : Option Site} : earlier a b = none ↔ a = none ∧ b = none := by
  cases a with
  | none => simp [earlier]
  | some x =>
    cases b with
    | none => simp [earlier]
    | some y =>
      rw [earlier]
      split <;> simp

/-- A text has no first site when no kind of site occurs. -/
theorem firstSite?_eq_none_iff {content : List Char} :
    firstSite? content = none ↔ ¬ Occurs shellCall none content ∧
      ¬ Occurs backtickCommand none content ∧ ¬ Occurs percentCommand none content := by
  rw [firstSite?, earlier_eq_none_iff, earlier_eq_none_iff, firstCall?, firstCommand?, firstCommand?,
    Option.map_eq_none_iff, Option.map_eq_none_iff, Option.map_eq_none_iff, firstMatch_eq_none_iff,
    firstMatch_eq_none_iff, firstMatch_eq_none_iff, and_assoc]

/-- A text that can be routed is left without a site, and no other one is. -/
theorem firstSite?_withWrapper_route {content : List Char} :
    firstSite? (withWrapper (route content)) = none ↔ Routable content := by
  have hcalls : Occurs shellCall none (withWrapper (route content)) ↔
      Overlaps shellCall (pieces shellCall content) := by
    rw [Call.occurs_shellCall, run_withWrapper, route_eq, run_percentRouted, run_quotesRouted,
      run_callsRouted]
  have hquotes : Occurs backtickCommand none (withWrapper (route content)) ↔
      EnclosesInput (unquoted (callsRouted content)) := by
    rw [Quote.occurs_backtickCommand, quote_run_withWrapper, route_eq, Quote.run_percentRouted,
      Quote.run_quotesRouted, enclosesInput_iff, Quote.occurs_backtickCommand]
  have hliterals : Occurs percentCommand none (withWrapper (route content)) ↔
      Overlaps percentCommand (pieces percentCommand (quotesRouted (callsRouted content))) := by
    rw [occurs_percentCommand, percentIn_withWrapper, route_eq, ← occurs_percentCommand,
      occurs_percentRouted]
  rw [firstSite?_eq_none_iff, hcalls, hquotes, hliterals]
  exact ⟨fun h => ⟨h.1, h.2.1, h.2.2⟩, fun h => ⟨h.calls, h.quotes, h.literals⟩⟩

/-! ## The guard -/

/-- The lines of the guard up to the command that is checked, each with the blanks before it. -/
def guardLines (ind ind' : List Char) : List Char :=
  ind ++ allowList ++ (ind' ++ guardStart)

/-- A text with the list of allowed commands and its check on lines of their own. -/
def HoldsGuard (cs : List Char) : Prop :=
  ∃ before ind ind' after, cs = before ++ (guardLines ind ind' ++ after) ∧
    (∀ c ∈ ind, isBlank c = true) ∧ (∀ c ∈ ind', isBlank c = true) ∧
    (before = [] ∨ ind.head? = some '\n')

theorem HoldsGuard.contains {cs : List Char} (h : HoldsGuard cs) :
    contains cs allowList = true ∧ contains cs guardStart = true := by
  obtain ⟨before, ind, ind', after, rfl, -⟩ := h
  rw [contains_iff, contains_iff, guardLines]
  constructor
  · exact ⟨before ++ ind, ind' ++ guardStart ++ after, by simp⟩
  · exact ⟨before ++ ind ++ allowList ++ ind', after, by simp⟩

theorem HoldsGuard.append {cs : List Char} (h : HoldsGuard cs) (tail : List Char) :
    HoldsGuard (cs ++ tail) := by
  obtain ⟨before, ind, ind', after, rfl, h⟩ := h
  exact ⟨before, ind, ind', after ++ tail, by simp, h⟩

theorem isBlank_of_mem_indent {line : List Char} {c : Char} (h : c ∈ indent line) :
    isBlank c = true :=
  List.all_eq_true.mp List.all_takeWhile c h

theorem exists_guardSite_eq (lines : List Line) (index : Nat) :
    ∃ line, (guardSite lines index).2 = indent line := by
  rw [guardSite]
  split
  · exact ⟨_, rfl⟩
  · split
    · exact ⟨_, rfl⟩
    · exact ⟨_, rfl⟩

theorem insertGuard?_eq_some {content guarded : List Char} {site : Site}
    (h : insertGuard? content site = some guarded) :
    ∃ (lines : List Line) (terminated : Bool) (place : Nat) (line : Line) (input : List Char),
      guarded = joinLines (lines.take place ++ (indent line ++ allowList) ::
        (indent line ++ guardStart ++ input ++ [')']) :: lines.drop place) terminated := by
  unfold insertGuard? at h
  generalize splitLines content = split at h
  obtain ⟨lines, terminated⟩ := split
  dsimp only at h
  obtain ⟨input, -, hguarded⟩ := Option.map_eq_some_iff.mp h
  obtain ⟨line, hline⟩ := exists_guardSite_eq lines (min (lineIndex content site) (lines.length - 1))
  generalize guardSite lines (min (lineIndex content site) (lines.length - 1)) = place at hguarded hline
  obtain ⟨place, indentation⟩ := place
  obtain rfl : indentation = indent line := hline
  refine ⟨lines, terminated, place, line, input, ?_⟩
  rw [← hguarded, List.append_assoc]
  rfl

/-- The guard is put on lines of its own. -/
theorem holdsGuard_of_insertGuard? {content guarded : List Char} {site : Site}
    (h : insertGuard? content site = some guarded) : HoldsGuard guarded := by
  obtain ⟨lines, terminated, place, line, input, rfl⟩ := insertGuard?_eq_some h
  have hblank : ∀ c ∈ indent line, isBlank c = true := fun c => isBlank_of_mem_indent
  have hblank' : ∀ c ∈ '\n' :: indent line, isBlank c = true :=
    List.forall_mem_cons.mpr ⟨by decide, hblank⟩
  rw [joinLines_append _ (List.cons_ne_nil _ _), joinLines_cons_cons]
  obtain ⟨after, hafter⟩ := exists_joinLines_cons (indent line ++ guardStart ++ input ++ [')'])
    (lines.drop place) terminated
  rw [hafter]
  rcases flatMap_terminate (lines.take place) with hnil | ⟨lead, hlead⟩
  · rw [hnil]
    exact ⟨[], indent line, '\n' :: indent line, input ++ [')'] ++ after, by simp [guardLines],
      hblank, hblank', .inl rfl⟩
  · rw [hlead]
    exact ⟨lead, '\n' :: indent line, '\n' :: indent line, input ++ [')'] ++ after,
      by simp [guardLines], hblank', hblank', .inr rfl⟩

/-- A command that is found lies on one line and starts with its mark, so it meets no line of the
guard. -/
theorem holdsGuard_replaceMatches {mark close : Char} {opening cs : List Char}
    (hopening : '\n' ∉ mark :: opening) (hclose : '\n' ≠ close) (hblank : isBlank mark = false)
    (hlist : mark ∉ allowList) (hcheck : mark ∉ guardStart) (h : HoldsGuard cs)
    (f : List Char → List Char) :
    HoldsGuard (replaceMatches (command (mark :: opening) close) f cs) := by
  obtain ⟨before, ind, ind', after, rfl, hind, hind', hline⟩ := h
  have hfits : (command (mark :: opening) close).Fits := fits_command _ _
  have hinside : ∀ b v body n, v ≠ [] → v <:+ before →
      command (mark :: opening) close b (v ++ (guardLines ind ind' ++ after)) = some (body, n) →
        n ≤ v.length := by
    rintro b v body n hv ⟨lead, rfl⟩ hmatch
    obtain ⟨hbody, rfl, rest, htext⟩ := command_eq_some hmatch
    have hne : lead ++ v ≠ [] := List.append_ne_nil_of_right_ne_nil lead hv
    obtain ⟨ind, rfl⟩ := List.head?_eq_some_iff.mp (hline.resolve_left hne)
    rcases append_eq_append_cases htext with ⟨w, hw, hrest⟩ | ⟨w, -, hvw, -⟩
    · by_cases hnil : w = []
      · rw [hw, hnil, List.append_nil]
      · -- The match would hold the newline before the guard.
        obtain ⟨c, w, rfl⟩ := List.exists_cons_of_ne_nil hnil
        obtain ⟨rfl, -⟩ := List.cons.inj hrest
        have hmem : '\n' ∈ mark :: opening ++ (body ++ [close]) := by simp [hw]
        simp only [List.mem_append, List.mem_singleton, hopening, hbody, hclose, or_self] at hmem
    · rw [hvw]
      simp only [List.length_append]
      omega
  have hnone : ∀ b v, v ≠ [] → v <:+ guardLines ind ind' →
      command (mark :: opening) close b (v ++ after) = none := by
    rintro b v hv ⟨lead, hlead⟩
    obtain ⟨c, v, rfl⟩ := List.exists_cons_of_ne_nil hv
    rw [← Option.not_isSome_iff_eq_none]
    intro hmatch
    obtain ⟨⟨body, n⟩, hsome⟩ := Option.isSome_iff_exists.mp hmatch
    obtain ⟨-, -, rest, htext⟩ := command_eq_some hsome
    obtain ⟨rfl, -⟩ := List.cons.inj htext
    have hmem : c ∈ guardLines ind ind' := by simp [← hlead]
    have hmark : ∀ ind : List Char, (∀ c ∈ ind, isBlank c = true) → c ∉ ind := by
      intro ind hind hc
      rw [hind c hc] at hblank
      cases hblank
    simp only [guardLines, List.mem_append, hmark ind hind, hmark ind' hind', hlist, hcheck,
      or_self] at hmem
  obtain ⟨before', ps, himage, hnil, -⟩ := Cut.imageOf_keeps f (hfits.cut _) hinside hnone
  rw [replaceMatches_eq]
  exact ⟨before', ind, ind', imageOf f ps, himage, hind, hind', hline.imp_left hnil⟩

theorem holdsGuard_quotesRouted {cs : List Char} (h : HoldsGuard cs) :
    HoldsGuard (quotesRouted cs) :=
  holdsGuard_replaceMatches (by decide) (by decide) (by decide) (by decide) (by decide) h _

theorem holdsGuard_percentRouted {cs : List Char} (h : HoldsGuard cs) :
    HoldsGuard (percentRouted cs) :=
  holdsGuard_replaceMatches (by decide) (by decide) (by decide) (by decide) (by decide) h _

/-- The lines of the guard up to the bracket of its check. -/
def guardWords (ind ind' : List Char) : List Char :=
  ind ++ allowList ++ (ind' ++ guardStart.dropLast)

theorem guardLines_eq (ind ind' : List Char) :
    guardLines ind ind' = guardWords ind ind' ++ ['('] := by
  have hstart : guardStart = guardStart.dropLast ++ ['('] := by decide
  rw [guardLines, guardWords, hstart]
  simp

theorem isChain_blanks {ind cs : List Char} (hind : ∀ c ∈ ind, isBlank c = true)
    (h : cs.IsChain NoName) : (ind ++ cs).IsChain NoName := by
  induction ind with
  | nil => exact h
  | cons c ind ih =>
    obtain ⟨hc, hind⟩ := List.forall_mem_cons.mp hind
    have hleads := leads_of_isBlank hc
    rw [List.cons_append, List.isChain_cons]
    refine ⟨fun d _ => ⟨fun hs => ?_, fun he => ?_⟩, ih hind⟩
    · exact absurd hs (hleads.ne (by decide))
    · exact absurd he (hleads.ne (by decide))

theorem isChain_guardWords {ind ind' : List Char} (hind : ∀ c ∈ ind, isBlank c = true)
    (hind' : ∀ c ∈ ind', isBlank c = true) :
    (guardWords ind ind' ++ ['(']).IsChain NoName := by
  have hlist : allowList.IsChain NoName := by decide
  have hlast : allowList.getLast? = some ']' := by decide
  have hcheck : (guardStart.dropLast ++ ['(']).IsChain NoName := by decide +kernel
  rw [guardWords, List.append_assoc, List.append_assoc, List.append_assoc]
  refine isChain_blanks hind (List.isChain_append.mpr ⟨hlist, isChain_blanks hind' hcheck, ?_⟩)
  intro c hc d _
  rw [hlast] at hc
  obtain rfl := Option.some.inj hc
  exact ⟨fun h => absurd h (by decide), fun h => absurd h (by decide)⟩

section

variable {ind ind' before after : List Char}

/-- A call that is found above a guard ends above it. -/
theorem le_length_of_shellCall_above (hind : ∀ c ∈ ind, isBlank c = true) {b : Option Char}
    {v : List Char} {call : Call} {n : Nat} (hv : v ≠ [])
    (hmatch : shellCall b (v ++ (guardWords ind ind' ++ '(' :: after)) = some (call, n)) :
    n ≤ v.length := by
  by_contra hn
  obtain ⟨inner, tail, hinner, hletters⟩ := exists_of_shellCall hmatch hv (by omega)
  -- the guard starts with a letter that no name of a call has, ahead of its first bracket
  have hfirst : allowList = 'a' :: allowList.tail := by decide
  have hbracket : '(' ∉ ind := fun h => absurd (hind _ h) (by decide)
  rw [guardWords, hfirst] at hinner
  simp only [List.append_assoc, List.cons_append] at hinner
  rcases List.append_eq_append_iff.mp hinner with ⟨w, hw, hrest⟩ | ⟨w, hw, hrest⟩
  · cases w with
    | nil => cases hrest
    | cons c w =>
      obtain ⟨rfl, -⟩ := List.cons.inj hrest
      rcases hletters 'a' (by simp [hw]) with h | h
      · exact absurd h (by decide)
      · exact absurd h (by decide)
  · cases w with
    | nil => cases hrest
    | cons c w =>
      obtain ⟨rfl, -⟩ := List.cons.inj hrest
      exact hbracket (by simp [hw])

/-- No call starts in the words of a guard. -/
theorem shellCall_guardWords (hind : ∀ c ∈ ind, isBlank c = true)
    (hind' : ∀ c ∈ ind', isBlank c = true) (b : Option Char) {v : List Char} (hv : v ≠ [])
    (hsuffix : v <:+ guardWords ind ind') : shellCall b (v ++ '(' :: after) = none := by
  have hchain := isChain_guardWords hind hind'
  obtain ⟨c, v, rfl⟩ := List.exists_cons_of_ne_nil hv
  have hhere : ¬ OpensCall (c :: v ++ '(' :: after) :=
    not_opensCall_of_isChain (hchain.suffix (List.suffix_append_self_iff.mpr hsuffix))
  have hlater : ¬ OpensCall (v ++ '(' :: after) := by
    refine not_opensCall_of_isChain (hchain.suffix (List.suffix_append_self_iff.mpr ?_))
    exact (List.suffix_cons c v).trans hsuffix
  rw [List.cons_append] at hhere ⊢
  rw [← Option.not_isSome_iff_eq_none]
  cases b with
  | none =>
    rw [Call.isSome_shellCall_start]
    exact fun h => h.elim hhere fun h => hlater h.2
  | some b =>
    rw [Call.isSome_shellCall]
    exact fun h => hlater h.2

theorem append_guardWords_ne_nil : before ++ guardWords ind ind' ≠ [] := by
  have hlist : 0 < allowList.length := by decide
  refine List.ne_nil_of_length_pos ?_
  simp only [guardWords, List.length_append]
  omega

end

theorem holdsGuard_callsRouted {cs : List Char} (h : HoldsGuard cs) :
    HoldsGuard (callsRouted cs) := by
  obtain ⟨before, ind, ind', after, rfl, hind, hind', hline⟩ := h
  have hcut := Call.fits_shellCall.cut (before ++ (guardWords ind ind' ++ '(' :: after))
  obtain ⟨before', ps, himage, hnil, hrest⟩ := hcut.imageOf_keeps renamed
    (fun _ _ _ _ hv _ hmatch => le_length_of_shellCall_above hind hv hmatch)
    fun b _ hv hsuffix => shellCall_guardWords hind hind' b hv hsuffix
  rw [lastAfter_of_ne_nil append_guardWords_ne_nil,
    List.getLast?_eq_some_getLast append_guardWords_ne_nil] at hrest
  obtain ⟨after', hafter⟩ := head?_imageOf hrest
  refine ⟨before', ind, ind', after', ?_, hind, hind', hline.imp_left hnil⟩
  rw [guardLines_eq, List.append_assoc, List.singleton_append, callsRouted, replaceMatches_eq,
    himage, hafter, List.append_assoc, List.singleton_append]

theorem holdsGuard_route {cs : List Char} (h : HoldsGuard cs) : HoldsGuard (route cs) :=
  holdsGuard_percentRouted (holdsGuard_quotesRouted (holdsGuard_callsRouted h))

theorem verify_eq_passed_iff {content : List Char} (h : HoldsGuard content) :
    verify content = .passed ↔ firstSite? content = none := by
  obtain ⟨hlist, hcheck⟩ := h.contains
  rw [verify, hlist, hcheck]
  simp only [Bool.not_true, Bool.false_eq_true, if_false]
  cases firstSite? content <;> simp

theorem transform_eq_none_of_firstSite? {content : List Char} (h : firstSite? content = none) :
    transform content = none := by
  rw [transform, h]

/-- A change puts the guard of the first site into the text, routes the text and defines the
wrapper. -/
theorem exists_of_transform {content text : List Char} (hlist : contains content allowList = false)
    (h : transform content = some text) :
    ∃ site guarded, firstSite? content = some site ∧ insertGuard? content site = some guarded ∧
      text = withWrapper (route guarded) := by
  rw [transform] at h
  split at h
  · cases h
  · rename_i site hsite
    rw [hlist] at h
    simp only [Bool.false_eq_true, if_false] at h
    split at h
    · cases h
    · rename_i guarded hguarded
      split at h
      · cases h
      · exact ⟨site, guarded, hsite, hguarded, (Option.some.inj h).symm⟩

/-- What the remedy makes of a text is accepted and has nothing left to change exactly when the
text with its guard can be routed. -/
theorem accepted_iff_routable {content text : List Char}
    (hlist : contains content allowList = false) (h : transform content = some text) :
    ∃ site guarded, firstSite? content = some site ∧ insertGuard? content site = some guarded ∧
      text = withWrapper (route guarded) ∧
      (verify text = .passed ∧ transform text = none ↔ Routable guarded) := by
  obtain ⟨site, guarded, hsite, hguarded, rfl⟩ := exists_of_transform hlist h
  refine ⟨site, guarded, hsite, hguarded, rfl, ?_⟩
  have hguard : HoldsGuard (withWrapper (route guarded)) := by
    have hroute := holdsGuard_route (holdsGuard_of_insertGuard? hguarded)
    rcases withWrapper_eq (route guarded) with heq | heq <;> rw [heq]
    · exact hroute
    · exact hroute.append _
  rw [verify_eq_passed_iff hguard, ← firstSite?_withWrapper_route]
  exact ⟨fun h => h.1, fun h => ⟨h, transform_eq_none_of_firstSite? h⟩⟩

/-- A method that runs its parameter in a call and between backticks, after a wrapper. -/
def plainSites : List Char :=
  ["def safe_execute(c)\n", "end\n", "def run(cmd)\n", "  system(cmd)\n",
    "  \x60ls #\x7bcmd\x7d\x60\n", "end\n"].flatMap String.toList

/-- The method with its sites guarded and wrapped. -/
def plainSitesRouted : List Char :=
  ["def safe_execute(c)\n", "end\n", "def run(cmd)\n",
    "  allowed_commands = ['update', 'check', 'create']\n",
    "  raise ArgumentError, 'Invalid command' unless allowed_commands.include?(cmd)\n",
    "  safe_execute(cmd)\n", "  safe_execute(\"ls #\x7bcmd\x7d\")\n",
    "end\n"].flatMap String.toList

theorem accepted_plainSites :
    contains plainSites allowList = false ∧ transform plainSites = some plainSitesRouted ∧
      ∃ site guarded, firstSite? plainSites = some site ∧
        insertGuard? plainSites site = some guarded ∧
        plainSitesRouted = withWrapper (route guarded) ∧
        (verify plainSitesRouted = .passed ∧ transform plainSitesRouted = none ↔
          Routable guarded) := by
  have hlist : contains plainSites allowList = false := by decide +kernel
  have htransform : transform plainSites = some plainSitesRouted := by decide +kernel
  exact ⟨hlist, htransform, accepted_iff_routable hlist htransform⟩

/-- A method with one call directly inside another one, after a wrapper. -/
def nestedCalls : List Char :=
  ["def safe_execute(c)\n", "end\n", "def run(cmd)\n", "  exec(system(cmd))\n",
    "end\n"].flatMap String.toList

/-- The method with its outer call sent through the wrapper. -/
def nestedCallsRouted : List Char :=
  ["def safe_execute(c)\n", "end\n", "def run(cmd)\n",
    "  allowed_commands = ['update', 'check', 'create']\n",
    "  raise ArgumentError, 'Invalid command' unless allowed_commands.include?(safe_execute(cmd))\n",
    "  safe_execute(system(cmd))\n", "end\n"].flatMap String.toList

/-- The call inside another one is left, and the text is refused. -/
theorem refused_nestedCalls :
    contains nestedCalls allowList = false ∧ transform nestedCalls = some nestedCallsRouted ∧
      verify nestedCallsRouted = .failed "line 6 still executes a shell command directly" := by
  refine ⟨?_, ?_, ?_⟩
  · decide +kernel
  · decide +kernel
  · decide +kernel

end RepoAudit.Remedy.Command
