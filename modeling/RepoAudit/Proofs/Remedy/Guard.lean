import RepoAudit.Proofs.Ruby.Parameters
import RepoAudit.Remedy.Command

/-!
# Where the guard stands

The guard of a site in a method is inserted between the lines of the text, which stay as they are.
It stands below the method line and above the line of the site. Since the parameter list of the
method is not looked at, the guard stands behind it only if the method line closes it: a list that
goes on below is cut in two.

## Main definitions

- `siteLine` — the line that a site is taken to stand on

## Main statements

- `insertGuard?_within_method` — what the text with its guard has of the original one
-/

namespace RepoAudit.Text

/-- Cut at its newlines and terminated line by line, a text is terminated. -/
theorem flatMap_splitOn (cs : List Char) :
    (splitOn '\n' cs).flatMap (· ++ ['\n']) = cs ++ ['\n'] := by
  induction cs with
  | nil => rfl
  | cons c cs ih =>
    rw [splitOn]
    split
    · next hc => rw [List.flatMap_cons, ih, hc]; rfl
    · obtain ⟨part, parts, hparts⟩ := List.exists_cons_of_ne_nil (splitOn_ne_nil '\n' cs)
      rw [hparts, List.flatMap_cons] at ih
      rw [hparts, consFirst, List.flatMap_cons, List.cons_append, List.cons_append, ih]
      rfl

end RepoAudit.Text

namespace RepoAudit.Remedy.Command

open RepoAudit.Text RepoAudit.Ruby

/-- The line that a site is taken to stand on. -/
def siteLine (content : List Char) (site : Site) : Nat :=
  min (lineIndex content site) ((splitLines content).1.length - 1)

/-- The lines of a guard; an input that goes over several lines makes more than two. -/
def guardBlock (indentation input : List Char) : List Line :=
  (indentation ++ allowList) :: splitOn '\n' (indentation ++ guardStart ++ input ++ [')'])

theorem notMem_of_mem_guardBlock {indentation input line : List Char} (hindent : '\n' ∉ indentation)
    (h : line ∈ guardBlock indentation input) : '\n' ∉ line := by
  rcases List.mem_cons.mp h with rfl | hmem
  · exact List.not_mem_append hindent (by decide)
  · exact notMem_of_mem_splitOn hmem

theorem joinLines_guardBlock (indentation input : List Char) (above : List Line) {below : List Line}
    (h : below ≠ []) (terminated : Bool) :
    joinLines (above ++ guardBlock indentation input ++ below) terminated =
      joinLines (above ++ [indentation ++ allowList,
        indentation ++ guardStart ++ input ++ [')']] ++ below) terminated := by
  rw [joinLines_append _ h, joinLines_append _ h, List.flatMap_append, List.flatMap_append,
    guardBlock, List.flatMap_cons, List.flatMap_cons, List.flatMap_singleton, flatMap_splitOn]

theorem drop_ne_nil {lines : List Line} {place : Nat} (h : place < lines.length) :
    lines.drop place ≠ [] := by
  rw [ne_eq, List.drop_eq_nil_iff]
  omega

/-- The text with a guard consists of the lines above it, its block, and the lines below it. -/
theorem exists_joinLines_of_insertGuard? {content guarded : List Char} {site : Site}
    (h : insertGuard? content site = some guarded) {place : Nat} {indentation : List Char}
    (hsite : guardSite (splitLines content).1 (siteLine content site) = (place, indentation))
    (hplace : place < (splitLines content).1.length) :
    ∃ input, guarded =
      joinLines ((splitLines content).1.take place ++ guardBlock indentation input ++
        (splitLines content).1.drop place) (splitLines content).2 := by
  rw [siteLine] at hsite
  unfold insertGuard? at h
  generalize splitLines content = split at h hsite hplace ⊢
  obtain ⟨lines, terminated⟩ := split
  dsimp only at h hsite hplace ⊢
  obtain ⟨input, -, hguarded⟩ := Option.map_eq_some_iff.mp h
  rw [hsite] at hguarded
  exact ⟨input, by rw [joinLines_guardBlock _ _ _ (drop_ne_nil hplace), hguarded]⟩

/-- Lines inserted above some line of a text are read back with the lines of the text. -/
theorem splitLines_insert {content : List Char} {block : List Line} {place : Nat}
    (hcontent : content ≠ []) (hplace : place < (splitLines content).1.length)
    (hblock : ∀ line ∈ block, '\n' ∉ line) :
    splitLines (joinLines ((splitLines content).1.take place ++ block ++
      (splitLines content).1.drop place) (splitLines content).2) =
        ((splitLines content).1.take place ++ block ++ (splitLines content).1.drop place,
          (splitLines content).2) := by
  have hbelow := drop_ne_nil hplace
  have hlines : ∀ line ∈ (splitLines content).1, '\n' ∉ line := fun _ => notMem_of_mem_splitLines
  refine splitLines_joinLines (by simp [hbelow]) ?_ fun hunterminated => ?_
  · simp only [List.forall_mem_append]
    exact ⟨⟨fun line h => hlines line (List.mem_of_mem_take h), hblock⟩,
      fun line h => hlines line (List.mem_of_mem_drop h)⟩
  · have hlast := getLast?_splitLines hcontent hunterminated
    rw [List.getLast?_eq_some_getLast (splitLines_ne_nil content)] at hlast
    rw [List.getLast?_append, List.getLast?_drop, if_neg (by omega),
      List.getLast?_eq_some_getLast (splitLines_ne_nil content)]
    exact hlast

/-- The guard of a site in a method stands below the method line and not below the line of the
site, its lines next to each other, and every line of the text is kept in its order. Wherever the
parameter list of the method is closed, the guard stands behind it exactly if the method line itself
closes it. -/
theorem insertGuard?_within_method {content guarded : List Char} {site : Site} {d : Nat}
    (h : insertGuard? content site = some guarded)
    (hmethod : enclosingDef? (splitLines content).1 (siteLine content site) = some d) :
    ∃ place indentation input, d < place ∧ place ≤ siteLine content site ∧
      splitLines guarded = ((splitLines content).1.take place ++ guardBlock indentation input ++
        (splitLines content).1.drop place, (splitLines content).2) ∧
      ∀ e, ClosesAt (splitLines content).1 d e → (e < place ↔ e = d) := by
  obtain ⟨hbelow, habove, hblank, k, hindent⟩ := guardSite_of_enclosingDef? hmethod
  generalize hsite : guardSite (splitLines content).1 (siteLine content site) = found at *
  obtain ⟨place, indentation⟩ := found
  dsimp only at hbelow habove hblank hindent
  have hlength : siteLine content site ≤ (splitLines content).1.length - 1 := Nat.min_le_right _ _
  -- The one line of an empty text has no method above it.
  have hcontent : content ≠ [] := by
    rintro rfl
    have hone : (splitLines []).1.length = 1 := rfl
    omega
  have hplace : place < (splitLines content).1.length := by omega
  have hnewline : '\n' ∉ indentation := by
    intro hmem
    rw [hindent] at hmem
    have hline : '\n' ∈ (splitLines content).1.getD k [] := (List.takeWhile_prefix _).subset hmem
    by_cases hk : k < (splitLines content).1.length
    · rw [List.getD_eq_getElem _ _ hk] at hline
      exact notMem_of_mem_splitLines (List.getElem_mem hk) hline
    · rw [List.getD_eq_default _ _ (by omega)] at hline
      cases hline
  obtain ⟨input, rfl⟩ := exists_joinLines_of_insertGuard? h hsite hplace
  exact ⟨place, indentation, input, hbelow, habove,
    splitLines_insert hcontent hplace fun line => notMem_of_mem_guardBlock hnewline,
    fun e he => he.lt_iff hbelow hblank⟩

/-- A method with its parameters on the method line, and a shell call in it. -/
def shortSignature : List Char :=
  ["def run(cmd, out = (1))\n", "\n", "  system(cmd)\n", "end\n"].flatMap String.toList

theorem insertGuard?_within_shortSignature :
    ∃ site guarded, firstSite? shortSignature = some site ∧
      insertGuard? shortSignature site = some guarded ∧
      enclosingDef? (splitLines shortSignature).1 (siteLine shortSignature site) = some 0 ∧
      ClosesAt (splitLines shortSignature).1 0 0 ∧
      ∃ place, 0 < place ∧ place ≤ 2 ∧
        (splitLines shortSignature).1.take place <+: (splitLines guarded).1 := by
  have hguard : insertGuard? shortSignature ⟨27, some "cmd".toList⟩ = some
      (["def run(cmd, out = (1))\n", "  allowed_commands = ['update', 'check', 'create']\n",
        "  raise ArgumentError, 'Invalid command' unless allowed_commands.include?(cmd)\n", "\n",
        "  system(cmd)\n", "end\n"].flatMap String.toList) := by
    decide +kernel
  have hmethod : enclosingDef? (splitLines shortSignature).1
      (siteLine shortSignature ⟨27, some "cmd".toList⟩) = some 0 := by
    decide +kernel
  have hline : siteLine shortSignature ⟨27, some "cmd".toList⟩ = 2 := by decide +kernel
  have hcloses : ClosesAt (splitLines shortSignature).1 0 0 :=
    ⟨"cmd, out = (1))".toList, 0, by decide +kernel, rfl, by decide, by simp⟩
  obtain ⟨place, indentation, input, -, habove, hsplit, hbehind⟩ :=
    insertGuard?_within_method hguard hmethod
  refine ⟨_, _, by decide +kernel, hguard, hmethod, hcloses, place, (hbehind 0 hcloses).mpr rfl,
    hline ▸ habove, ?_⟩
  rw [hsplit, List.append_assoc]
  exact List.prefix_append _ _

/-- A method whose parameters are on lines of their own, and a shell call in it. -/
def longSignature : List Char :=
  ["def run(\n", "    cmd\n", "  )\n", "  system(cmd)\n", "end\n"].flatMap String.toList

/-- The guard stands between the bracket that opens the parameter list and the one that closes
it. -/
theorem not_behind_longSignature :
    ∃ site guarded, firstSite? longSignature = some site ∧
      insertGuard? longSignature site = some guarded ∧
      enclosingDef? (splitLines longSignature).1 (siteLine longSignature site) = some 0 ∧
      ClosesAt (splitLines longSignature).1 0 2 ∧
      (splitLines guarded).1 = ["def run(", "    allowed_commands = ['update', 'check', 'create']",
        "    raise ArgumentError, 'Invalid command' unless allowed_commands.include?(cmd)",
        "    cmd", "  )", "  system(cmd)", "end"].map String.toList := by
  refine ⟨⟨23, some "cmd".toList⟩, ["def run(\n",
    "    allowed_commands = ['update', 'check', 'create']\n",
    "    raise ArgumentError, 'Invalid command' unless allowed_commands.include?(cmd)\n",
    "    cmd\n", "  )\n", "  system(cmd)\n", "end\n"].flatMap String.toList, ?_, ?_, ?_,
    ⟨[], 2, ?_, rfl, ?_, ?_⟩, ?_⟩ <;> decide +kernel

end RepoAudit.Remedy.Command
