import RepoAudit.Proofs.FileTree.Ancestor

/-!
# What is left of a path below another one

Written behind a path, a relative one adds its components to it, but for a leading dot. What is
left of a path below a base is relative and leads from the base to the path again, and it is empty
exactly when the path is the base.

## Main definitions

- `Path.named` — the components that segments add to a path
- `Path.spoken` — segments without the silent ones at the end

## Main statements

- `Path.components_join` — the components of a path written behind another one
- `Path.components_withoutSilentTail` — silent segments at the end add nothing
- `Path.components_join_below` — what is left of a path below a base
- `Path.components_join_ne` — a relative path that does not lie below a base
-/

namespace RepoAudit.Path

open RepoAudit.Text

/-- The components that segments add to a path. -/
def named (segments : List (List Char)) : List Component :=
  (segments.filter fun s => !isSilent s).map componentOf

@[simp] theorem named_append (ss ts : List (List Char)) :
    named (ss ++ ts) = named ss ++ named ts := by
  rw [named, List.filter_append, List.map_append]
  rfl

theorem named_cons_of_isSilent {s : List Char} (h : isSilent s = true) (ss : List (List Char)) :
    named (s :: ss) = named ss := by
  rw [named, List.filter_cons_of_neg (by simp [h])]
  rfl

theorem named_cons {s : List Char} (h : isSilent s = false) (ss : List (List Char)) :
    named (s :: ss) = componentOf s :: named ss := by
  rw [named, List.filter_cons_of_pos (by simp [h])]
  rfl

/-- The components of a relative path; a leading dot is one of them. -/
def relativeComponents : List (List Char) → List Component
  | ['.'] :: rest => .current :: named rest
  | segments => named segments

theorem components_eq (p : Path) :
    p.components = if p.isAbsolute then .root :: named p.segments
      else relativeComponents p.segments := by
  rw [components]
  split
  · rfl
  · rw [relativeComponents.eq_def]
    rfl

theorem components_of_isAbsolute {p : Path} (h : p.isAbsolute = true) :
    p.components = .root :: named p.segments := by
  rw [components_eq, if_pos h]

theorem relativeComponents_append {ss : List (List Char)} (h : ss ≠ []) (ts : List (List Char)) :
    relativeComponents (ss ++ ts) = relativeComponents ss ++ named ts := by
  obtain ⟨s, ss, rfl⟩ := List.exists_cons_of_ne_nil h
  by_cases hdot : s = ['.']
  · subst hdot
    show Component.current :: named (ss ++ ts) = _
    rw [named_append]
    rfl
  · have hplain : ∀ us, relativeComponents (s :: us) = named (s :: us) := by
      intro us
      rw [relativeComponents.eq_def]
      split
      · next heq => exact absurd (List.cons.inj heq).1 hdot
      · rfl
    rw [List.cons_append, hplain, hplain, ← named_append]
    rfl

theorem relativeComponents_of_head {ss : List (List Char)}
    (h : ∀ s ∈ ss.head?, isSilent s = false) : relativeComponents ss = named ss := by
  rw [relativeComponents.eq_def]
  split
  · next rest => exact absurd (h ['.'] rfl) (by decide)
  · rfl

theorem segments_ne_nil (p : Path) : p.segments ≠ [] := by
  rw [segments]
  split <;> exact splitOn_ne_nil _ _

/-- A relative path has a leading dot, or only the components that its segments add. -/
theorem components_of_relative {p : Path} (h : p.isAbsolute = false) :
    (∃ rest, p.segments = ['.'] :: rest ∧ p.components = .current :: named rest) ∨
      p.segments.head? ≠ some ['.'] ∧ p.components = named p.segments := by
  rw [components_eq, h, if_neg Bool.false_ne_true]
  by_cases hdot : p.segments.head? = some ['.']
  · obtain ⟨rest, hrest⟩ := List.head?_eq_some_iff.mp hdot
    exact .inl ⟨rest, hrest, by rw [hrest]; rfl⟩
  · refine .inr ⟨hdot, ?_⟩
    rw [relativeComponents.eq_def]
    split
    · next hrest =>
      rw [hrest] at hdot
      exact absurd rfl hdot
    · rfl

/-- The empty path alone has no components. -/
theorem components_eq_nil_iff {p : Path} : p.components = [] ↔ p.chars = [] := by
  refine ⟨fun h => ?_, fun h => ?_⟩
  · by_contra hchars
    cases habsolute : p.isAbsolute with
    | true =>
      rw [components_of_isAbsolute habsolute] at h
      cases h
    | false =>
      rcases components_of_relative habsolute with ⟨rest, -, hdot⟩ | ⟨hdot, hnamed⟩
      · rw [hdot] at h
        cases h
      · obtain ⟨s, ss, hss⟩ := List.exists_cons_of_ne_nil p.segments_ne_nil
        have hempty := head?_segments habsolute hchars
        rw [hss, List.head?_cons, ne_eq, Option.some.injEq] at hdot hempty
        rw [hnamed, hss, named_cons (by simp [isSilent, hdot, hempty])] at h
        cases h
  · rw [components, segments, isAbsolute, h]
    rfl

/-! ## Joining -/

/-- A relative path behind another one adds its segments, perhaps in place of the empty one at the
end. -/
theorem segments_join {p q : Path} (hq : q.isAbsolute = false) (hp : p.chars ≠ []) :
    ∃ front, (p.join q).segments = front ++ q.segments ∧
      (p.segments = front ∨ p.segments = front ++ [[]]) ∧
      (p.join q).isAbsolute = p.isAbsolute := by
  obtain ⟨cs, hsegments, hlast, happend⟩ := exists_segments_append hp
  have hqsegments : q.segments = splitOn '/' q.chars := by rw [segments, hq]; rfl
  rw [join_eq hq, if_neg hp, hqsegments]
  split
  · next hslash =>
    rcases hlast hslash with rfl | ⟨body, rfl⟩
    · exact ⟨[], happend _, .inr hsegments, isAbsolute_append hp _⟩
    · refine ⟨splitOn '/' body, ?_, .inr ?_, isAbsolute_append hp _⟩
      · rw [happend, List.append_assoc]
        exact splitOn_append_cons '/' body _
      · rw [hsegments]
        exact splitOn_append_cons '/' body []
  · refine ⟨p.segments, ?_, .inl rfl, isAbsolute_append hp _⟩
    rw [happend, splitOn_append_cons, hsegments]

/-- A relative path behind another one adds its components, but for a leading dot. -/
theorem components_join {p q : Path} (hq : q.isAbsolute = false) (hp : p.chars ≠ []) :
    (p.join q).components = p.components ++ named q.segments := by
  obtain ⟨front, hjoined, hfront, habsolute⟩ := segments_join hq hp
  have hnamed : named p.segments = named front := by
    rcases hfront with h | h
    · rw [h]
    · rw [h, named_append]
      exact List.append_nil _
  rw [components_eq, components_eq, habsolute, hjoined]
  by_cases h : p.isAbsolute = true
  · rw [if_pos h, if_pos h, hnamed, named_append]
    rfl
  · have hne : front ≠ [] := by
      rintro rfl
      rcases hfront with hnil | hempty
      · exact segments_ne_nil p hnil
      · exact head?_segments (Bool.eq_false_iff.mpr h) hp (by rw [hempty]; rfl)
    have hsame : relativeComponents p.segments = relativeComponents front := by
      rcases hfront with h | h
      · rw [h]
      · rw [h, relativeComponents_append hne]
        exact List.append_nil _
    rw [if_neg h, if_neg h, relativeComponents_append hne, hsame]

/-! ## Silent segments at the end -/

theorem named_reverse (ss : List (List Char)) : named ss.reverse = (named ss).reverse := by
  rw [named, List.filter_reverse, List.map_reverse]
  rfl

theorem named_dropWhile (ss : List (List Char)) : named (ss.dropWhile isSilent) = named ss := by
  induction ss with
  | nil => rfl
  | cons s ss ih =>
    by_cases h : isSilent s = true
    · rw [List.dropWhile_cons_of_pos h, ih, named_cons_of_isSilent h]
    · rw [List.dropWhile_cons_of_neg h]

/-- The segments without the silent ones at the end. -/
def spoken (ss : List (List Char)) : List (List Char) :=
  (ss.reverse.dropWhile isSilent).reverse

@[simp] theorem named_spoken (ss : List (List Char)) : named (spoken ss) = named ss := by
  rw [spoken, named_reverse, named_dropWhile, named_reverse, List.reverse_reverse]

theorem spoken_isPrefix (ss : List (List Char)) : spoken ss <+: ss := by
  rw [spoken, ← List.reverse_suffix, List.reverse_reverse]
  exact List.dropWhile_suffix _

theorem head?_spoken {ss : List (List Char)} (h : ∀ s ∈ ss.head?, isSilent s = false) :
    ∀ s ∈ (spoken ss).head?, isSilent s = false := by
  obtain ⟨rest, hrest⟩ := spoken_isPrefix ss
  intro s hs
  refine h s ?_
  rw [← hrest, List.head?_append, hs]
  rfl

/-- What segments spell that start with a name is relative, and empty if there are none. -/
theorem ofSegments_of_head {ss : List (List Char)} (hslash : ∀ s ∈ ss, '/' ∉ s)
    (hhead : ∀ s ∈ ss.head?, isSilent s = false) :
    (ofSegments false ss).isAbsolute = false ∧ named (ofSegments false ss).segments = named ss ∧
      (ofSegments false ss).components = named ss ∧
      ((ofSegments false ss).text = "" ↔ named ss = []) := by
  have hfirst : ss.head? ≠ some [] := by
    intro hnil
    cases hhead [] hnil
  obtain ⟨habsolute, hsegments⟩ := segments_ofSegments false hslash fun _ => hfirst
  have hnamed : named (ofSegments false ss).segments = named ss := by
    rw [hsegments]
    split
    · next hnil => rw [hnil]; rfl
    · rfl
  refine ⟨habsolute, hnamed, ?_, ?_⟩
  · rw [components_eq, if_neg (by simp [habsolute]), hsegments]
    split
    · next hnil => rw [hnil]; rfl
    · exact relativeComponents_of_head hhead
  · cases ss with
    | nil => exact iff_of_true rfl rfl
    | cons s ss =>
      have hs : isSilent s = false := hhead s rfl
      refine iff_of_false (fun hempty => ?_) (by rw [named_cons hs]; exact List.cons_ne_nil _ _)
      obtain ⟨c, cs, rfl⟩ : ∃ c cs, s = c :: cs := by
        cases s with
        | nil => cases hs
        | cons c cs => exact ⟨c, cs, rfl⟩
      have hchars : (ofSegments false ((c :: cs) :: ss)).chars = [] := by
        rw [chars, hempty]
        rfl
      rw [ofSegments, chars_ofList] at hchars
      cases ss <;> simp [List.intercalate] at hchars

/-! ## Below a base -/

theorem head?_dropComponents (count : Nat) (ss : List (List Char)) :
    ∀ s ∈ (dropComponents count ss).head?, isSilent s = false := by
  induction ss generalizing count with
  | nil => simp [dropComponents]
  | cons t ss ih =>
    rw [dropComponents.eq_def]
    dsimp only
    by_cases ht : isSilent t = true
    · rw [if_pos ht]
      exact ih count
    · rw [if_neg ht]
      cases count with
      | zero =>
        intro s hs
        rw [Option.mem_def, List.head?_cons, Option.some.injEq] at hs
        rw [← hs]
        exact Bool.eq_false_iff.mpr ht
      | succ count => exact ih count

theorem named_dropComponents (count : Nat) (ss : List (List Char)) :
    named (dropComponents count ss) = (named ss).drop count := by
  induction ss generalizing count with
  | nil => simp [dropComponents, named]
  | cons t ss ih =>
    rw [dropComponents.eq_def]
    dsimp only
    by_cases ht : isSilent t = true
    · rw [if_pos ht, ih, named_cons_of_isSilent ht]
    · rw [if_neg ht, named_cons (Bool.eq_false_iff.mpr ht)]
      cases count with
      | zero => exact named_cons (Bool.eq_false_iff.mpr ht) ss
      | succ count => exact ih count

theorem dropComponents_suffix (count : Nat) (ss : List (List Char)) :
    dropComponents count ss <:+ ss := by
  induction ss generalizing count with
  | nil => exact List.suffix_rfl
  | cons t ss ih =>
    rw [dropComponents.eq_def]
    dsimp only
    split
    · exact (ih count).trans (List.suffix_cons t ss)
    · cases count with
      | zero => exact List.suffix_rfl
      | succ count => exact (ih count).trans (List.suffix_cons t ss)

/-- What is left of segments once some components have been passed has the other components. -/
theorem restAfter_eq {ss : List (List Char)} (hslash : ∀ s ∈ ss, '/' ∉ s) (count : Nat) :
    (restAfter count ss).isAbsolute = false ∧
      named (restAfter count ss).segments = (named ss).drop count ∧
      (restAfter count ss).components = (named ss).drop count ∧
      ((restAfter count ss).text = "" ↔ (named ss).drop count = []) := by
  have hmem : ∀ s ∈ spoken (dropComponents count ss), '/' ∉ s := fun s hs =>
    hslash s ((dropComponents_suffix count ss).subset ((spoken_isPrefix _).subset hs))
  have hall := ofSegments_of_head hmem (head?_spoken (head?_dropComponents count ss))
  rwa [named_spoken, named_dropComponents] at hall

/-- A relative path behind a base leads to a path that has the components of both. -/
theorem components_join_of_append {p base rest : Path} {tail : List Component}
    (hbase : base.chars ≠ []) (hrelative : rest.isAbsolute = false)
    (hnamed : named rest.segments = tail) (hempty : rest.text = "" ↔ tail = [])
    (hp : p.components = base.components ++ tail) :
    (base.join rest).components = p.components ∧
      (rest.text = "" ↔ p.components = base.components) := by
  refine ⟨?_, ?_⟩
  · rw [components_join hrelative hbase, hnamed, hp]
  · rw [hempty, hp, List.append_right_eq_self]

theorem mem_named {c : Component} {ss : List (List Char)} (h : c ∈ named ss) :
    c ≠ .root ∧ c ≠ .current := by
  obtain ⟨s, -, rfl⟩ := List.mem_map.mp h
  rw [componentOf]
  split <;> simp

theorem withoutSilentTail_eq_spoken {absolute : Bool} {ss : List (List Char)}
    (h : absolute = true ∨ ss.head? ≠ some ['.'] ∨ spoken ss ≠ []) :
    withoutSilentTail absolute ss = spoken ss := by
  rw [withoutSilentTail, if_neg]
  · rfl
  · simp only [Bool.and_eq_true, Bool.not_eq_true', beq_iff_eq, List.isEmpty_iff]
    rintro ⟨⟨hempty, habsolute⟩, hhead⟩
    rcases h with h | h | h
    · rw [h] at habsolute
      cases habsolute
    · exact h hhead
    · exact h (List.reverse_eq_nil_iff.mpr hempty)

/-- Without the silent segments at its end a path has the components that it had. -/
theorem components_withoutSilentTail (p : Path) :
    (ofSegments p.isAbsolute (withoutSilentTail p.isAbsolute p.segments)).components =
      p.components := by
  have hslash : ∀ s ∈ spoken p.segments, '/' ∉ s := fun s hs =>
    notMem_of_mem_segments ((spoken_isPrefix _).subset hs)
  cases habsolute : p.isAbsolute with
  | true =>
    rw [withoutSilentTail_eq_spoken (.inl rfl)]
    obtain ⟨hq, hsegments⟩ := segments_ofSegments true hslash (by simp)
    rw [components_of_isAbsolute hq, hsegments, components_of_isAbsolute habsolute,
      ← named_spoken p.segments]
    split
    · next hnil => rw [hnil]; rfl
    · rfl
  | false =>
    rcases components_of_relative habsolute with ⟨rest, hsegments, hdot⟩ | ⟨hhead, hnamed⟩
    · have hsame : named (spoken p.segments) = named rest := by
        rw [named_spoken, hsegments, named_cons_of_isSilent rfl]
      by_cases hspoken : spoken p.segments = []
      · -- Only silent segments: the leading dot alone is left.
        have hnil : named rest = [] := by
          rw [← hsame, hspoken]
          rfl
        have htail : withoutSilentTail false p.segments = [['.']] := by
          rw [withoutSilentTail, if_pos]
          rw [List.reverse_eq_nil_iff.mp hspoken, hsegments]
          rfl
        rw [htail, hdot, hnil]
        decide
      · rw [withoutSilentTail_eq_spoken (.inr (.inr hspoken))]
        obtain ⟨first, rest', hcons⟩ := List.exists_cons_of_ne_nil hspoken
        obtain rfl : first = ['.'] := by
          have hfront := spoken_isPrefix p.segments
          rw [hcons, hsegments] at hfront
          exact (List.cons_prefix_cons.mp hfront).1
        rw [hcons] at hslash hsame ⊢
        obtain ⟨hq, hqsegments⟩ := segments_ofSegments false hslash (by simp)
        rw [components_eq, hq, hqsegments, hdot, ← hsame, named_cons_of_isSilent rfl]
        rfl
    · rw [withoutSilentTail_eq_spoken (.inr (.inl hhead)), hnamed]
      by_cases hchars : p.chars = []
      · rw [segments, habsolute, hchars]
        decide
      · have hplain : ∀ s ∈ p.segments.head?, isSilent s = false := by
          intro s hs
          have hempty := head?_segments habsolute hchars
          rw [Option.mem_def.mp hs, ne_eq, Option.some.injEq] at hhead hempty
          simp [isSilent, hhead, hempty]
        rw [(ofSegments_of_head hslash (head?_spoken hplain)).2.2.1, named_spoken]

/-- What is left of some segments below a base leads from the base to the path that they are the
segments of. -/
theorem components_join_restAfter {p base : Path} {ss : List (List Char)} (front : List Component)
    {inner : List Component} (hslash : ∀ s ∈ ss, '/' ∉ s) (hchars : base.chars ≠ [])
    (hbase : base.components = front ++ inner) (hp : p.components = front ++ named ss)
    (h : base.components <+: p.components) :
    (base.join (restAfter inner.length ss)).components = p.components ∧
      ((restAfter inner.length ss).text = "" ↔ p.components = base.components) := by
  obtain ⟨hrelative, hnamed, -, hempty⟩ := restAfter_eq hslash inner.length
  refine components_join_of_append hchars hrelative hnamed hempty ?_
  rw [hbase, hp, List.prefix_append_right_inj] at h
  obtain ⟨tail, htail⟩ := h
  rw [hp, hbase, ← htail, List.drop_left, List.append_assoc]

/-- Below the empty path the whole of a path is left, but for its silent tail. -/
theorem components_join_below_of_nil {p base : Path} (h : base.components = []) :
    (base.join (p.below base)).components = p.components ∧
      ((p.below base).text = "" ↔ p.components = []) := by
  have hbase : base.chars = [] := components_eq_nil_iff.mp h
  have hbelow : p.below base =
      ofSegments p.isAbsolute (withoutSilentTail p.isAbsolute p.segments) := by
    rw [below, stripPrefix?, if_pos (by simp [h]), h]
    rfl
  have hsame := components_withoutSilentTail p
  rw [← hbelow] at hsame
  have hjoin : base.join (p.below base) = p.below base := by
    rw [join, hbase]
    split <;> rfl
  rw [hjoin, hsame, ← hsame, components_eq_nil_iff]
  exact ⟨rfl, String.toList_eq_nil_iff.symm⟩

/-- What is left of a path below a base leads from the base to the path, and it is empty exactly
when the path is the base. -/
theorem components_join_below {p base : Path} (h : base.components <+: p.components) :
    (base.join (p.below base)).components = p.components ∧
      ((p.below base).text = "" ↔ p.components = base.components) := by
  have hslash : ∀ s ∈ p.segments, '/' ∉ s := fun s => notMem_of_mem_segments
  have hprefix := List.isPrefixOf_iff_prefix.mpr h
  cases hcomponents : base.components with
  | nil => exact components_join_below_of_nil hcomponents
  | cons first inner =>
    have hchars : base.chars ≠ [] := by
      rw [ne_eq, ← components_eq_nil_iff, hcomponents]
      exact List.cons_ne_nil _ _
    rw [← hcomponents]
    have hfirst : p.components.head? = some first := by
      obtain ⟨tail, htail⟩ := h
      rw [← htail, hcomponents]
      rfl
    -- A root and a leading dot are no segments to pass, any other first component is one.
    cases habsolute : p.isAbsolute with
    | true =>
      have hp : p.components = [.root] ++ named p.segments := components_of_isAbsolute habsolute
      obtain rfl : Component.root = first := by simpa [hp] using hfirst
      have hbelow : p.below base = restAfter inner.length p.segments := by
        rw [below, stripPrefix?, if_pos hprefix, hcomponents]
        rfl
      rw [hbelow]
      exact components_join_restAfter _ hslash hchars hcomponents hp h
    | false =>
      rcases components_of_relative habsolute with ⟨rest, hsegments, hp⟩ | ⟨-, hp⟩
      · obtain rfl : Component.current = first := by simpa [hp] using hfirst
        have hbelow : p.below base = restAfter inner.length rest := by
          rw [below, stripPrefix?, if_pos hprefix, hcomponents, hsegments]
          rfl
        rw [hbelow]
        refine components_join_restAfter [.current] (fun s hs => hslash s ?_) hchars
          hcomponents hp h
        rw [hsegments]
        exact List.mem_cons_of_mem _ hs
      · have hmem : first ∈ named p.segments := hp ▸ List.mem_of_head? hfirst
        obtain ⟨hroot, hcurrent⟩ := mem_named hmem
        have hbelow : p.below base = restAfter base.components.length p.segments := by
          rw [below, stripPrefix?, if_pos hprefix, hcomponents]
          cases first with
          | root => exact absurd rfl hroot
          | current => exact absurd rfl hcurrent
          | parent => rfl
          | name n => rfl
        rw [hbelow]
        exact components_join_restAfter [] hslash hchars rfl hp h

/-- A path that does not lie below a base is left as it is. -/
theorem below_of_not_isPrefix {p base : Path} (h : ¬base.components <+: p.components) :
    p.below base = p := by
  rw [below, stripPrefix?, if_neg (by rwa [List.isPrefixOf_iff_prefix])]
  rfl

/-- A relative path that does not lie below a base is another one when it is read from there. -/
theorem components_join_ne {p base : Path} (hrelative : p.isAbsolute = false)
    (h : ¬base.components <+: p.components) :
    (base.join p).components ≠ p.components := by
  intro hsame
  have hchars : base.chars ≠ [] := by
    intro hnil
    rw [components_eq_nil_iff.mpr hnil] at h
    exact h List.nil_prefix
  rw [components_join hrelative hchars] at hsame
  exact h ⟨_, hsame⟩

/-- What is left of a path below a base names the path from there by some text, unless the path is
the base itself, or is relative and does not lie below the base. -/
theorem names_below_iff {p base : Path} :
    ((p.below base).text ≠ "" ∧ (base.join (p.below base)).same p = true) ↔
      p.same base = false ∧ (p.isAbsolute = true ∨ base.components <+: p.components) := by
  by_cases h : base.components <+: p.components
  · obtain ⟨hsame, hempty⟩ := components_join_below h
    simp [same, hsame, hempty, h]
  · -- The path is left as it is, and only an absolute one is the same when read from the base.
    have hother : p.components ≠ base.components := fun heq => h (heq ▸ List.prefix_rfl)
    rw [below_of_not_isPrefix h]
    cases habsolute : p.isAbsolute with
    | true =>
      have htext : p.text ≠ "" := by
        intro hempty
        rw [isAbsolute, chars, hempty] at habsolute
        cases habsolute
      have hjoin : base.join p = p := by rw [join, if_pos habsolute]
      rw [hjoin]
      simp [htext, hother, same]
    | false =>
      have hne := components_join_ne habsolute h
      simp [same, hne, h]

end RepoAudit.Path
