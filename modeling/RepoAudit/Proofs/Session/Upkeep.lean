import RepoAudit.Proofs.Session.Commands
import RepoAudit.Proofs.Store.Resave
import RepoAudit.Proofs.Store.Sight

/-!
# Steps that leave a save possible

Where a save with a slug is not refused, the steps on a snapshot with that slug leave it so. They
write the log file, which is none of the files of a save, and make directories that are there or
that bear another name. Only a program can put something where the files of a save belong.

## Main statements

- `Store.CanSave.permits` — the steps on a snapshot leave what stands where it is saved
- `Store.CanSave.of_keeps` — after such steps a save is not refused
-/

namespace RepoAudit

open Act FileTree Path Session

/-- Directories may be made whose making leaves what stands at the route. -/
theorem Act.sees_makeDirectories_sameAt {r : Route} {start : World} {path : Path} {p : Prop}
    (hmade : ∀ t, Grows start.files t →
      (t.makeDirectories start.here path).1.node? r = t.node? r) :
    Keeps (World.sight r (SameAt r start.files) start) p (Act.makeDirectories path)
      fun _ => True := by
  intro w
  refine ⟨id, fun _ hw => .inr ⟨World.Sees.withFiles hw ?_, fun _ _ => trivial⟩⟩
  have hkept := hmade w.files hw.files.1
  rw [← hw.here] at hkept
  exact hw.files.trans ⟨.of_makeDirectories _ _ _, hkept⟩

namespace Store

variable {st : Store} {slug name : String} {here : Route} {t t' : FileTree}

/-- The way to the directory with the local copies ends at another name, and before that it is the
way to the store. -/
theorem CanSave.node?_makeCopies (h : st.CanSave slug here t) (hslash : '/' ∉ slug.toList)
    (hname : name ∈ savedNames) {address : String} {parent : Path}
    (hparent : (copyPath st.copies address).parent? = some parent) (hgrows : Grows t t') :
    (t'.makeDirectories here parent).1.node? (((st.directory slug).entry name).routeFrom here) =
      t'.node? (((st.directory slug).entry name).routeFrom here) := by
  have hrepos : '/' ∉ "repos".toList := by decide
  refine node?_makeDirectories_of_passes fun q hq => ?_
  have hcopies : q.OnWay st.copies :=
    (onWay_of_mem_ancestors hq).trans (onWay_of_parent?_entry (by
      rw [String.toList_ofList]
      exact notMem_copyName _) hparent)
  have hnames : st.copies.names = st.root.names ++ ["repos".toList] := names_entry hrepos _
  have hinit := hcopies.2
  rw [hnames] at hinit
  rcases List.prefix_concat_iff.mp hinit with hwhole | hroot
  · -- All of it: the route ends with the name of that directory.
    left
    have hroute : q.routeFrom here = st.root.routeFrom here ++ ["repos"] := by
      have hsame : q.routeFrom here = st.copies.routeFrom here := by
        rw [← foldl_names, ← foldl_names, hcopies.1, hwhole, hnames]
      rw [hsame]
      exact routeFrom_entry rfl (fun _ => rfl) _ _
    rw [hroute, routeFrom_savedName _ _ hname]
    intro heq
    have hlast : name = "repos" := List.singleton_inj.mp (List.append_inj_right' heq rfl)
    exact absurd (hlast ▸ hname) (by decide)
  · -- Less than that: the store is there already.
    right
    have hdirectory : q.OnWay (st.directory slug) := by
      refine ⟨fun here => ?_, hroot.trans ?_⟩
      · rw [hcopies.1, copies, originOf_entry hrepos, directory, originOf_entry hslash]
      · rw [directory, names_entry hslash]
        exact List.prefix_append _ _
    exact (h.passes.onWay hdirectory).mono hgrows

variable {session : Session} {start : World}

/-- The steps on a snapshot with a slug leave what stands where the files of its save belong. -/
theorem CanSave.permits (h : session.store.CanSave slug start.here start.files)
    (hslash : '/' ∉ slug.toList) (hname : name ∈ savedNames) :
    session.Permits (fun identity => identity.2 = slug)
      (World.sight (((session.store.directory slug).entry name).routeFrom start.here)
        (SameAt (((session.store.directory slug).entry name).routeFrom start.here) start.files)
        start) where
  letsStart := fun _ => sees_start (restsOn_sameAt _ _)
  now := fun _ => sees_now
  makeDirectory := fun p identity hidentity => by
    by_cases hp : p
    · rw [hidentity hp]
      refine sees_makeDirectories_sameAt fun t hgrows => ?_
      exact node?_makeDirectories_of_passes fun q hq =>
        .inr ((h.passes.onWay (onWay_of_mem_ancestors hq)).mono hgrows)
    · exact sees_makeDirectories (restsOn_sameAt _ _) fun hp' => absurd hp' hp
  appendLog := fun p identity line hidentity => by
    refine sees_change (restsOn_sameAt _ _) (fun hp => .inl (isUnguarded_of_ne ?_)) _
    rw [hidentity hp, routeFrom_savedName _ _ hname,
      show ((session.store.directory slug).entry logName).routeFrom start.here =
        (session.store.directory slug).routeFrom start.here ++ [logName] from
          routeFrom_entry rfl (fun _ => rfl) _ _]
    intro heq
    have hlast : name = logName := List.singleton_inj.mp (List.append_inj_right' heq rfl)
    exact absurd (hlast ▸ hname) (by decide)
  makeCopies := fun p address parent hparent =>
    sees_makeDirectories_sameAt fun t hgrows => h.node?_makeCopies hslash hname hparent hgrows

/-- After steps that are permitted where a save is not refused, and that start no program which puts
something there, a save is not refused. -/
theorem CanSave.of_keeps (h : session.store.CanSave slug start.here start.files)
    (hslash : '/' ∉ slug.toList) {α : Type} {act : Act α} {Q : α → Prop} {w : World} {a : α}
    (hact : ∀ W, session.Permits (fun identity => identity.2 = slug) W → Keeps W True act Q)
    (hrun : act start = (.ok a, w))
    (hclean : ∀ name ∈ savedNames, ¬World.Meddled
      (((session.store.directory slug).entry name).routeFrom start.here) start w.calls) :
    session.store.CanSave slug w.here w.files := by
  have hsees : ∀ name ∈ savedNames, World.Sees
      (SameAt (((session.store.directory slug).entry name).routeFrom start.here) start.files)
      start w := fun name hname =>
    (hact _ (h.permits hslash hname)).kept hrun trivial (World.Sees.refl (.refl _ _))
      (hclean name hname)
  rw [(hsees snapshotName (by decide)).here]
  exact h.mono fun name hname => (hsees name hname).files

end Store

end RepoAudit
