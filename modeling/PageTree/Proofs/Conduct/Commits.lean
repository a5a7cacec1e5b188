import PageTree.Proofs.Conduct.Trees

/-!
# Commits keep to the rules

A commit works on something beside the store: the diff that it writes, and the pairs of pages and
their counterparts that it gathers for a tree to be rebased.  `Conduct.Collects` is the judgment for
such steps.  Whatever conduct is asked for, the tree that comes with a diff has a tracked root
(`Tree.buildDiff_obeys`), and so have the counterparts of a committed tree
(`PageRef.pairCommitted_obeys`).
-/

namespace PageTree

open StoreM

variable {α β ω σ : Type} [PageLoader] {d : Conduct} {I : σ → Store → Prop} {s s' : Store}

namespace Conduct

/-- The step makes of the store what it may, or fails as it may, and what it works on beside the
store goes on to have a property. -/
def Collects (d : Conduct) (I : σ → Store → Prop) (act : StateT σ StoreM α) (s : Store)
    (P : α → Store → Prop) : Prop :=
  ∀ x, I x s → d.Obeys (act.run x) s fun out s' => P out.1 s' ∧ I out.2 s'

namespace Collects

variable {P : α → Store → Prop} {Q : β → Store → Prop}

protected theorem pure {a : α} (hpost : P a s) :
    d.Collects I (pure a : StateT σ StoreM α) s P :=
  fun _ hx => .pure ⟨hpost, hx⟩

protected theorem bind {act : StateT σ StoreM α} {f : α → StateT σ StoreM β}
    (hact : d.Collects I act s P)
    (hf : ∀ a s', d.Later s s' → P a s' → d.Collects I (f a) s' Q) :
    d.Collects I (act >>= f) s Q := by
  intro x hx
  rw [StateT.run_bind]
  exact (hact x hx).bind fun out s' hlater hpost => hf out.1 s' hlater hpost.1 out.2 hpost.2

protected theorem ite {p : Prop} [Decidable p] {act act' : StateT σ StoreM α}
    (hthen : p → d.Collects I act s P) (helse : ¬ p → d.Collects I act' s P) :
    d.Collects I (if p then act else act') s P := by
  split
  · next hp => exact hthen hp
  · next hp => exact helse hp

/-- An operation on the store. -/
theorem lift {act : StoreM α} (hI : ∀ x s', d.Later s s' → I x s → I x s')
    (hact : d.Obeys act s P) : d.Collects I (liftM act : StateT σ StoreM α) s P := by
  intro x hx
  change d.Obeys (act >>= fun a => pure (a, x)) s _
  exact hact.bind fun a s' hlater hpost => .pure ⟨hpost, hI x s' hlater hx⟩

/-- A look at the store. -/
theorem look {act : StoreM α} {a : α} {f : α → StateT σ StoreM β}
    (hexec : exec act s = (.ok a, s)) (hf : d.Collects I (f a) s Q) :
    d.Collects I ((liftM act : StateT σ StoreM α) >>= f) s Q := by
  intro x hx
  change d.Obeys ((act >>= fun a => pure (a, x)) >>= fun out => (f out.1).run out.2) s _
  rw [bind_assoc]
  exact .look hexec (hf x hx)

protected theorem get {f : σ → StateT σ StoreM β} (hf : ∀ x, d.Collects I (f x) s Q) :
    d.Collects I (MonadState.get >>= f) s Q := by
  intro x hx
  change d.Obeys ((f x).run x) s _
  exact hf x x hx

protected theorem modify {g : σ → σ} {f : PUnit → StateT σ StoreM β}
    (hg : ∀ x, I x s → I (g x) s) (hf : d.Collects I (f ⟨⟩) s Q) :
    d.Collects I (modify g >>= f) s Q := by
  intro x hx
  change d.Obeys ((f ⟨⟩).run (g x)) s _
  exact hf (g x) (hg x hx)

variable {J : Store → α → Prop} {R : Store → β → Prop}

theorem listMapM {f : α → StateT σ StoreM β}
    (hJ : ∀ {s s'} a, d.Later s s' → J s a → J s' a)
    (hR : ∀ {s s'} b, d.Later s s' → R s b → R s' b)
    (hf : ∀ s a, J s a → d.Collects I (f a) s fun b s' => R s' b) (l : List α)
    (hl : ∀ a ∈ l, J s a) : d.Collects I (l.mapM f) s fun bs s' => ∀ b ∈ bs, R s' b := by
  induction l generalizing s with
  | nil => exact .pure (by simp)
  | cons a l ih =>
      rw [List.mapM_cons]
      refine (hf s a (hl a List.mem_cons_self)).bind fun b s' hlater hb => ?_
      refine (ih fun a' ha' => hJ a' hlater (hl a' (List.mem_cons_of_mem a ha'))).bind ?_
      intro bs s'' hlater' hbs
      refine .pure fun b' hb' => ?_
      rcases List.mem_cons.1 hb' with rfl | hb'
      · exact hR _ hlater' hb
      · exact hbs b' hb'

theorem listForM {f : α → StateT σ StoreM PUnit}
    (hJ : ∀ {s s'} a, d.Later s s' → J s a → J s' a)
    (hf : ∀ s a, J s a → d.Collects I (f a) s fun _ _ => True) (l : List α)
    (hl : ∀ a ∈ l, J s a) : d.Collects I (l.forM f) s fun _ _ => True := by
  induction l generalizing s with
  | nil => exact .pure trivial
  | cons a l ih =>
      rw [List.forM]
      exact (hf s a (hl a List.mem_cons_self)).bind fun _ s' hlater _ =>
        ih fun a' ha' => hJ a' hlater (hl a' (List.mem_cons_of_mem a ha'))

end Collects
end Conduct

open Conduct

namespace PageRef

variable {r counterpart : PageRef}

/-- The pages of a tree are written, if the conduct lets there be a page that has no place. -/
theorem commitWithin_collects [Sink ω] (huncommitted : ∀ s text, d.Fails s (.notCommitted text) s)
    (depth : Nat) (htracks : d.Tracks s r) :
    d.Collects (fun _ _ => True) (commitWithin depth r : StateT (DiffWriter ω) StoreM PageRef) s
      fun r' s' => d.Tracks s' r' := by
  induction depth generalizing r s with
  | zero => exact fun _ _ => .error rfl (d.refused .tooDeep)
  | succ depth ih =>
      refine .ite (fun _ => .pure htracks) fun _ => .look (exec_hold r s) ?_
      split
      · next copy hhold =>
          have hopens : d.Opens s copy.page := d.tracks_held htracks (by rw [hhold]; rfl)
          -- what is written when the page stands as it is to be written
          have hwrite : ∀ {s : Store} (copy : PageCopy), d.Opens s copy.page →
              d.Collects (fun _ _ => True) (do
                modify (·.append copy.page.stored.render)
                let diff ← MonadState.get
                (holding r.tree r.stem (r.header.located copy.page.stored diff.zone
                  (diff.offset - 1)) copy : StoreM PageRef) :
                StateT (DiffWriter ω) StoreM PageRef) s fun r' s' => d.Tracks s' r' := by
            intro s copy hopens
            exact .modify (fun _ _ => trivial)
              (.get fun diff => .lift (fun _ _ _ _ => trivial) (holding_obeys hopens))
          refine .get fun diff => .ite (fun _ => .pure htracks) fun _ => .ite (fun _ => ?_)
            fun _ => hwrite copy hopens
          rw [Page.mapChildren_eq, bind_assoc]
          refine (Collects.listMapM (J := d.Tracks) (R := d.Tracks) (fun _ => d.tracks_later)
            (fun _ => d.tracks_later) (fun _ _ => ih) copy.page.children hopens).bind ?_
          intro children s' _ hchildren
          rw [pure_bind]
          refine (Collects.lift (fun _ _ _ _ => trivial) (copyOf_obeys _)).bind ?_
          intro copy' s'' hlater hcopy
          refine hwrite copy' fun m hm => d.tracks_later hlater (hchildren m ?_)
          rw [hcopy] at hm
          exact Page.mem_of_mem_withChildren hm
      · refine .look (a := (exec r.describe s).1.toOption.get!) rfl fun x hx => ?_
        exact .error rfl (huncommitted s _)

theorem commitInto_obeys [Sink ω] (huncommitted : ∀ s text, d.Fails s (.notCommitted text) s)
    {diff : DiffWriter ω} (htracks : d.Tracks s r) :
    d.Obeys (r.commitInto diff) s fun out s' => d.Tracks s' out.1 :=
  .get ((commitWithin_collects huncommitted _ htracks diff trivial).mono
    fun _ _ _ hpost => hpost.1)

theorem pairWithin_collects (depth : Nat) (htracks : d.Tracks s counterpart) :
    d.Collects (fun pairs s => ∀ pair ∈ pairs, d.Tracks s pair.2) (pairWithin depth r counterpart) s
      fun _ _ => True := by
  induction depth generalizing r counterpart s with
  | zero => exact fun _ _ => .error rfl (d.refused .tooDeep)
  | succ depth ih =>
      refine .ite (fun _ => .pure trivial) fun _ => ?_
      -- the counterpart is gathered after those of the children
      have hlast : ∀ {s}, d.Tracks s counterpart →
          d.Collects (fun pairs s => ∀ pair ∈ pairs, d.Tracks s pair.2)
            (modify ((r.id, counterpart) :: ·)) s fun _ _ => True := by
        intro s htracks pairs hpairs
        refine .pure ⟨trivial, fun pair hpair => ?_⟩
        rcases List.mem_cons.1 hpair with rfl | hpair
        · exact htracks
        · exact hpairs pair hpair
      refine .look (a := (s.hold r).strong?.map PageCopy.page) rfl ?_
      refine .look (a := (s.hold counterpart).strong?.map PageCopy.page) rfl ?_
      split
      · next page written hpage hwritten =>
          obtain ⟨copy, hcopy, rfl⟩ := Option.map_eq_some_iff.1 hwritten
          have hopens : d.Opens s copy.page := by
            refine d.tracks_held htracks ?_
            cases hhold : s.hold counterpart with
            | strong found => rwa [hhold] at hcopy
            | weak | unloaded =>
                rw [hhold] at hcopy
                cases hcopy
          refine Collects.bind (.listForM (J := fun s (ab : PageRef × PageRef) => d.Tracks s ab.2)
            (fun _ => d.tracks_later) (fun _ _ => ih) _ fun ab hab => ?_)
            fun _ _ hlater _ => hlast (d.tracks_later hlater htracks)
          exact hopens ab.2 (List.of_mem_zip hab).2
      · exact hlast htracks

/-- A page and its committed counterpart are gathered with all beneath them. -/
theorem pairCommitted_obeys (htracks : d.Tracks s counterpart) :
    d.Obeys (r.pairCommitted counterpart) s fun pairs s' => ∀ pair ∈ pairs, d.Tracks s' pair.2 :=
  .get ((pairWithin_collects _ htracks [] nofun).bind fun _ _ _ hpost => .pure hpost.2)

end PageRef

/-- The diff of a tree comes with a tree that is another only by its root and its seed. -/
theorem Tree.buildDiff_obeys {t : Tree} {zone base version : Nat}
    (huncommitted : ∀ s text, d.Fails s (.notCommitted text) s) (htracks : d.Tracks s t.root) :
    d.Obeys (t.buildDiff zone base version) s fun out s' =>
      d.Tracks s' out.2.root ∧ out.2.isResident = t.isResident := by
  refine (PageRef.commitInto_obeys huncommitted htracks).bind fun out s' hlater hout => ?_
  have hroot : d.Obeys (t.withCommittedRoot out.1) s' fun t' s'' =>
      d.Tracks s'' t'.root ∧ t'.isResident = t.isResident :=
    .ite (fun _ => .pure ⟨d.tracks_later hlater htracks, rfl⟩) fun _ => .get (.pure ⟨hout, rfl⟩)
  exact hroot.bind fun _ _ _ hpost => .pure hpost

end PageTree
