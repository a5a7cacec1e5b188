import PageTree.Proofs.Commit.Layout
import PageTree.Proofs.Retention

/-!
# What commits leave alone

A commit writes pages of uncommitted references only.  Any other reference that it comes upon is in
the committed tree as it is, with whatever lies beneath it (`Tree.buildDiff_attains`).  This is so
of any tree that can be committed at all: nothing is asked of its pages, and some may be too new to
be written.
-/

namespace PageTree

open StoreM

variable {α β : Type} {s s' : Store} {r r' m : PageRef} {written : List WrittenPage}

/-! ## What becomes of references -/

/-- What a reference becomes, and the pages that are written for it.  It stays as it is, or its page
is written after all that is written for its children. -/
inductive Store.Renews (s : Store) : PageRef → PageRef → List WrittenPage → Prop where
  | stays (r : PageRef) : Renews s r r []
  | written {r r' : PageRef} {copy copy' : PageCopy} {parts : List (PageRef × List WrittenPage)}
      (uncommitted : r.isCommitted = false) (hold : s.hold r = .strong copy)
      (hold' : s.hold r' = .strong copy')
      (page : copy'.page = copy.page.withChildren copy.page.version (parts.map Prod.fst))
      (length : copy.page.children.length = parts.length)
      (children : ∀ i h h', Renews s (copy.page.children.get ⟨i, h⟩) (parts.get ⟨i, h'⟩).1
        (parts.get ⟨i, h'⟩).2) :
      Renews s r r' ((parts.map Prod.snd).flatten ++ [⟨r', copy'.page.stored⟩])

namespace Store.Renews

theorem keep (hkeeps : s.Keeps s') (hrenews : s.Renews r r' written) :
    s'.Renews r r' written := by
  induction hrenews with
  | stays r => exact .stays r
  | written uncommitted hold hold' page length _ ih =>
      exact .written uncommitted (hkeeps.strong hold) (hkeeps.strong hold') page length ih

/-- Committed references stay where they are. -/
theorem within (hrenews : s.Renews r r' written) (hm : m.isCommitted = true)
    (hwithin : s.Within r m) : s.Within r' m := by
  induction hrenews with
  | stays r => exact hwithin
  | @written r r' copy copy' parts uncommitted hold hold' page length _ ih =>
      cases hwithin with
      | self =>
          rw [uncommitted] at hm
          cases hm
      | @beneath _ child _ _ held mem rest =>
          rw [hold] at held
          cases held
          obtain ⟨i, hi, rfl⟩ := List.getElem_of_mem mem
          have hi' : i < parts.length := length ▸ hi
          have hchildren : copy'.page.children = parts.map Prod.fst := by
            rw [page]
            exact Page.children_withChildren (by simpa using length)
          refine .beneath (by rw [hold']; rfl) ?_ (ih i hi hi' rest)
          rw [hchildren]
          exact List.mem_map_of_mem (List.get_mem parts ⟨i, hi'⟩)

/-- What is written is written for uncommitted references. -/
theorem source (hrenews : s.Renews r r' written) {w : WrittenPage} (hw : w ∈ written) :
    ∃ k part, s.Within r k ∧ k.isCommitted = false ∧ s.Renews k w.ref (part ++ [w]) := by
  induction hrenews with
  | stays => cases hw
  | @written r r' copy copy' parts uncommitted hold hold' page length children ih =>
      rcases List.mem_append.1 hw with hw | hw
      · obtain ⟨part, hpart, hw⟩ := List.mem_flatten.1 hw
        obtain ⟨i, hi', rfl⟩ := List.getElem_of_mem hpart
        rw [List.length_map] at hi'
        have hi : i < copy.page.children.length := length ▸ hi'
        obtain ⟨k, part, hwithin, hk, hrenews⟩ := ih i hi hi' (by simpa using hw)
        exact ⟨k, part, .beneath (by rw [hold]; rfl) (List.get_mem _ ⟨i, hi⟩) hwithin, hk, hrenews⟩
      · obtain rfl := List.mem_singleton.1 hw
        exact ⟨r, _, .self r, uncommitted, .written uncommitted hold hold' page length children⟩

end Store.Renews

/-! ## Steps that write on -/

/-- Where the step comes to a result, it has written some pages on, and the result has a
property. -/
def Commits (step : StateT Diff StoreM α) (s : Store) (diff : Diff)
    (post : α → Store → List WrittenPage → Prop) : Prop :=
  Attains (step.run diff) s fun out s' =>
    ∃ written, out.2 = diff.appendAll written ∧ post out.1 s' written

namespace Commits

variable {diff : Diff} {step : StateT Diff StoreM α} {f : α → StateT Diff StoreM β}
  {P : α → Store → List WrittenPage → Prop} {Q : β → Store → List WrittenPage → Prop}

protected theorem pure {a : α} (hpost : P a s []) : Commits (pure a) s diff P :=
  Attains.pure ⟨[], rfl, hpost⟩

/-- The pages of the second step follow those of the first. -/
protected theorem bind (hstep : Commits step s diff P)
    (hf : ∀ a s' written, s.Retains s' → P a s' written →
      Commits (f a) s' (diff.appendAll written) fun b s'' written' =>
        Q b s'' (written ++ written')) : Commits (step >>= f) s diff Q := by
  unfold Commits
  rw [StateT.run_bind]
  refine .bind hstep ?_
  rintro ⟨a, _⟩ s' - hretains ⟨written, rfl, hpost⟩
  refine (hf a s' written hretains hpost).mono ?_
  rintro ⟨b, _⟩ s'' - ⟨written', rfl, hpost'⟩
  exact ⟨written ++ written', (DiffWriter.appendAll_append diff written written').symm, hpost'⟩

/-- An operation of the store writes nothing. -/
protected theorem lift {act : StoreM α} {P : α → Store → Prop} (hact : Attains act s P)
    (hf : ∀ a s', s.Retains s' → P a s' → Commits (f a) s' diff Q) :
    Commits ((liftM act : StateT Diff StoreM α) >>= f) s diff Q := by
  have hlifted : Commits (liftM act : StateT Diff StoreM α) s diff fun a s' written =>
      written = [] ∧ P a s' := by
    change Attains (act >>= fun a => pure (a, diff)) s _
    exact .bind hact fun a s' _ _ ha => .pure ⟨[], rfl, rfl, ha⟩
  refine .bind hlifted ?_
  rintro a s' written hretains ⟨rfl, ha⟩
  exact hf a s' hretains ha

/-- The diff may be looked at. -/
protected theorem get {f : Diff → StateT Diff StoreM β} (hf : Commits (f diff) s diff Q) :
    Commits (get >>= f) s diff Q :=
  hf

protected theorem ite {p : Prop} [Decidable p] {step' : StateT Diff StoreM α}
    (hthen : p → Commits step s diff P) (helse : ¬ p → Commits step' s diff P) :
    Commits (if p then step else step') s diff P := by
  split
  · next hp => exact hthen hp
  · next hp => exact helse hp

/-- A step on every item of a list, where what holds of a result goes on to hold. -/
theorem listMapM {R : α → β → Store → List WrittenPage → Prop} (l : List α)
    (hstable : ∀ a b s s' written, s.Keeps s' → R a b s written → R a b s' written)
    (hf : ∀ a ∈ l, ∀ s' written, s.Retains s' →
      Commits (f a) s' (diff.appendAll written) (R a)) :
    Commits (l.mapM f) s diff fun bs s' written => ∃ parts : List (β × List WrittenPage),
      bs = parts.map Prod.fst ∧ written = (parts.map Prod.snd).flatten ∧
        List.Forall₂ (fun a part => R a part.1 s' part.2) l parts := by
  induction l generalizing s diff with
  | nil => exact .pure ⟨[], rfl, rfl, .nil⟩
  | cons a l ih =>
      rw [List.mapM_cons]
      refine .bind (hf a List.mem_cons_self s [] (.refl s)) fun b s' part hretains hb => ?_
      refine .bind (ih fun a' ha' s'' written hretains' => ?_) ?_
      · rw [← DiffWriter.appendAll_append]
        exact hf a' (List.mem_cons_of_mem a ha') s'' _ (hretains.trans hretains')
      · rintro bs s'' written hretains' ⟨parts, rfl, rfl, hparts⟩
        refine .pure ⟨(b, part) :: parts, rfl, ?_,
          .cons (hstable _ _ _ _ _ hretains'.keeps hb) hparts⟩
        rw [List.append_nil, List.map_cons, List.flatten_cons]

end Commits

/-! ## Committing a subtree -/

namespace PageRef

variable (diff : Diff)

/-- A page is written after what has been written for its children. -/
theorem layOut_commits {copy copy' : PageCopy} {parts : List (PageRef × List WrittenPage)}
    (huncommitted : r.isCommitted = false) (hhold : s.hold r = .strong copy)
    (hpage : copy'.page = copy.page.withChildren copy.page.version (parts.map Prod.fst))
    (hparts : List.Forall₂ (fun m part => s.Renews m part.1 part.2) copy.page.children parts) :
    Commits (r.layOut copy') s diff fun r' s' written =>
      s'.Renews r r' ((parts.map Prod.snd).flatten ++ written) ∧ (r'.same r = true → r' = r) := by
  have hretains := Store.Retains.pushCell s ⟨.strong copy', some copy'.page.version⟩
  obtain ⟨hlength, hget⟩ := List.forall₂_iff_get.1 hparts
  refine .of_exec (exec_layOut r copy' diff s) hretains ?_
  rintro _ ⟨⟩
  refine ⟨[⟨_, copy'.page.stored⟩], rfl, .written huncommitted (hretains.keeps.strong hhold) ?_
    hpage hlength fun i h h' => (hget i h h').keep hretains.keeps, fun hsame => ?_⟩
  · rw [Store.hold, Store.cell_pushCell_self]
  · -- the new reference has an identity that no reference in memory had
    have hlt : r.id < s.cells.size := Store.lt_of_copy (by rw [hhold]; rfl)
    have hid : s.cells.size = r.id := by simpa [same] using hsame
    omega

/-- A subtree is committed page by page. -/
theorem commitWithin_commits (depth : Nat) (r : PageRef) :
    Commits (commitWithin depth r) s diff fun r' s' written =>
      s'.Renews r r' written ∧ (r'.same r = true → r' = r) := by
  induction depth generalizing s diff r with
  | zero => exact Attains.throw _
  | succ depth ih =>
      unfold commitWithin
      refine .ite (fun _ => .pure ⟨.stays r, fun _ => rfl⟩) fun huncommitted => ?_
      have hlook : Attains r.hold s fun hold s' => s' = s ∧ hold = s.hold r :=
        .of_exec (exec_hold r s) (.refl s) fun _ hok => by cases hok; exact ⟨rfl, rfl⟩
      refine .lift hlook ?_
      rintro hold s₁ - ⟨rfl, rfl⟩
      split
      · next copy hhold =>
          refine .get (.ite (fun _ => .pure ⟨.stays r, fun _ => rfl⟩) fun _ => ?_)
          have huncommitted : r.isCommitted = false := by simpa using huncommitted
          dsimp only
          split
          · -- the children are written before the page, one after another
            rw [Page.mapChildren_eq, bind_assoc]
            refine .bind (.listMapM (R := fun m m' s' part => s'.Renews m m' part)
              copy.page.children (fun _ _ _ _ _ hkeeps hrenews => hrenews.keep hkeeps)
              fun m _ s' written _ => (ih (diff.appendAll written) m).mono ?_) ?_
            · rintro out s'' - ⟨written', hout, hrenews, -⟩
              exact ⟨written', hout, hrenews⟩
            · rintro ms s' written hretains ⟨parts, rfl, rfl, hparts⟩
              rw [pure_bind]
              have hcopied : Attains (copyOf (copy.page.withChildren copy.page.version
                  (parts.map Prod.fst))) s' fun copy' _ =>
                  copy'.page = copy.page.withChildren copy.page.version (parts.map Prod.fst) :=
                .of_exec (exec_copyOf _ s') (.of_cells_eq rfl rfl) fun _ hok => by cases hok; rfl
              refine .lift hcopied fun copy' s'' hretains' hpage => ?_
              exact layOut_commits _ huncommitted
                (hretains'.keeps.strong (hretains.keeps.strong hhold)) hpage
                (hparts.imp fun m part hrenews => hrenews.keep hretains'.keeps)
          · next hleaf =>
              have hleaf : copy.page.isNode = false := by simpa using hleaf
              have hparts : List.Forall₂ (fun m part => s₁.Renews m part.1 part.2)
                  copy.page.children ([] : List (PageRef × List WrittenPage)) := by
                rw [Page.children_of_not_isNode hleaf]
                exact .nil
              exact layOut_commits diff huncommitted hhold (Page.withChildren_of_leaf hleaf).symm
                hparts
      · have hdescribed : Attains r.describe s₁ fun _ _ => True :=
          .of_exec rfl (.refl s₁) fun _ _ => trivial
        exact .lift hdescribed fun _ _ _ _ => Attains.throw _

end PageRef

/-! ## Committing a tree -/

/-- A page is written for a reference: the reference was not committed, and the page is its own,
over what its children have become. -/
def Store.WrittenFor (s : Store) (r : PageRef) (w : WrittenPage) : Prop :=
  r.isCommitted = false ∧ ∃ part, s.Renews r w.ref (part ++ [w])

/-- A commit of a tree has left committed references where they are, and all that it has written are
pages for other references of the tree. -/
structure Tree.CommittedRest (t t' : Tree) (s : Store) (text : String)
    (written : List WrittenPage) : Prop where
  text_eq : text = String.ofList (written.flatMap WrittenPage.text)
  kept : ∀ m, m.isCommitted = true → s.Within t.root m → s.Within t'.root m
  source : ∀ w ∈ written, ∃ r, s.Within t.root r ∧ s.WrittenFor r w

/-- Whatever tree is committed to wherever, committed references are left where they are, and only
pages for others are written. -/
theorem Tree.buildDiff_attains (t : Tree) (zone start version : Nat) :
    Attains (t.buildDiff zone start version) s fun out s' =>
      ∃ written, t.CommittedRest out.2 s' out.1 written := by
  have hcommits : Attains (t.root.commitInto (.start zone start version : Diff)) s fun out s' =>
      ∃ written, out.2 = (DiffWriter.start zone start version : Diff).appendAll written ∧
        s'.Renews t.root out.1 written ∧ (out.1.same t.root = true → out.1 = t.root) :=
    .get (PageRef.commitWithin_commits _ _ t.root)
  refine .bind hcommits ?_
  rintro ⟨root, _⟩ s' - hretains ⟨written, rfl, hrenews, hsame⟩
  obtain ⟨t', hexec, hroot⟩ := t.exec_withCommittedRoot s' hsame
  have hrooted : Attains (t.withCommittedRoot root) s' fun t' s'' => s'' = s' ∧ t'.root = root :=
    .of_exec hexec (.refl s') fun _ hok => by cases hok; exact ⟨rfl, hroot⟩
  refine .bind hrooted ?_
  rintro t' _ - - ⟨rfl, rfl⟩
  refine .pure ⟨written, DiffWriter.toText_appendAll_start written zone start version, ?_, ?_⟩
  · exact fun m hm hwithin => hrenews.within hm hwithin
  · intro w hw
    obtain ⟨k, part, hwithin, hk, hsource⟩ := hrenews.source hw
    exact ⟨k, hwithin, hk, part, hsource⟩

/-- A later commit of a tree, to wherever, leaves a reference in the tree and writes no page for
it. -/
def Tree.PassesOver (t : Tree) (s : Store) (m : PageRef) : Prop :=
  ∀ later, s.Keeps later → ∀ zone start version text t' s',
    exec (t.buildDiff zone start version) later = (.ok (text, t'), s') →
      ∃ written, t.CommittedRest t' s' text written ∧ s'.Within t'.root m ∧
        ∀ w ∈ written, ¬ s'.WrittenFor m w

theorem Tree.passesOver_of_isCommitted {t : Tree} (hm : m.isCommitted = true)
    (hwithin : s.Within t.root m) : t.PassesOver s m := by
  intro later hkeeps zone start version text t' s' hexec
  obtain ⟨hretains, written, hrest⟩ := t.buildDiff_attains zone start version (text, t') s' hexec
  have hlater := hretains.keeps.within (hkeeps.within hwithin)
  refine ⟨written, hrest, hrest.kept m hm hlater, fun w _ hfor => ?_⟩
  rw [hfor.1] at hm
  cases hm

end PageTree
