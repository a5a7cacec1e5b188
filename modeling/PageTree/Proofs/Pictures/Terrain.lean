import PageTree.Proofs.BTree.Balance
import PageTree.Proofs.Pictures.Charts
import PageTree.Proofs.Pictures.Rebuild
import PageTree.Proofs.QTree.Balance
import PageTree.Proofs.QTree.Holds

/-!
# Galleries as a terrain

The galleries whose pictures a reader of the store sees are a terrain of both kinds of trees, so
that what is proved of trees over a terrain holds wherever the pages lie and whatever versions they
have.  In particular a tree that a chart has may be changed at a version that its pages are newer
than (`BTree.Root.shown`, `QTree.Root.shown`).

A picture is of a B-tree or a Q-tree of a height if its leaves lie at that height and hold the
entries or slots (`BTree.Depicts`, `QTree.Depicts`), and if what each reference says that it covers
is what lies beneath.
-/

namespace PageTree

open StoreM

/-! ## Pages -/

/-- A body with the keys of a node of a B-tree is that of a node. -/
theorem PageBody.btreeNode_of_shape {γ : Type} {body : PageBody γ} {keys : List Value}
    (hshape : body.shape = .btreeNode (keys.map fun key => (key, ()))) :
    ∃ children, body = .btreeNode children ∧ children.map Prod.fst = keys := by
  cases body with
  | btreeNode children =>
      refine ⟨children, rfl, ?_⟩
      simp only [shape, map, btreeNode.injEq] at hshape
      simpa [Function.comp_def] using congrArg (List.map Prod.fst) hshape
  | _ => cases hshape

/-- The picture of a new page. -/
def LivePage.picture (p : LivePage) (beneath : List Picture) : Picture :=
  .of p.stem p.body.shape p.stored.extent .absent beneath

/-- A reference to a new page is as the picture of the page shows it. -/
theorem PageRef.ofPage_sees {sure : Prop} {g : Gallery} {p : LivePage} {beneath : List Picture}
    (hsound : g.Sound sure) (hbeneath : List.Forall₂ g.shows p.children beneath) :
    Yields sure (PageRef.ofPage p .absent) g fun r g' =>
      g'.shows r (p.picture beneath) ∧ g'.Sees r (p.picture beneath) p := by
  have hdraws : p.Draws g.shows (p.picture beneath) := ⟨rfl, rfl, hbeneath⟩
  refine Yielding.bind (copyOf_yields hsound p) ?_
  rintro copy g' hle hsound' ⟨rfl, hshows⟩
  have hmeasures := Header.measures_ofPage copy.page.stored .absent
  have hdraws' : copy.page.Draws g'.shows (copy.page.picture beneath) := hshows ▸ hdraws
  refine Yielding.mono (create_yields hsound' _ _ (Page.treeKind_of_shape_eq hdraws.shape)
    hdraws.stem rfl rfl (fun _ => ⟨copy, rfl⟩) ?_ nofun) ?_
  · rintro copy' ⟨⟩
    exact ⟨hdraws', hmeasures⟩
  · rintro r g'' hle' - ⟨hheader, hr⟩
    exact ⟨hr, hdraws'.mono hle'.shows, hheader ▸ hmeasures⟩

/-- The spans of children count what lies beneath them. -/
theorem Page.span_of_parts {α : Type} {p : LivePage} {parts : List (List α)}
    (hnode : p.isNode = true)
    (hspans : List.Forall₂ (fun m part => m.span = part.length) p.children parts) :
    p.stored.span = parts.flatten.length := by
  have hsum : ∀ {ms : List PageRef} {parts : List (List α)},
      List.Forall₂ (fun m part => m.span = part.length) ms parts →
        (ms.map PageRef.span).sum = parts.flatten.length := by
    intro ms parts hspans
    induction hspans with
    | nil => rfl
    | cons hspan _ ih =>
        rw [List.map_cons, List.sum_cons, ih, hspan, List.flatten_cons, List.length_append]
  rw [← hsum hspans, Page.span_eq_sum, stored, if_pos (by simpa using hnode), Page.map_children,
    List.map_map]
  rfl

/-! ## Sites -/

namespace Chart.Pictured

variable {c : Chart} {n : Site} {p : Page Site} {t : Picture}

theorem extent_eq (hpictured : c.Pictured n t) : t.extent = n.header.extent := by
  cases hpictured
  rfl

theorem shape_eq (hpictured : c.Pictured n t) (hpage : c.page n = some p) :
    t.shape = p.body.shape := by
  cases hpictured with
  | of found _ =>
      cases found.symm.trans hpage
      rfl

/-- The children of a site have the pictures beneath. -/
theorem children (hpictured : c.Pictured n t) (hpage : c.page n = some p) :
    List.Forall₂ (fun m t => m ∈ p.children ∧ c.Pictured m t) p.children t.beneath := by
  cases hpictured with
  | of found children =>
      cases found.symm.trans hpage
      exact (List.forall₂_and_left _ _).2 ⟨fun m hm => hm, children⟩

end Chart.Pictured

/-! ## B-trees -/

namespace BTree

variable {g g' : Gallery} {stem height height' version : Nat} {t t' : Picture} {r r' : PageRef}
  {es es' : List Entry} {p : LivePage}

/-- Children are keyed if their keys are the first ones of their parts. -/
theorem keyed_iff {γ : Type} {P : γ → List Entry → Prop} {children : List (Value × γ)}
    {parts : List (List Entry)} : Keyed P children parts ↔
      List.Forall₂ (fun key part => part.head?.map Prod.fst = some key)
        (children.map Prod.fst) parts ∧ List.Forall₂ P (children.map Prod.snd) parts := by
  constructor
  · intro hkeyed
    exact ⟨List.forall₂_map_left_iff.2 (List.Forall₂.imp (fun _ _ h => h.1) hkeyed),
      hkeyed.beneath⟩
  · rintro ⟨hkeys, hbeneath⟩
    rw [List.forall₂_map_left_iff] at hkeys hbeneath
    induction hkeys with
    | nil => exact List.Forall₂.nil
    | cons hkey _ ih =>
        obtain ⟨hchild, hrest⟩ := List.forall₂_cons.1 hbeneath
        exact List.Forall₂.cons ⟨hkey, hchild⟩ (ih hrest)

/-- What a picture says of a B-tree beneath it. -/
structure Heads (stem : Nat) (t : Picture) (es : List Entry) : Prop where
  stem_eq : t.stem = stem
  span_eq : t.extent.1 = es.length
  sorted : Entries.Sorted es

/-- The picture is of a B-tree of a height with sorted entries. -/
def Depicts (stem : Nat) : (height : Nat) → Picture → List Entry → Prop
  | 0, t, es => Heads stem t es ∧ t.shape = .btreeLeaf es
  | height + 1, t, es => Heads stem t es ∧ ∃ keys parts,
      t.shape = .btreeNode (keys.map fun key => (key, ())) ∧
      List.Forall₂ (fun key part => part.head?.map Prod.fst = some key) keys parts ∧
      List.Forall₂ (Depicts stem height) t.beneath parts ∧ es = parts.flatten

theorem Depicts.heads (hdepicts : Depicts stem height t es) : Heads stem t es := by
  cases height <;> exact hdepicts.1

/-- The entries beneath a picture are determined. -/
theorem Depicts.unique {stem' : Nat} (hdepicts : Depicts stem height t es)
    (hdepicts' : Depicts stem' height' t es') : es = es' := by
  induction height generalizing height' t es es' with
  | zero =>
      obtain ⟨-, hshape⟩ := hdepicts
      cases height' with
      | zero =>
          obtain ⟨-, hshape'⟩ := hdepicts'
          cases hshape.symm.trans hshape'
          rfl
      | succ height' =>
          obtain ⟨-, keys, parts, hshape', -⟩ := hdepicts'
          cases hshape.symm.trans hshape'
  | succ height ih =>
      obtain ⟨-, keys, parts, hshape, -, hbeneath, rfl⟩ := hdepicts
      cases height' with
      | zero =>
          obtain ⟨-, hshape'⟩ := hdepicts'
          cases hshape.symm.trans hshape'
      | succ height' =>
          obtain ⟨-, keys', parts', -, -, hbeneath', rfl⟩ := hdepicts'
          have hparts : List.Forall₂ Eq parts parts' :=
            forall₂_join hbeneath hbeneath' fun _ _ _ => ih
          rw [List.forall₂_eq_eq_eq] at hparts
          rw [hparts]

/-- What galleries say of subtrees; versions do not matter to them. -/
def Shown (g : Gallery) : Judgment :=
  fun height stem _ r es => ∃ t, g.shows r t ∧ Depicts stem height t es

theorem Shown.mono (hle : g ≤ g') (hshown : Shown g height stem version r es) :
    Shown g' height stem version r es := by
  obtain ⟨t, hr, hdepicts⟩ := hshown
  exact ⟨t, hle.shows r t hr, hdepicts⟩

theorem Shown.span {sure : Prop} (hsound : g.Sound sure)
    (hshown : Shown g height stem version r es) : r.span = es.length := by
  obtain ⟨t, hr, hdepicts⟩ := hshown
  exact (congrArg Prod.fst (hsound.tells hr).extent).trans hdepicts.heads.span_eq

/-- What is beneath a reference, seen at its page. -/
theorem Depicts.pageHolds (hdepicts : Depicts stem height t es) (hdraws : p.Draws g.shows t) :
    PageHolds (Shown g) height p es := by
  have hstem : p.stem = stem := hdraws.stem.trans hdepicts.heads.stem_eq
  have hshape := hdraws.shape
  have hchildren := hdraws.children
  obtain ⟨v, stem', body⟩ := p
  subst hstem
  cases height with
  | zero =>
      obtain ⟨-, hleaf⟩ := hdepicts
      rw [hleaf] at hshape
      cases body <;> cases hshape
      rfl
  | succ height =>
      obtain ⟨-, keys, parts, hnode, hkeys, hbeneath, rfl⟩ := hdepicts
      obtain ⟨children, rfl, rfl⟩ := PageBody.btreeNode_of_shape (hshape.trans hnode)
      refine ⟨children, parts, rfl, keyed_iff.2 ⟨hkeys, ?_⟩, rfl⟩
      exact forall₂_comp hchildren hbeneath fun _ _ t _ hr hdepicts => ⟨t, hr, hdepicts⟩

/-- What a page holds is beneath the picture of the page. -/
theorem PageHolds.depicts {sure : Prop} (hsound : g.Sound sure) (hsorted : Entries.Sorted es)
    (hholds : PageHolds (Shown g) height p es) :
    ∃ beneath, List.Forall₂ g.shows p.children beneath ∧
      Depicts p.stem height (p.picture beneath) es := by
  obtain ⟨v, stem, body⟩ := p
  cases height with
  | zero =>
      cases hholds
      exact ⟨[], List.Forall₂.nil, ⟨rfl, rfl, hsorted⟩, rfl⟩
  | succ height =>
      obtain ⟨children, parts, rfl, hkeyed, rfl⟩ := hholds
      obtain ⟨hkeys, hshown⟩ := keyed_iff.1 hkeyed
      obtain ⟨beneath, hbeneath, hdepicts⟩ := exists_forall₂_between hshown
      refine ⟨beneath, hbeneath, ⟨rfl, ?_, hsorted⟩, children.map Prod.fst, parts, ?_, hkeys,
        hdepicts, rfl⟩
      · exact Page.span_of_parts (p := ⟨v, stem, .btreeNode children⟩) rfl
          (hshown.imp fun _ _ => Shown.span hsound)
      · simp [LivePage.picture, Picture.shape, PageBody.shape, PageBody.map, Function.comp_def]

/-- Sound galleries; what is asked of an operation is that it keeps the pictures if it comes to a
result. -/
instance : Realm Gallery where
  Represents s g := g.store = s ∧ g.Sound False
  Grows s g s' g' := g.store = s ∧ g'.store = s' ∧ g ≤ g' ∧ g'.Sound False
  Runs act s g post := g.store = s ∧ Yields False act g fun a g' => post a g'.store g'
  Subtree := Shown
  PageAt g r p := ∃ t, g.Sees r t p
  Below _ _ := True
  grows_refl hrep := ⟨hrep.1, hrep.1, Gallery.le_refl _, hrep.2⟩
  grows_trans hgrows hgrows' :=
    ⟨hgrows.1, hgrows'.2.1, Gallery.le_trans hgrows.2.2.1 hgrows'.2.2.1, hgrows'.2.2.2⟩
  represents hgrows := ⟨hgrows.2.1, hgrows.2.2.2⟩
  pure := by
    rintro α a s g P ⟨rfl, hsound⟩ hpost
    exact ⟨rfl, Yielding.pure hsound hpost⟩
  bind := by
    rintro α β act f s g P Q ⟨rfl, hact⟩ hf
    exact ⟨rfl, Yielding.bind hact fun a g' hle hsound hpost =>
      (hf a g'.store g' ⟨rfl, rfl, hle, hsound⟩ hpost).2⟩
  mono := by
    rintro α act s g P Q ⟨rfl, hact⟩ himp
    exact ⟨rfl, Yielding.mono hact fun a g' hle hsound hpost =>
      himp a g'.store g' ⟨rfl, rfl, hle, hsound⟩ hpost⟩
  get := by
    rintro β f s g Q ⟨rfl, hf⟩
    exact ⟨rfl, Yielding.get hf⟩
  below_refl _ := trivial
  subtree_grows hgrows := Shown.mono hgrows.2.2.1
  subtree_raise hshown _ := hshown
  sorted hshown := by
    obtain ⟨t, -, hdepicts⟩ := hshown
    exact hdepicts.heads.sorted
  span hrep := Shown.span hrep.2
  stem hrep hshown := by
    obtain ⟨t, hr, hdepicts⟩ := hshown
    exact (hrep.2.tells hr).stem.trans hdepicts.heads.stem_eq
  same := by
    rintro s g height height' stem version r r' es es' hrep ⟨t, hr, hdepicts⟩
      ⟨t', hr', hdepicts'⟩ hsame
    obtain ⟨-, rfl⟩ := hrep.2.unique hr hr' (by simpa [PageRef.same] using hsame)
    exact hdepicts.unique hdepicts'
  treeSize_lt _ _ hpage hm := by
    obtain ⟨t, hsees⟩ := hpage
    exact hsees.treeSize_lt hm
  page_runs := by
    rintro s g height stem version r es ⟨rfl, hsound⟩ ⟨t, hr, hdepicts⟩
    refine ⟨rfl, Yielding.mono (PageRef.page_yields hsound hr) ?_⟩
    intro p g' _ _ hsees
    exact ⟨⟨t, hsees⟩, hsees.draws.stem.trans hdepicts.heads.stem_eq, trivial,
      hdepicts.pageHolds hsees.draws⟩
  ofPage_runs := by
    rintro s g height p es ⟨rfl, hsound⟩ hsorted hholds
    obtain ⟨beneath, hbeneath, hdepicts⟩ := hholds.depicts hsound hsorted
    refine ⟨rfl, Yielding.mono (PageRef.ofPage_sees hsound hbeneath) ?_⟩
    rintro r g' - - ⟨hr, hsees⟩
    exact ⟨⟨_, hr, hdepicts⟩, _, hsees⟩

/-! ### Charts -/

theorem Holds.heads {c : Chart} {n : Site} {q : Page Site} (hsound : c.Sound n)
    (hpage : c.page n = some q) (hpictured : c.Pictured n t) (hholds : Holds c height n es) :
    Heads q.stem t es where
  stem_eq := (hpictured.kind_eq hpage).2
  span_eq := hpictured.extent_eq ▸ hholds.span hsound.measured
  sorted := hholds.sorted

/-- The picture of a site shows what lies beneath it. -/
theorem Holds.depicts {c : Chart} {n : Site} {q : Page Site} (hsound : c.Sound n)
    (hpage : c.page n = some q) (hpictured : c.Pictured n t) (hholds : Holds c height n es) :
    Depicts q.stem height t es := by
  induction height generalizing n q t es with
  | zero =>
      have hheads := hholds.heads hsound hpage hpictured
      obtain ⟨-, p, hp, hbody⟩ := hholds
      cases hp.symm.trans hpage
      exact ⟨hheads, by rw [hpictured.shape_eq hpage, hbody]; rfl⟩
  | succ height ih =>
      have hheads := hholds.heads hsound hpage hpictured
      obtain ⟨-, p, sites, parts, hp, hbody, hkeyed, rfl⟩ := hholds
      cases hp.symm.trans hpage
      obtain ⟨hkeys, hbeneath⟩ := keyed_iff.1 hkeyed
      have hchildren : q.children = sites.map Prod.snd := by rw [Page.children_eq, hbody]; rfl
      refine ⟨hheads, sites.map Prod.fst, parts, ?_, hkeys, ?_, rfl⟩
      · rw [hpictured.shape_eq hpage, hbody]
        simp [PageBody.shape, PageBody.map, Function.comp_def]
      · rw [← hchildren] at hbeneath
        refine forall₂_join (hpictured.children hpage) hbeneath fun m t part hm hpart => ?_
        obtain ⟨q', hq', hcovers⟩ := hsound.covers hpage hm.1
        exact hcovers.stem ▸ ih (hsound.child hpage hm.1) hq' hm.2 hpart

theorem Realm.represents_gallery {s : Store} {c : Chart} (hrep : PageTree.Represents s c) :
    Realm.Represents s (c.gallery s) :=
  ⟨rfl, hrep.gallery_sound False.elim⟩

/-- A tree that a chart has is shown to have the same entries. -/
theorem Root.shown {s : Store} {c : Chart} {version' : Nat} (hrep : Represents s c)
    (hroot : Root c stem version r es) : Root (c.gallery s) stem version' r es := by
  obtain ⟨height, hfit, hholds⟩ := hroot
  have hsound := hrep.sound r hfit.refs
  obtain ⟨t, ht⟩ := hsound.exists_pictured
  obtain ⟨q, hq, -, rfl, -⟩ := hfit.page
  exact ⟨height, t, ⟨hfit.refs, ht⟩, hholds.depicts hsound hq ht⟩

end BTree

/-! ## Q-trees -/

namespace QTree

open Slots

variable {g g' : Gallery} {stem height height' version : Nat} {t t' : Picture} {r r' : PageRef}
  {slots slots' : List Slot} {p : LivePage}

/-- What a picture says of a Q-tree beneath it. -/
structure Heads (stem : Nat) (t : Picture) (slots : List Slot) : Prop where
  stem_eq : t.stem = stem
  span_eq : t.extent.1 = slots.length
  /-- The tiles are the smallest around the points. -/
  around : slots ≠ [] → (∀ slot ∈ slots, (Point.ofSlot slot).Valid) → ∀ h : Header,
    h.extent = t.extent → Around h slots

/-- The picture is of a Q-tree of a height with slots. -/
def Depicts (stem : Nat) : (height : Nat) → Picture → List Slot → Prop
  | 0, t, slots => Heads stem t slots ∧ Sorted slots ∧ t.shape = .qtreeLeaf slots
  | height + 1, t, slots => Heads stem t slots ∧ ∃ parts,
      t.shape = .qtreeNode (t.beneath.map fun _ => ()) ∧
      Filled (Depicts stem height) t.beneath parts ∧ slots = parts.flatten

theorem Depicts.heads (hdepicts : Depicts stem height t slots) : Heads stem t slots := by
  cases height <;> exact hdepicts.1

/-- The slots beneath a picture are determined. -/
theorem Depicts.unique {stem' : Nat} (hdepicts : Depicts stem height t slots)
    (hdepicts' : Depicts stem' height' t slots') : slots = slots' := by
  induction height generalizing height' t slots slots' with
  | zero =>
      obtain ⟨-, -, hshape⟩ := hdepicts
      cases height' with
      | zero =>
          obtain ⟨-, -, hshape'⟩ := hdepicts'
          cases hshape.symm.trans hshape'
          rfl
      | succ height' =>
          obtain ⟨-, parts, hshape', -⟩ := hdepicts'
          cases hshape.symm.trans hshape'
  | succ height ih =>
      obtain ⟨-, parts, hshape, hbeneath, rfl⟩ := hdepicts
      cases height' with
      | zero =>
          obtain ⟨-, -, hshape'⟩ := hdepicts'
          cases hshape.symm.trans hshape'
      | succ height' =>
          obtain ⟨-, parts', -, hbeneath', rfl⟩ := hdepicts'
          have hparts : List.Forall₂ Eq parts parts' :=
            forall₂_join hbeneath hbeneath' fun _ _ _ hpart hpart' => ih hpart.2 hpart'.2
          rw [List.forall₂_eq_eq_eq] at hparts
          rw [hparts]

/-- What galleries say of subtrees; versions do not matter to them. -/
def Shown (g : Gallery) : Judgment :=
  fun height stem _ r slots => ∃ t, g.shows r t ∧ Depicts stem height t slots

namespace Shown

variable {sure : Prop}

theorem mono (hle : g ≤ g') (hshown : Shown g height stem version r slots) :
    Shown g' height stem version r slots := by
  obtain ⟨t, hr, hdepicts⟩ := hshown
  exact ⟨t, hle.shows r t hr, hdepicts⟩

theorem span (hsound : g.Sound sure) (hshown : Shown g height stem version r slots) :
    r.span = slots.length := by
  obtain ⟨t, hr, hdepicts⟩ := hshown
  exact (congrArg Prod.fst (hsound.tells hr).extent).trans hdepicts.heads.span_eq

theorem around (hsound : g.Sound sure) (hshown : Shown g height stem version r slots)
    (hne : slots ≠ []) (hvalid : ∀ slot ∈ slots, (Point.ofSlot slot).Valid) :
    Around r.header slots := by
  obtain ⟨t, hr, hdepicts⟩ := hshown
  exact hdepicts.heads.around hne hvalid _ (hsound.tells hr).extent

end Shown

/-- What is beneath a reference, seen at its page. -/
theorem Depicts.pageHolds (hdepicts : Depicts stem height t slots) (hdraws : p.Draws g.shows t) :
    PageHolds (Shown g) height p slots := by
  have hstem : p.stem = stem := hdraws.stem.trans hdepicts.heads.stem_eq
  have hshape := hdraws.shape
  have hchildren := hdraws.children
  obtain ⟨v, stem', body⟩ := p
  subst hstem
  cases height with
  | zero =>
      obtain ⟨-, hsorted, hleaf⟩ := hdepicts
      rw [hleaf] at hshape
      cases body <;> cases hshape
      exact ⟨hsorted, rfl⟩
  | succ height =>
      obtain ⟨-, parts, hnode, hfilled, rfl⟩ := hdepicts
      rw [hnode] at hshape
      cases body with
      | qtreeNode children =>
          refine ⟨children, parts, rfl, ?_, rfl⟩
          exact forall₂_comp hchildren hfilled fun _ _ t _ hr hpart => ⟨hpart.1, t, hr, hpart.2⟩
      | _ => cases hshape

/-- What a page holds is beneath the picture of the page. -/
theorem PageHolds.depicts {sure : Prop} (hsound : g.Sound sure)
    (hholds : PageHolds (Shown g) height p slots) :
    ∃ beneath, List.Forall₂ g.shows p.children beneath ∧
      Depicts p.stem height (p.picture beneath) slots := by
  obtain ⟨v, stem, body⟩ := p
  cases height with
  | zero =>
      obtain ⟨hsorted, rfl⟩ := hholds
      refine ⟨[], List.Forall₂.nil, ⟨rfl, rfl, fun hne hvalid h hextent => ?_⟩, hsorted, rfl⟩
      exact around_of_slots hne hvalid (congrArg Prod.snd hextent)
  | succ height =>
      obtain ⟨children, parts, rfl, hfilled, rfl⟩ := hholds
      have hshown : List.Forall₂ (fun m part => ∃ t, g.shows m t ∧
          part ≠ [] ∧ Depicts stem height t part) children parts :=
        List.Forall₂.imp (fun _ _ ⟨hne, t, hr, hdepicts⟩ => ⟨t, hr, hne, hdepicts⟩) hfilled
      obtain ⟨beneath, hbeneath, hdepicts⟩ := exists_forall₂_between hshown
      refine ⟨beneath, hbeneath, ⟨rfl, ?_, fun hne hvalid h hextent => ?_⟩, parts, ?_, hdepicts,
        rfl⟩
      · exact Page.span_of_parts (p := ⟨v, stem, .qtreeNode children⟩) rfl
          (List.Forall₂.imp (fun _ _ hpart => Shown.span hsound hpart.2) hfilled)
      · have hheaders : children.map PageRef.header ≠ [] := by
          rwa [Ne, List.map_eq_nil_iff, ← hfilled.flatten_eq_nil]
        refine around_of_headers hheaders (hfilled.around PageRef.header hvalid ?_)
          (congrArg Prod.snd hextent)
        exact fun m _ part hpart => hpart.around hsound
      · simp [LivePage.picture, Picture.shape, Picture.beneath, PageBody.shape, PageBody.map,
          hbeneath.length_eq]

/-- Sound galleries, of which the same is asked for Q-trees as for B-trees. -/
instance : Terrain Gallery where
  toRealm := inferInstance
  Branch := Shown
  branch_grows hgrows := Shown.mono hgrows.2.2.1
  branch_raise hshown _ := hshown
  branch_span hrep := Shown.span hrep.2
  branch_around hrep := Shown.around hrep.2
  branch_stem hrep hshown := by
    obtain ⟨t, hr, hdepicts⟩ := hshown
    exact (hrep.2.tells hr).stem.trans hdepicts.heads.stem_eq
  branch_same := by
    rintro s g height height' stem version r r' slots slots' hrep ⟨t, hr, hdepicts⟩
      ⟨t', hr', hdepicts'⟩ hsame
    obtain ⟨-, rfl⟩ := hrep.2.unique hr hr' (by simpa [PageRef.same] using hsame)
    exact hdepicts.unique hdepicts'
  branch_treeSize_lt _ _ hpage hm := by
    obtain ⟨t, hsees⟩ := hpage
    exact hsees.treeSize_lt hm
  branch_page := by
    rintro s g height stem version r slots ⟨rfl, hsound⟩ ⟨t, hr, hdepicts⟩
    refine ⟨rfl, Yielding.mono (PageRef.page_yields hsound hr) ?_⟩
    intro p g' _ _ hsees
    exact ⟨⟨t, hsees⟩, hsees.draws.stem.trans hdepicts.heads.stem_eq, trivial,
      hdepicts.pageHolds hsees.draws⟩
  branch_ofPage := by
    rintro s g height p slots ⟨rfl, hsound⟩ hholds
    obtain ⟨beneath, hbeneath, hdepicts⟩ := hholds.depicts hsound
    refine ⟨rfl, Yielding.mono (PageRef.ofPage_sees hsound hbeneath) ?_⟩
    rintro r g' - - ⟨hr, hsees⟩
    exact ⟨⟨_, hr, hdepicts⟩, _, hsees⟩

/-! ### Charts -/

theorem Around.of_extent_eq {h k : Header} (haround : Around h slots)
    (heq : k.extent = h.extent) : Around k slots := by
  have hx : k.x = h.x := congrArg (·.2.1) heq
  have hy : k.y = h.y := congrArg (·.2.2) heq
  exact ⟨hx ▸ haround.x, hy ▸ haround.y⟩

theorem Holds.heads {c : Chart} {n : Site} {q : Page Site} (hsound : c.Sound n)
    (hpage : c.page n = some q) (hpictured : c.Pictured n t) (hholds : Holds c height n slots) :
    Heads q.stem t slots where
  stem_eq := (hpictured.kind_eq hpage).2
  span_eq := hpictured.extent_eq ▸ hholds.span hsound.measured
  around hne hvalid _ hextent := (hholds.around hsound.measured hne hvalid).of_extent_eq
    (hextent.trans hpictured.extent_eq)

/-- The picture of a site shows what lies beneath it. -/
theorem Holds.depicts {c : Chart} {n : Site} {q : Page Site} (hsound : c.Sound n)
    (hpage : c.page n = some q) (hpictured : c.Pictured n t) (hholds : Holds c height n slots) :
    Depicts q.stem height t slots := by
  induction height generalizing n q t slots with
  | zero =>
      have hheads := hholds.heads hsound hpage hpictured
      obtain ⟨hsorted, p, hp, hbody⟩ := hholds
      cases hp.symm.trans hpage
      exact ⟨hheads, hsorted, by rw [hpictured.shape_eq hpage, hbody]; rfl⟩
  | succ height ih =>
      have hheads := hholds.heads hsound hpage hpictured
      obtain ⟨p, sites, parts, hp, hbody, hfilled, rfl⟩ := hholds
      cases hp.symm.trans hpage
      have hchildren : q.children = sites := by rw [Page.children_eq, hbody]; rfl
      have hbeneath := hpictured.children hpage
      refine ⟨hheads, parts, ?_, ?_, rfl⟩
      · rw [hpictured.shape_eq hpage, hbody]
        rw [hchildren] at hbeneath
        simp [PageBody.shape, PageBody.map, hbeneath.length_eq]
      · rw [← hchildren] at hfilled
        refine forall₂_join hbeneath hfilled fun m t part hm hpart => ⟨hpart.1, ?_⟩
        obtain ⟨q', hq', hcovers⟩ := hsound.covers hpage hm.1
        exact hcovers.stem ▸ ih (hsound.child hpage hm.1) hq' hm.2 hpart.2

/-- A tree that a chart has is shown to have the same slots. -/
theorem Root.shown {s : Store} {c : Chart} {version' : Nat} (hrep : Represents s c)
    (hroot : Root c stem version r slots) : Root (c.gallery s) stem version' r slots := by
  obtain ⟨height, slots', ⟨hfit, hholds⟩, hperm⟩ := hroot
  have hsound := hrep.sound r hfit.refs
  obtain ⟨t, ht⟩ := hsound.exists_pictured
  obtain ⟨q, hq, -, rfl, -⟩ := hfit.page
  exact ⟨height, slots', ⟨t, ⟨hfit.refs, ht⟩, hholds.depicts hsound hq ht⟩, hperm⟩

end QTree
end PageTree
