import PageTree.Proofs.BTree.Neighbours
import PageTree.Proofs.Cache.Loaded
import PageTree.Proofs.Cursor.Together
import PageTree.Proofs.Posts.Reads

/-!
# What reads give does not depend on memory

What a read of a tree gives follows from the site of its root and from the pages that lie beneath:
there is one answer for all stores that are as a chart says, whichever of the pages they hold in
memory (`Query.exists_answer`).  The policies of all cursors go by the sites
(`Policy.Scans.decides`), and so calls of a cursor have one answer too.
-/

namespace PageTree

open StoreM

variable {ι : Type} {s s' : Store} {c c' : Chart} {n : Site} {version : Nat} {t t' : Tree}
  {content : Content}

namespace Query

/-- The read is one of trees of a kind. -/
def Suits (kind : TreeKind) : Query → Prop
  | find _ | contains _ | first | last | next _ | previous _ | indexOf _ | entry _ | entries =>
    kind = .btree
  | value => kind = .utree
  | valueAt _ _ _ | locate _ | tiles | region _ _ => kind = .qtree

/-- The point that the read asks for, if any, lies in the plane. -/
def InPlane : Query → Prop
  | valueAt _ x y => x ≤ maxCoordinate ∧ y ≤ maxCoordinate
  | _ => True

end Query

/-! ## Items of a cursor -/

namespace Cursor

/-- A cursor that sifts yields the same items wherever the pages are found. -/
theorem exists_items {policy : Policy ι} {enters : Header → Bool}
    {slot : PageBody Unit → Nat → Option ι} (hsifts : policy.Sifts enters slot)
    (hsound : c.Sound n) :
    ∃ items, ∀ s' c' r, c ≤ c' → Represents s' c' → c'.refs r → r.site = n →
      Runs ((start r policy).items .forward) s' c' fun found _ _ => found = items := by
  obtain ⟨l, htours⟩ : ∃ l, ∀ parent index depth,
      c.Tours (.sifting enters slot) parent index depth n l := hsound.exists_tour
  have hlength := (htours none 0 0).length_le hsound
  refine ⟨l.filterMap Stretch.item?, ?_⟩
  rintro s' c' r hle hrep hr rfl
  apply items_tour_runs hrep hsifts.follows hr ((htours none 0 0).mono hsifts.follows hle)
  have hbound := lt_walkBound hrep.toMirrors hr 0
  rw [PageRef.header_site] at hlength
  change l.length ≤ r.treeSize at hlength
  omega

end Cursor

/-! ## Policies that go by the sites -/

namespace Policy

variable {base : Chart}

theorem Sifts.decides {policy : Policy ι} {enters : Header → Bool}
    {slot : PageBody Unit → Nat → Option ι} (hsifts : policy.Sifts enters slot) :
    policy.Decides base where
  visit {n} _ above index depth := by
    refine ⟨.ofHeader enters n.header, ?_⟩
    rintro s c parent child - hrep - rfl -
    rw [hsifts.visit, PageRef.header_site]
    exact Runs.pure hrep rfl
  slot {page page'} index hpage := by
    have hshape := congrArg (fun p => p.body.shape) hpage
    simp only [Page.map_body, PageBody.shape_map] at hshape
    rw [hsifts.slot, hsifts.slot, hshape]

/-- The first key of a page with a shape. -/
def firstKeyOf : PageBody Unit → Value
  | .btreeLeaf slots => (slots.head?.map Prod.fst).getD .absent
  | .btreeNode children => (children.head?.map Prod.fst).getD .absent
  | _ => .absent

theorem firstKey_eq (p : LivePage) : BTree.firstKey p = firstKeyOf p.body.shape := by
  obtain ⟨version, stem, body⟩ := p
  cases body with
  | btreeNode children =>
      cases children <;> rfl
  | btreeLeaf | utreeLeaf | qtreeLeaf | qtreeNode => rfl

/-- The least key beneath a child with a page, given the page above it. -/
def leastKeyOf (above : Option (Page Site)) (index : Nat) (page : Page Site) : Value :=
  match above with
  | some ⟨_, _, .btreeNode children⟩ => (children[index]?.map Prod.fst).getD .absent
  | _ => firstKeyOf page.body.shape

theorem leastKey_runs (hrep : Represents s c) {parent : Option LivePage} {index : Nat}
    {child : PageRef} (hr : c.refs child) {p : Page Site} (hpage : c.page child.site = some p) :
    Runs (leastKey parent index child) s c
      fun key _ _ => key = leastKeyOf (parent.map (Page.map PageRef.site)) index p := by
  have hfirst : Runs (do return BTree.firstKey (← child.page)) s c
      fun key _ _ => key = firstKeyOf p.body.shape := by
    refine Runs.bind (PageRef.page_runs hrep hr) ?_
    rintro page s' c' hgrows ⟨hpage', -⟩
    rw [Chart.page_mono hgrows.le hpage] at hpage'
    obtain rfl := Option.some.inj hpage'
    rw [firstKey_eq]
    exact Runs.pure hgrows.represents (by simp)
  obtain _ | ⟨version, stem, body⟩ := parent
  · exact hfirst
  · cases body with
    | btreeNode children =>
        refine Runs.pure hrep ?_
        simp [leastKeyOf, Page.map, PageBody.map, Function.comp_def]
    | btreeLeaf | utreeLeaf | qtreeLeaf | qtreeNode => exact hfirst

theorem depthLimited_decides (maxDepth : Nat) : (depthLimited maxDepth).Decides base where
  visit {n} hsound above index depth := by
    obtain ⟨p, hp⟩ := hsound.page
    by_cases hdeep : (decide (depth < maxDepth) || !n.header.fold.isDefined) = true
    · refine ⟨.descend, ?_⟩
      rintro s c parent child - hrep - rfl -
      rw [PageRef.header_site] at hdeep
      have hvisit : (depthLimited maxDepth).visit parent index child depth = pure .descend :=
        if_pos hdeep
      rw [hvisit]
      exact Runs.pure hrep rfl
    · refine ⟨.emit (leastKeyOf above index p, n.header.fold), ?_⟩
      rintro s c parent child hle hrep hr rfl rfl
      rw [PageRef.header_site] at hdeep ⊢
      have hvisit : (depthLimited maxDepth).visit parent index child depth =
          (do return .emit (← leastKey parent index child, child.fold)) := if_neg hdeep
      rw [hvisit]
      refine Runs.bind (leastKey_runs hrep hr (Chart.page_mono hle hp)) ?_
      rintro _ s' c' hgrows rfl
      exact Runs.pure hgrows.represents rfl
  slot {page page'} index hpage := by
    have hshape := congrArg (fun p => p.body.shape) hpage
    simp only [Page.map_body, PageBody.shape_map] at hshape
    exact (entries_yieldsAll.slot page' index).trans
      (hshape ▸ (entries_yieldsAll.slot page index).symm)

/-- The version of the page of a child, from memory or else from the page. -/
def versionOf (child : PageRef) : StoreM Nat := do
  match ← child.knownVersion with
  | some version => return version
  | none => return (← child.page).version

/-- The version that memory has of a page is that of the page, so both ways give the same. -/
theorem versionOf_runs (hrep : Represents s c) {child : PageRef} (hr : c.refs child)
    {p : Page Site} (hpage : c.page child.site = some p) :
    Runs (versionOf child) s c fun version _ _ => version = p.version := by
  apply Runs.get
  cases hknown : (s.cell child.id).version with
  | some version => exact Runs.pure hrep (hrep.dated child version p hr hknown hpage).symm
  | none =>
      refine Runs.bind (PageRef.page_runs hrep hr) ?_
      rintro page s' c' hgrows ⟨hpage', -⟩
      rw [Chart.page_mono hgrows.le hpage] at hpage'
      obtain rfl := Option.some.inj hpage'
      exact Runs.pure hgrows.represents (by simp)

/-- A delta passes over what is not newer than its version. -/
theorem delta_visit (policy : Policy ι) (since : Nat) (parent : Option LivePage) (index : Nat)
    (child : PageRef) (depth : Nat) :
    (policy.delta since).visit parent index child depth = (do
      if (← versionOf child) ≤ since then return .skip
      else policy.visit parent index child depth) := by
  simp only [Policy.delta, versionOf, bind_assoc]
  congr 1
  funext known
  cases known <;> simp

theorem Decides.delta {policy : Policy ι} (hdecides : policy.Decides base) (since : Nat) :
    (policy.delta since).Decides base where
  visit {n} hsound above index depth := by
    obtain ⟨p, hp⟩ := hsound.page
    obtain ⟨decision, hdecide⟩ := hdecides.visit hsound above index depth
    refine ⟨if p.version ≤ since then .skip else decision, ?_⟩
    rintro s c parent child hle hrep hr rfl rfl
    rw [delta_visit]
    refine Runs.bind (versionOf_runs hrep hr (Chart.page_mono hle hp)) ?_
    rintro _ s' c' hgrows rfl
    split
    · exact Runs.pure hgrows.represents rfl
    · exact hdecide (Chart.le_trans hle hgrows.le) hgrows.represents (hgrows.le.refs child hr)
        rfl rfl
  slot := hdecides.slot

/-- The policies of the cursors over the trees of a kind. -/
inductive Scans [PageLoader] : {ι : Type} → Policy ι → TreeKind → Prop where
  | entries : Scans entries .btree
  | depthLimited (maxDepth : Nat) : Scans (depthLimited maxDepth) .btree
  | delta (since : Nat) : Scans (delta since entries) .btree
  | tiles : Scans tiles .qtree
  | region (x y : Tile) : Scans (region x y) .qtree

theorem Scans.decides {policy : Policy ι} {kind : TreeKind} (hscans : policy.Scans kind) :
    policy.Decides base := by
  cases hscans with
  | entries => exact entries_yieldsAll.sifts.decides
  | depthLimited maxDepth => exact depthLimited_decides maxDepth
  | delta since => exact entries_yieldsAll.sifts.decides.delta since
  | tiles => exact tiles_yieldsAll.sifts.decides
  | region x y => exact (region_sifts x y).decides

end Policy

/-! ## Answers -/

/-- A read of a point beyond the plane is refused before it does anything. -/
theorem Query.exists_refusal {query : Query} (hbeyond : ¬ query.InPlane) :
    ∃ e, ∀ t s, exec (query.run t) s = (.error e, s) := by
  cases query with
  | valueAt key x y =>
      have hbeyond : maxCoordinate < x ∨ maxCoordinate < y := by
        rw [InPlane] at hbeyond
        omega
      have hrefused : ∃ e, Point.ofCoordinates x y = .error e :=
        ⟨_, if_pos hbeyond⟩
      obtain ⟨e, hrefused⟩ := hrefused
      refine ⟨e, fun t s => ?_⟩
      show exec (QTree.get? t key x y) s = _
      rw [QTree.get?, QTree.pointAt, hrefused]
      rfl
  | _ => exact absurd trivial hbeyond

/-- A read has one answer for all stores that are as a chart says, and all references that stand
for the root. -/
theorem Query.exists_answer (hsound : c.Sound n) (query : Query)
    (hsuits : query.Suits content.kind) (hplane : query.InPlane) :
    ∃ a, ∀ s' c' t', c ≤ c' → Represents s' c' → c'.Has version t' content → t'.root.site = n →
      Runs (query.run t') s' c' fun found _ _ => found = a := by
  -- a descent has the answer of the content, and a scan has that of the chart
  cases query with
  | find key =>
      cases content <;> cases hsuits
      next es => exact ⟨Listing.lookup key es, fun s' c' t' _ hrep hhas _ =>
        BTree.find_runs hrep key (BTree.Contains.root hhas)⟩
  | contains key =>
      cases content <;> cases hsuits
      next es =>
        refine ⟨(Listing.lookup key es).isSome, fun s' c' t' _ hrep hhas _ => ?_⟩
        apply Runs.bind (BTree.find_runs hrep key (BTree.Contains.root hhas))
        rintro found s'' c'' hgrows rfl
        exact Runs.pure hgrows.represents rfl
  | first =>
      cases content <;> cases hsuits
      next es => exact ⟨es.head?, fun s' c' t' _ hrep hhas _ =>
        BTree.first_runs hrep (BTree.Contains.root hhas)⟩
  | last =>
      cases content <;> cases hsuits
      next es => exact ⟨es.getLast?, fun s' c' t' _ hrep hhas _ =>
        BTree.last_runs hrep (BTree.Contains.root hhas)⟩
  | next key =>
      cases content <;> cases hsuits
      next es => exact ⟨Listing.next? key es, fun s' c' t' _ hrep hhas _ =>
        BTree.next_runs hrep key (BTree.Contains.root hhas)⟩
  | previous key =>
      cases content <;> cases hsuits
      next es => exact ⟨Listing.previous? key es, fun s' c' t' _ hrep hhas _ =>
        BTree.previous_runs hrep key (BTree.Contains.root hhas)⟩
  | indexOf key =>
      cases content <;> cases hsuits
      next es => exact ⟨Listing.indexOf? key es, fun s' c' t' _ hrep hhas _ =>
        BTree.indexOf_runs hrep key (BTree.Contains.root hhas)⟩
  | entry index =>
      cases content <;> cases hsuits
      next es => exact ⟨es[index]?, fun s' c' t' _ hrep hhas _ =>
        BTree.entry_runs hrep index (BTree.Contains.root hhas)⟩
  | entries =>
      obtain ⟨items, hitems⟩ := Cursor.exists_items Policy.entries_yieldsAll.sifts hsound
      exact ⟨items, fun s' c' t' hle hrep hhas hsite => hitems s' c' _ hle hrep hhas.fit.refs hsite⟩
  | value =>
      cases content <;> cases hsuits
      next value => exact ⟨value, fun s' c' t' _ hrep hhas _ => UTree.get_runs hrep hhas⟩
  | valueAt key x y =>
      cases content <;> cases hsuits
      next f => exact ⟨f.valueAt? key x y, fun s' c' t' _ hrep hhas _ =>
        QTree.get_runs hrep hhas key hplane.1 hplane.2⟩
  | locate key =>
      cases content <;> cases hsuits
      next f => exact ⟨ Plane.entry? f key, fun s' c' t' _ hrep hhas _ =>
        QTree.entry_runs hrep hhas key⟩
  | tiles =>
      obtain ⟨items, hitems⟩ := Cursor.exists_items Policy.tiles_yieldsAll.sifts hsound
      exact ⟨items, fun s' c' t' hle hrep hhas hsite => hitems s' c' _ hle hrep hhas.fit.refs hsite⟩
  | region x y =>
      obtain ⟨items, hitems⟩ := Cursor.exists_items (Policy.region_sifts x y) hsound
      exact ⟨items, fun s' c' t' hle hrep hhas hsite => hitems s' c' _ hle hrep hhas.fit.refs hsite⟩

end PageTree
