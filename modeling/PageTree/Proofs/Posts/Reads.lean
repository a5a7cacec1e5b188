import PageTree.Proofs.Posts.Listings
import PageTree.Proofs.Posts.Turns
import PageTree.Proofs.Posts.Unread

/-!
# Posts tell what zones are needed

The reads of trees that look for one thing go down from page to page (`Abreast.search`).  In a tree
that is clear of older zones each of them goes abreast of itself with other zones, although the
bounds on the depth that it takes from the zones differ.

The post of a reference is the oldest zone that its subtree needs, whatever a client has done; and
once a tree has been evacuated, the zones before the post may go: no `Query` of the tree of the
trunk sees that they have gone (`Solo.posts_tell_zones`).
-/

namespace PageTree

/-! ## Searches -/

section Searches

open StoreM

variable {α β σ : Type} {s : Store} {c : Chart} {z : Zones} {zone depth depth' : Nat} {r : PageRef}

/-! ## Going down -/

/-- A search abreast: what it does at a page it does with the searches beneath. -/
theorem Abreast.search {f : Nat → σ → PageRef → StoreM (Option β)}
    {g : Nat → σ → LivePage → StoreM (Option β)} (hrep : Represents s c)
    (hagree : Zones.AgreeFrom zone s.zones z)
    (hf : ∀ depth known r, f (depth + 1) known r = r.page >>= g depth known)
    (hg : ∀ depth depth' known p s' c', Represents s' c' →
      (∀ m ∈ p.children, ∀ known s'' c'', Grows s' c' s'' c'' →
        Abreast z (f depth known m) (f depth' known m) s'' c'' fun _ _ _ => True) →
      Abreast z (g depth known p) (g depth' known p) s' c' fun _ _ _ => True)
    (known : σ) (hr : c.refs r) (hclear : r.ClearOf zone) (hdepth : r.treeSize < depth)
    (hdepth' : r.treeSize < depth') :
    Abreast z (f depth known r) (f depth' known r) s c fun _ _ _ => True := by
  induction depth generalizing depth' known r s c with
  | zero => exact absurd hdepth (Nat.not_lt_zero _)
  | succ depth ih =>
      obtain ⟨depth', rfl⟩ := Nat.exists_eq_add_one_of_ne_zero (Nat.ne_zero_of_lt hdepth')
      rw [hf, hf]
      refine (PageRef.page_abreast hrep hr hclear hagree).bind ?_
      rintro p s' c' hgrows ⟨hpage, hchildren⟩
      refine hg depth depth' known p s' c' hgrows.represents fun m hm known s'' c'' hgrows' => ?_
      obtain ⟨hm', hclear'⟩ := hchildren m hm
      have hlt := hgrows.represents.treeSize_lt (hgrows.le.refs r hr) hpage hm
      have hzones := hgrows'.zones.trans hgrows.zones
      exact ih hgrows'.represents (hzones ▸ hagree) known (hgrows'.le.refs m hm') hclear'
        (by omega) (by omega)

/-! ## B-trees -/

namespace BTree

theorem childFor_mem {children : List (Value × PageRef)} {key : Value} {child : PageRef}
    (hfor : childFor? children key = some child) : child ∈ children.map Prod.snd := by
  obtain ⟨keyed, hkeyed, rfl⟩ := Option.map_eq_some_iff.1 hfor
  exact List.mem_map_of_mem (List.mem_of_getElem? hkeyed)

theorem childAt_mem {children : List PageRef} {index index' : Nat} {child : PageRef}
    (hat : childAt? children index = some (child, index')) : child ∈ children := by
  induction children generalizing index with
  | nil => cases hat
  | cons first children ih =>
      rw [childAt?] at hat
      split at hat
      · cases hat
        exact List.mem_cons_self
      · exact List.mem_cons_of_mem first (ih hat)

section Searches

variable (hrep : Represents s c) (hagree : Zones.AgreeFrom zone s.zones z) (hr : c.refs r)
  (hclear : r.ClearOf zone) (hdepth : r.treeSize < depth) (hdepth' : r.treeSize < depth')
include hrep hagree hr hclear hdepth hdepth'

theorem findWithin_abreast (key : Value) :
    Abreast z (findWithin key depth r) (findWithin key depth' r) s c fun _ _ _ => True := by
  refine Abreast.search (f := fun depth (_ : Unit) => findWithin key depth) hrep hagree
    (fun _ _ _ => rfl) ?_ () hr hclear hdepth hdepth'
  intro depth depth' _ p s' c' hrep' hbeneath
  split
  · exact .pure hrep' trivial
  · next children hbody =>
      cases hfor : childFor? children key with
      | none => exact .pure hrep' trivial
      | some child =>
          refine hbeneath child ?_ () s' c' (Grows.refl hrep')
          rw [Page.children_eq, hbody]
          exact childFor_mem hfor
  · exact .pure hrep' trivial

theorem indexWithin_abreast (key : Value) (offset : Nat) :
    Abreast z (indexWithin key depth offset r) (indexWithin key depth' offset r) s c
      fun _ _ _ => True := by
  refine Abreast.search (f := indexWithin key) hrep hagree (fun _ _ _ => rfl) ?_ offset hr hclear
    hdepth hdepth'
  intro depth depth' offset p s' c' hrep' hbeneath
  split
  · exact .pure hrep' trivial
  · next children hbody =>
      cases hfor : childFor? children key with
      | none => exact .pure hrep' trivial
      | some child =>
          refine hbeneath child ?_ _ s' c' (Grows.refl hrep')
          rw [Page.children_eq, hbody]
          exact childFor_mem hfor
  · exact .pure hrep' trivial

theorem entryWithin_abreast (index : Nat) :
    Abreast z (entryWithin depth r index) (entryWithin depth' r index) s c fun _ _ _ => True := by
  refine Abreast.search (f := fun depth index r => entryWithin depth r index) hrep hagree
    (fun _ _ _ => rfl) ?_ index hr hclear hdepth hdepth'
  intro depth depth' index p s' c' hrep' hbeneath
  split
  · exact .pure hrep' trivial
  · next children hbody =>
      cases hat : childAt? (children.map Prod.snd) index with
      | none => exact .pure hrep' trivial
      | some found =>
          refine hbeneath found.1 ?_ found.2 s' c' (Grows.refl hrep')
          rw [Page.children_eq, hbody]
          exact childAt_mem hat
  · exact .pure hrep' trivial

theorem firstWithin_abreast :
    Abreast z (firstWithin depth r) (firstWithin depth' r) s c fun _ _ _ => True := by
  refine Abreast.search (f := fun depth (_ : Unit) => firstWithin depth) hrep hagree
    (fun _ _ _ => rfl) ?_ () hr hclear hdepth hdepth'
  intro depth depth' _ p s' c' hrep' hbeneath
  split
  · exact .pure hrep' trivial
  · next children hbody =>
      cases hhead : children.head? with
      | none => exact .pure hrep' trivial
      | some child =>
          refine hbeneath child.2 ?_ () s' c' (Grows.refl hrep')
          rw [Page.children_eq, hbody]
          exact List.mem_map_of_mem (List.mem_of_mem_head? hhead)
  · exact .pure hrep' trivial

theorem lastWithin_abreast :
    Abreast z (lastWithin depth r) (lastWithin depth' r) s c fun _ _ _ => True := by
  refine Abreast.search (f := fun depth (_ : Unit) => lastWithin depth) hrep hagree
    (fun _ _ _ => rfl) ?_ () hr hclear hdepth hdepth'
  intro depth depth' _ p s' c' hrep' hbeneath
  split
  · exact .pure hrep' trivial
  · next children hbody =>
      cases hlast : children.getLast? with
      | none => exact .pure hrep' trivial
      | some child =>
          refine hbeneath child.2 ?_ () s' c' (Grows.refl hrep')
          rw [Page.children_eq, hbody]
          exact List.mem_map_of_mem (List.mem_of_mem_getLast? hlast)
  · exact .pure hrep' trivial

theorem nextWithin_abreast (key : Value) :
    Abreast z (nextWithin key depth r) (nextWithin key depth' r) s c fun _ _ _ => True := by
  refine Abreast.search (f := fun depth (_ : Unit) => nextWithin key depth) hrep hagree
    (fun _ _ _ => rfl) ?_ () hr hclear hdepth hdepth'
  intro depth depth' _ p s' c' hrep' hbeneath
  split
  · exact .pure hrep' trivial
  · next children hbody =>
      refine .findSomeM? hrep' _ fun child hchild => hbeneath child.2 ?_ ()
      rw [Page.children_eq, hbody]
      exact List.mem_map_of_mem (List.mem_of_mem_drop hchild)
  · exact .pure hrep' trivial

theorem previousWithin_abreast (key : Value) :
    Abreast z (previousWithin key depth r) (previousWithin key depth' r) s c
      fun _ _ _ => True := by
  refine Abreast.search (f := fun depth (_ : Unit) => previousWithin key depth) hrep hagree
    (fun _ _ _ => rfl) ?_ () hr hclear hdepth hdepth'
  intro depth depth' _ p s' c' hrep' hbeneath
  split
  · exact .pure hrep' trivial
  · next children hbody =>
      refine .findSomeM? hrep' _ fun child hchild => hbeneath child.2 ?_ ()
      rw [Page.children_eq, hbody]
      exact List.mem_map_of_mem (List.mem_of_mem_take (List.mem_reverse.1 hchild))
  · exact .pure hrep' trivial

end Searches

theorem entry_abreast (hrep : Represents s c) (hagree : Zones.AgreeFrom zone s.zones z)
    (hr : c.refs r) (hclear : r.ClearOf zone) (index : Nat) :
    Abreast z ( entry? r index) ( entry? r index) s c fun _ _ _ => True := by
  have hdepth := fun s : Store => indexedDepthBound_lt s r index
  unfold entry?
  split
  · exact .pure hrep trivial
  · exact .get (entryWithin_abreast hrep hagree hr hclear (hdepth _) (hdepth _) index)

end BTree

/-! ## Q-trees -/

namespace QTree

section Searches

variable (hrep : Represents s c) (hagree : Zones.AgreeFrom zone s.zones z) (hr : c.refs r)
  (hclear : r.ClearOf zone) (hdepth : r.treeSize < depth) (hdepth' : r.treeSize < depth')
include hrep hagree hr hclear hdepth hdepth'

theorem findWithin_abreast (key : Value) (point : Point) :
    Abreast z (findWithin key point depth r) (findWithin key point depth' r) s c
      fun _ _ _ => True := by
  refine Abreast.search (f := fun depth (_ : Unit) => findWithin key point depth) hrep hagree
    (fun _ _ _ => rfl) ?_ () hr hclear hdepth hdepth'
  intro depth depth' _ p s' c' hrep' hbeneath
  split
  · exact .pure hrep' trivial
  · next children hbody =>
      refine .findSomeM? hrep' _ fun child hchild => hbeneath child ?_ ()
      rw [Page.children_eq, hbody]
      exact List.mem_of_mem_filter hchild
  · exact .pure hrep' trivial

theorem locateWithin_abreast (key : Value) :
    Abreast z (locateWithin key depth r) (locateWithin key depth' r) s c fun _ _ _ => True := by
  refine Abreast.search (f := fun depth (_ : Unit) => locateWithin key depth) hrep hagree
    (fun _ _ _ => rfl) ?_ () hr hclear hdepth hdepth'
  intro depth depth' _ p s' c' hrep' hbeneath
  split
  · exact .pure hrep' trivial
  · next children hbody =>
      refine .findSomeM? hrep' _ fun child hchild => hbeneath child ?_ ()
      rw [Page.children_eq, hbody]
      exact hchild
  · exact .pure hrep' trivial

end Searches
end QTree

end Searches

open StoreM

variable {s s' : Store} {c : Chart} {z : Zones} {zone : Nat}

/-! ## Reads of a tree -/

/-- A read of a tree. -/
inductive Query where
  | find (key : Value)
  | contains (key : Value)
  | first
  | last
  | next (key : Value)
  | previous (key : Value)
  | indexOf (key : Value)
  | entry (index : Nat)
  | entries
  /-- The value of a register. -/
  | value
  /-- The value of a key at a point of the plane. -/
  | valueAt (key : Value) (x y : Nat)
  | locate (key : Value)
  | tiles
  /-- The entries of the plane within two tiles. -/
  | region (x y : Tile)

namespace Query

/-- What a read gives. -/
def Answer : Query → Type
  | find _ => Option Value
  | contains _ => Bool
  | first | last | next _ | previous _ | entry _ => Option Entry
  | indexOf _ => Option Nat
  | entries => List Entry
  | value => Value
  | valueAt _ _ _ => Option Value
  | locate _ => Option PlaneEntry
  | tiles | region _ _ => List PlaneEntry

/-- Reads a tree. -/
def run [PageLoader] (t : Tree) : (query : Query) → StoreM query.Answer
  | find key => BTree.find? t.root key
  | contains key => BTree.contains t key
  | first => BTree.first? t.root
  | last => BTree.last? t.root
  | next key => BTree.next? t.root key
  | previous key => BTree.previous? t.root key
  | indexOf key => BTree.indexOf? t.root key
  | entry index => BTree.entry? t.root index
  | entries => (Cursor.start t.root Policy.entries).items .forward
  | value => UTree.get t
  | valueAt key x y => QTree.get? t key x y
  | locate key => QTree.entry? t key
  | tiles => (Cursor.start t.root Policy.tiles).items .forward
  | region x y => (Cursor.start t.root (Policy.region x y)).items .forward

/-- The read that a client makes of its tree. -/
def ask : (query : Query) → ClientStepM query.Answer
  | find key => OrderedMap.get? key
  | contains key => OrderedMap.contains key
  | first => OrderedMap.first?
  | last => OrderedMap.last?
  | next key => OrderedMap.next? key
  | previous key => OrderedMap.previous? key
  | indexOf key => OrderedMap.indexOf? key
  | entry index => OrderedMap.entry? index
  | entries => OrderedMap.entries
  | value => Register.get
  | valueAt key x y => PlaneMap.get? key x y
  | locate key => PlaneMap.locate? key
  | tiles => PlaneMap.entries
  | region x y => PlaneMap.region x y

/-- A client reads the tree of its trunk. -/
theorem ask_eq (query : Query) : query.ask = ClientM.readTree fun t => query.run t := by
  cases query <;> rfl

end Query

/-! ## Reading abreast -/

namespace Policy

theorem YieldsAll.sifts {ι : Type} {policy : Policy ι} {kind : TreeKind}
    {itemsOf : PageBody Unit → List ι} (hall : policy.YieldsAll kind itemsOf) :
    policy.Sifts (fun _ => true) fun body index => (itemsOf body)[index]? where
  visit parent index child depth := by
    rw [hall.visit]
    rfl
  slot := hall.slot

theorem region_sifts (x y : Tile) :
    (region x y).Sifts (fun h => 0 < h.span && overlaps (x, y) h.x h.y) fun body index =>
      (((QTree.slotsOf body)[index]?).filter fun slot => overlaps (x, y) slot.x slot.y).map
        Slot.entry where
  visit parent index child depth := by
    simp only [region, Visit.ofHeader, PageRef.span]
    exact (apply_ite pure _ _ _).symm
  slot page index := by
    obtain ⟨version, stem, body⟩ := page
    cases body <;> simp [region, planeSlot, QTree.slotsOf, PageBody.shape, PageBody.map]

end Policy

/-- A read of a tree that is clear of older zones goes abreast of itself with other zones. -/
theorem Query.run_withZones {t : Tree} (hrep : Represents s c) (hr : c.refs t.root)
    (hclear : t.root.ClearOf zone) (hagree : Zones.AgreeFrom zone s.zones z) (query : Query) :
    exec (query.run t) (s.withZones z) =
      ((exec (query.run t) s).1, (exec (query.run t) s).2.withZones z) := by
  have hdepth := fun s : Store => s.treeSize_lt_depthBound t.root
  have hfind : ∀ key, Abreast z (BTree.find? t.root key) (BTree.find? t.root key) s c
      fun _ _ _ => True := fun key =>
    .get (BTree.findWithin_abreast hrep hagree hr hclear (hdepth _) (hdepth _) key)
  cases query with
  | find key => exact (hfind key).same
  | contains key => exact ((hfind key).map Option.isSome).same
  | first =>
      exact (Abreast.get
        (BTree.firstWithin_abreast hrep hagree hr hclear (hdepth _) (hdepth _))).same
  | last =>
      exact (Abreast.get
        (BTree.lastWithin_abreast hrep hagree hr hclear (hdepth _) (hdepth _))).same
  | next key =>
      exact (Abreast.get
        (BTree.nextWithin_abreast hrep hagree hr hclear (hdepth _) (hdepth _) key)).same
  | previous key =>
      exact (Abreast.get
        (BTree.previousWithin_abreast hrep hagree hr hclear (hdepth _) (hdepth _) key)).same
  | indexOf key =>
      exact (Abreast.get
        (BTree.indexWithin_abreast hrep hagree hr hclear (hdepth _) (hdepth _) key 0)).same
  | entry index => exact (BTree.entry_abreast hrep hagree hr hclear index).same
  | entries => exact Cursor.items_abreast Policy.entries_yieldsAll.sifts hrep hr hclear hagree
  | value =>
      refine ((PageRef.page_abreast hrep hr hclear hagree).bind (Q := fun _ _ _ => True) ?_).same
      intro p s' c' hgrows _
      split
      · exact .pure hgrows.represents trivial
      · exact .pure hgrows.represents trivial
  | valueAt key x y =>
      have hget : exec (QTree.get? t key x y) (s.withZones z) =
          ((exec (QTree.get? t key x y) s).1, (exec (QTree.get? t key x y) s).2.withZones z) := by
        unfold QTree.get? QTree.pointAt
        cases Point.ofCoordinates x y with
        | error e => rfl
        | ok point =>
            have hfind : Abreast z (QTree.find? t.root key point) (QTree.find? t.root key point)
                s c fun _ _ _ => True :=
              .get (QTree.findWithin_abreast hrep hagree hr hclear (hdepth _) (hdepth _) key point)
            exact (hfind.map (Option.map Slot.value)).same
      exact hget
  | locate key =>
      have hlocate : Abreast z (QTree.locate? t.root key) (QTree.locate? t.root key) s c
          fun _ _ _ => True :=
        .get (QTree.locateWithin_abreast hrep hagree hr hclear (hdepth _) (hdepth _) key)
      exact (hlocate.map (Option.map Slot.entry)).same
  | tiles => exact Cursor.items_abreast Policy.tiles_yieldsAll.sifts hrep hr hclear hagree
  | region x y => exact Cursor.items_abreast (Policy.region_sifts x y) hrep hr hclear hagree

/-! ## Deleting zones -/

/-- Zones before some zone are deleted, one after another. -/
def Store.Sheds (zone : Nat) : Store → Store → Prop :=
  Relation.ReflTransGen fun s s' => ∃ id < zone, s' = (exec (deleteZone id) s).2

/-- To delete older zones leaves the others, and memory, as they are. -/
theorem Store.Sheds.eq_withZones (hsheds : s.Sheds zone s') :
    ∃ z, s' = s.withZones z ∧ Zones.AgreeFrom zone s.zones z := by
  induction hsheds with
  | refl => exact ⟨s.zones, rfl, .refl zone s.zones⟩
  | tail _ hdelete ih =>
      obtain ⟨z, rfl, hagree⟩ := ih
      obtain ⟨id, hid, rfl⟩ := hdelete
      refine ⟨(z.delete id).2, rfl, hagree.trans ⟨?_, fun other hother => ?_⟩⟩
      · unfold Zones.delete
        split <;> rfl
      · exact Zones.text?_delete_of_ne (by omega)

namespace Solo

variable {seed : Seed} {start x : Solo}

/-- Whatever a client has done, the post of each reference of its tree is the oldest zone in which
a committed page of the subtree lies, and 0 if there is none.  Once the tree has been evacuated up
to a post, whatever is done then, all reads of the tree go on as they are when zones before the
post are deleted. -/
theorem posts_tell_zones (hstarts : Starts seed start)
    (hrun : Relation.ReflTransGen Turn start x) :
    (∀ s r, x.store.Reaches x.trunk.tree.root s r → LeastOrZero (r.Needs x.filed s) r.post) ∧
      ∀ post y z, Evacuates post x y → post ≤ x.store.zones.active →
        Relation.ReflTransGen Turn y z → ∀ s, z.store.Sheds post s → ∀ query : Query,
          (exec (query.run z.trunk.tree) s).1 = (exec (query.run z.trunk.tree) z.store).1 := by
  obtain ⟨c₀, hstart⟩ := Sound.of_starts hstarts
  obtain ⟨c, hx, -⟩ := hstart.run hrun
  refine ⟨fun s r hreaches => ?_, fun post y z hevacuates hactive hafter s hsheds query => ?_⟩
  · obtain ⟨content, hhas⟩ := hx.has
    obtain ⟨c', hgrows, hfit, -⟩ := hreaches.fit hx.represents hhas.fit
    exact hgrows.represents.toMirrors.least_post (by rw [hgrows.filed]; exact hx.filed) hfit.refs
  · obtain ⟨⟨c₁, hy⟩, hvacant⟩ := hx.evacuates hevacuates hactive
    obtain ⟨c₂, hz, hkeeps⟩ := hy.run hafter
    obtain ⟨zones, rfl, hagree⟩ := hsheds.eq_withZones
    rw [query.run_withZones hz.represents hz.root (hkeeps post hvacant).root hagree]

/-- A trunk with a register that has not been set. -/
def register : Solo where
  store := System.register.store
  trunk := System.register.trunk
  filed _ _ _ := False

theorem starts_register : Starts System.registerSeed register where
  tree := System.starts_register.tree
  filed _ _ _ := id

/-- A register is set and committed to the first zone; it is evacuated and committed to the
second. -/
theorem posts_tell_zones_register :
    ∃ x y z s, Relation.ReflTransGen Turn register x ∧ x.trunk.tree.root.post = 1 ∧
      LeastOrZero (x.trunk.tree.root.Needs x.filed x.store) x.trunk.tree.root.post ∧
      Evacuates 2 x y ∧ Relation.ReflTransGen Turn y z ∧ z.trunk.tree.root.post = 2 ∧
      z.store.Sheds 2 s ∧ s.zones.text? 1 = none ∧
      (exec (UTree.get z.trunk.tree) s).1.toOption = some (.int 10) := by
  have hrun := Relation.ReflTransGen.refl (r := Turn) (a := register)
    |>.tail (@Turn.operate register (.set (.int 10)) _ _ _ rfl (exec_eq_ok_pair (by decide +kernel)))
    |>.tail (@Turn.commit _ .plain _ _ _ (exec_eq_ok_pair (by decide +kernel)))
    |>.tail (.tend .shiftZone)
  have hevacuate : ∀ {x tree answer s}, Relation.ReflTransGen Turn register x →
      exec (Operation.evacuate.run (x.trunk.raisePost 2)) x.store = (.ok (tree, answer), s) →
        Evacuates 2 x { x with store := s, trunk := (x.trunk.raisePost 2).swapIn tree } :=
    fun _ hexec => ⟨_, _, _, hexec, rfl⟩
  have hevacuates := hevacuate hrun (exec_eq_ok_pair (by decide +kernel))
  have hfrom : ∀ {x y}, Evacuates 2 x y → Relation.ReflTransGen Turn y y := fun _ => .refl
  have hafter := hfrom hevacuates
    |>.tail (@Turn.commit _ .plain _ _ _ (exec_eq_ok_pair (by decide +kernel)))
    |>.tail (.tend .soften)
  have hshed : ∀ {y z}, Relation.ReflTransGen Turn y z →
      z.store.Sheds 2 (exec (deleteZone 1) z.store).2 := fun _ => .single ⟨1, by decide, rfl⟩
  have hsheds := hshed hafter
  obtain ⟨hposts, hreads⟩ := posts_tell_zones starts_register hrun
  have hread : (exec (UTree.get _) _).1 = (exec (UTree.get _) _).1 :=
    hreads 2 _ _ hevacuates (by decide +kernel) hafter _ hsheds .value
  refine ⟨_, _, _, _, hrun, by decide +kernel, hposts _ _ (.here _ _), hevacuates, hafter,
    by decide +kernel, hsheds, by decide +kernel, ?_⟩
  rw [hread]
  decide +kernel

end Solo

end PageTree
