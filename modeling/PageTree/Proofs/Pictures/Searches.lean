import PageTree.BTree.Read
import PageTree.Proofs.Pictures.Loading
import PageTree.QTree.Read

/-!
# Searches of pictures

What a search of a tree finds is told by the picture of the tree alone.  A `Look` is what a search
does at a page: it has the shape of the page, what the references say that the children cover, and
what is found beneath each child.  `Picture.search` is the whole search, and `search_yields` says
that the reads of a tree, which load one page after another, come to it.  No look has a fold, so a
picture with more folds known tells the same (`Refines.search`).
-/

namespace PageTree

open StoreM

variable {α β σ : Type}

/-! ## Looks -/

/-- What there is to see of a child: what its reference says that it covers, and what is found
beneath it. -/
abbrev Glimpse (σ β : Type) := (Nat × Tile × Tile) × (σ → β)

/-- What a search finds in a page of a shape, given what there is to see of the children. -/
abbrev Look (σ β : Type) := PageBody Unit → List (Glimpse σ β) → σ → β

namespace Picture

mutual

/-- What a search finds. -/
def search (look : Look σ β) : Picture → σ → β
  | of _ shape _ _ beneath => look shape (glimpses look beneath)

/-- What there is to see of some children. -/
def glimpses (look : Look σ β) : List Picture → List (Glimpse σ β)
  | [] => []
  | t :: ts => (t.extent, search look t) :: glimpses look ts

end

theorem glimpses_eq (look : Look σ β) (ts : List Picture) :
    glimpses look ts = ts.map fun t => (t.extent, t.search look) := by
  induction ts with
  | nil => rfl
  | cons t ts ih => rw [glimpses, ih, List.map_cons]

theorem search_eq (look : Look σ β) (t : Picture) :
    t.search look = look t.shape (t.beneath.map fun t => (t.extent, t.search look)) := by
  cases t
  rw [search, glimpses_eq]
  rfl

/-- Folds are not looked at. -/
theorem Refines.search {t t' : Picture} (hrefines : t.Refines t') (look : Look σ β) :
    t'.search look = t.search look := by
  induction t using Picture.induction generalizing t' with
  | of stem shape extent fold beneath ih =>
      cases hrefines with
      | of known children =>
          have hglimpses : ∀ {ts ts' : List Picture}, (∀ t ∈ ts, ∀ {t'}, t.Refines t' →
              t'.search look = t.search look) → List.Forall₂ Refines ts ts' →
              glimpses look ts' = glimpses look ts := by
            intro ts ts' hall hchildren
            induction hchildren with
            | nil => rfl
            | cons hchild _ ih' =>
                rw [glimpses, glimpses, hall _ List.mem_cons_self hchild, hchild.extent,
                  ih' fun t ht => hall t (List.mem_cons_of_mem _ ht)]
          simp only [Picture.search, hglimpses ih children]

end Picture

/-! ## What reads do -/

/-- There is to see of a child what an action on it gives. -/
structure PageRef.Glimpsed (sure : Prop) (g : Gallery) (act : σ → PageRef → StoreM β)
    (m : PageRef) (glimpse : Glimpse σ β) : Prop where
  extent : m.header.extent = glimpse.1
  found : ∀ known g', g ≤ g' → g'.Sound sure →
    Yields sure (act known m) g' fun b _ => b = glimpse.2 known

theorem PageRef.Glimpsed.span {sure : Prop} {g : Gallery} {act : σ → PageRef → StoreM β}
    {m : PageRef} {glimpse : Glimpse σ β} (hglimpsed : m.Glimpsed sure g act glimpse) :
    m.span = glimpse.1.1 :=
  congrArg Prod.fst hglimpsed.extent

/-- Searches that do at a page what a look says find what the look finds. -/
theorem Picture.search_yields {sure : Prop} {f : Nat → σ → PageRef → StoreM β}
    {act : Nat → σ → LivePage → StoreM β} {look : Look σ β}
    (hf : ∀ depth known r, f (depth + 1) known r = r.page >>= act depth known)
    (hlook : ∀ {g : Gallery} {depth : Nat} {p : LivePage} {glimpses : List (Glimpse σ β)}
      (known : σ), g.Sound sure →
      List.Forall₂ (PageRef.Glimpsed sure g (f depth)) p.children glimpses →
      Yields sure (act depth known p) g fun b _ => b = look p.body.shape glimpses known)
    {g : Gallery} {r : PageRef} {t : Picture} {depth : Nat} (hsound : g.Sound sure)
    (hr : g.shows r t) (hdepth : r.treeSize < depth) (known : σ) :
    Yields sure (f depth known r) g fun b _ => b = t.search look known := by
  -- by induction on the bound on the depth, which stays above the size of the subtree
  induction depth generalizing g r t known with
  | zero => exact absurd hdepth (Nat.not_lt_zero _)
  | succ depth ih =>
      rw [hf]
      refine Yielding.bind (PageRef.page_yields hsound hr) ?_
      intro p g' hle hsound' hsees
      have hglimpsed : List.Forall₂ (PageRef.Glimpsed sure g' (f depth)) p.children
          (t.beneath.map fun t => (t.extent, t.search look)) := by
        rw [List.forall₂_map_right_iff]
        refine (List.forall₂_iff_zip.2 ⟨hsees.draws.children.length_eq, ?_⟩)
        intro m k hmem
        have hm : g'.shows m k := List.forall₂_zip hsees.draws.children hmem
        have hlt := hsees.treeSize_lt (List.of_mem_zip hmem).1
        refine ⟨(hsound'.tells hm).extent, fun known g'' hle' hsound'' => ?_⟩
        exact ih hsound'' (hle'.shows m k hm) (by omega) known
      -- the page is as the picture shows it, so the look is that of the picture
      have hfound := hlook known hsound' hglimpsed
      rw [hsees.draws.shape, ← Picture.search_eq look t] at hfound
      exact hfound

namespace PageRef.Glimpsed

variable {sure : Prop} {g : Gallery} {act : σ → PageRef → StoreM (Option β)} {ms : List PageRef}
  {glimpses : List (Glimpse σ (Option β))}

theorem getElem? (hglimpsed : List.Forall₂ (Glimpsed sure g act) ms glimpses) (index : Nat) :
    Option.Rel (Glimpsed sure g act) ms[index]? glimpses[index]? := by
  have hlength := hglimpsed.length_eq
  by_cases hlt : index < ms.length
  · rw [List.getElem?_eq_getElem hlt, List.getElem?_eq_getElem (hlength ▸ hlt)]
    exact .some (hglimpsed.get hlt (hlength ▸ hlt))
  · rw [List.getElem?_eq_none (by omega), List.getElem?_eq_none (by omega)]
    exact .none

/-- A search that goes on at one child finds what there is to see of it. -/
theorem option_yields {m? : Option PageRef} {glimpse? : Option (Glimpse σ (Option β))}
    (hsound : g.Sound sure) (hglimpsed : Option.Rel (Glimpsed sure g act) m? glimpse?)
    (known : σ) :
    Yields sure (match m? with
      | some m => act known m
      | none => return none) g fun b _ => b = glimpse?.bind fun glimpse => glimpse.2 known := by
  cases hglimpsed with
  | none => exact Yielding.pure hsound rfl
  | some hm => exact hm.found known g (Gallery.le_refl g) hsound

theorem mono {g' : Gallery} {m : PageRef} {glimpse : Glimpse σ (Option β)} (hle : g ≤ g')
    (hglimpsed : m.Glimpsed sure g act glimpse) : m.Glimpsed sure g' act glimpse :=
  ⟨hglimpsed.extent, fun known g'' hle' => hglimpsed.found known g'' (Gallery.le_trans hle hle')⟩

/-- A search among children finds the first that there is to see. -/
theorem first_yields (known : σ) (hsound : g.Sound sure)
    (hglimpsed : List.Forall₂ (Glimpsed sure g act) ms glimpses) :
    Yields sure (ms.findSomeM? (act known)) g
      fun b _ => b = glimpses.findSome? fun glimpse => glimpse.2 known := by
  induction ms generalizing g glimpses with
  | nil =>
      cases hglimpsed
      exact Yielding.pure hsound rfl
  | cons m ms ih =>
      obtain ⟨glimpse, glimpses, hm, hrest, rfl⟩ := List.forall₂_cons_left_iff.1 hglimpsed
      rw [List.findSomeM?_cons, List.findSome?_cons]
      refine Yielding.bind (hm.found known g (Gallery.le_refl g) hsound) ?_
      rintro found g' hle hsound' rfl
      cases hfound : glimpse.2 known with
      | some b => exact Yielding.pure hsound' rfl
      | none => exact ih hsound' (hrest.imp fun _ _ => mono hle)

end PageRef.Glimpsed

/-! ## B-trees -/

/-- A bisection looks only at what its predicate looks at. -/
theorem Bisection.narrowWithin_map {γ δ : Type} (f : γ → δ) (isPast : δ → Bool) (halvings : Nat)
    (items : List γ) : narrowWithin isPast halvings (items.map f) =
      narrowWithin (fun item => isPast (f item)) halvings items := by
  induction halvings generalizing items with
  | zero => rfl
  | succ halvings ih =>
      simp only [narrowWithin, List.length_map, List.getElem?_map, Option.any_map,
        ← List.map_take, ← List.map_drop, ih]

theorem Bisection.boundary_map {γ δ : Type} (f : γ → δ) (isBefore : δ → Bool) (items : List γ) :
    boundary isBefore (items.map f) = boundary (fun item => isBefore (f item)) items := by
  simp only [boundary, narrow, narrowWithin_map, List.length_map, List.getElem?_map, Option.any_map]
  rfl

namespace Entries

variable {γ δ : Type}

theorem upTo_map (f : γ → δ) (items : List (Value × γ)) (key : Value) :
    upTo (items.map fun (key, item) => (key, f item)) key = upTo items key :=
  Bisection.boundary_map _ _ items

theorem below_map (f : γ → δ) (items : List (Value × γ)) (key : Value) :
    below (items.map fun (key, item) => (key, f item)) key = below items key :=
  Bisection.boundary_map _ _ items

end Entries

/-- The span of some children. -/
def Glimpse.spans (glimpses : List (Glimpse σ β)) : Nat :=
  (glimpses.map fun glimpse => glimpse.1.1).sum

/-- What is found at an index among the entries of some children. -/
def Glimpse.at? : List (Glimpse Nat (Option β)) → Nat → Option β
  | [], _ => none
  | glimpse :: glimpses, index =>
    if index < glimpse.1.1 then glimpse.2 index else at? glimpses (index - glimpse.1.1)

namespace BTree

/-- Looks for the value of a key. -/
def lookFind (key : Value) : Look Unit (Option Value)
  | .btreeLeaf slots, _, _ => Entries.find? slots key
  | .btreeNode keys, glimpses, _ =>
    glimpses[Entries.upTo keys key - 1]?.bind fun glimpse => glimpse.2 ()
  | _, _, _ => none

/-- Looks for the position of a key, with so many entries before the page. -/
def lookIndex (key : Value) : Look Nat (Option Nat)
  | .btreeLeaf slots, _, offset => (Entries.indexOf? slots key).map (offset + ·)
  | .btreeNode keys, glimpses, offset =>
    glimpses[Entries.upTo keys key - 1]?.bind fun glimpse =>
      glimpse.2 (offset + Glimpse.spans (glimpses.take (Entries.upTo keys key - 1)))
  | _, _, _ => none

/-- Looks for the entry at an index. -/
def lookEntry : Look Nat (Option Entry)
  | .btreeLeaf slots, _, index => slots[index]?
  | .btreeNode _, glimpses, index => Glimpse.at? glimpses index
  | _, _, _ => none

/-- Looks for the first entry. -/
def lookFirst : Look Unit (Option Entry)
  | .btreeLeaf slots, _, _ => slots.head?
  | .btreeNode _, glimpses, _ => glimpses.head?.bind fun glimpse => glimpse.2 ()
  | _, _, _ => none

/-- Looks for the last entry. -/
def lookLast : Look Unit (Option Entry)
  | .btreeLeaf slots, _, _ => slots.getLast?
  | .btreeNode _, glimpses, _ => glimpses.getLast?.bind fun glimpse => glimpse.2 ()
  | _, _, _ => none

/-- Looks for the first entry with a greater key. -/
def lookNext (key : Value) : Look Unit (Option Entry)
  | .btreeLeaf slots, _, _ => Entries.next? slots key
  | .btreeNode keys, glimpses, _ =>
    (glimpses.drop (Entries.upTo keys key - 1)).findSome? fun glimpse => glimpse.2 ()
  | _, _, _ => none

/-- Looks for the last entry with a lesser key. -/
def lookPrevious (key : Value) : Look Unit (Option Entry)
  | .btreeLeaf slots, _, _ => Entries.previous? slots key
  | .btreeNode keys, glimpses, _ =>
    (glimpses.take (Entries.below keys key)).reverse.findSome? fun glimpse => glimpse.2 ()
  | _, _, _ => none

/-- The index of a child is told by the keys alone. -/
theorem childIndex_eq (children : List (Value × PageRef)) (key : Value) :
    Entries.upTo (children.map fun (key, _) => (key, ())) key - 1 = childIndex children key :=
  congrArg (· - 1) (Entries.upTo_map (fun _ => ()) children key)

theorem childFor?_eq (children : List (Value × PageRef)) (key : Value) :
    childFor? children key = (children.map Prod.snd)[childIndex children key]? := by
  rw [childFor?, List.getElem?_map]

theorem findSomeM?_map (f : PageRef → StoreM (Option β)) (children : List (Value × PageRef)) :
    (children.map Prod.snd).findSomeM? f = children.findSomeM? fun child => f child.2 := by
  induction children with
  | nil => rfl
  | cons child children ih => rw [List.map_cons, List.findSomeM?_cons, List.findSomeM?_cons, ih]

section Children

variable {sure : Prop} {g : Gallery} {act : Nat → PageRef → StoreM (Option β)}

/-- The spans of children are those that are told of them. -/
theorem spanOf_eq {children : List (Value × PageRef)} {glimpses : List (Glimpse Nat (Option β))}
    (hglimpsed : List.Forall₂ (PageRef.Glimpsed sure g act) (children.map Prod.snd) glimpses)
    (count : Nat) : spanOf (children.take count) = Glimpse.spans (glimpses.take count) := by
  have hspans : (children.map fun child => child.2.span) = glimpses.map fun glimpse =>
      glimpse.1.1 := by
    rw [← List.forall₂_eq_eq_eq, List.forall₂_map_left_iff, List.forall₂_map_right_iff]
    exact (List.forall₂_map_left_iff.1 hglimpsed).imp fun _ _ hm => hm.span
  rw [spanOf, Glimpse.spans, List.map_take, List.map_take, hspans]
  rfl

theorem childAt_yields {ms : List PageRef} {glimpses : List (Glimpse Nat (Option β))}
    (hsound : g.Sound sure) (hglimpsed : List.Forall₂ (PageRef.Glimpsed sure g act) ms glimpses)
    (index : Nat) :
    Yields sure (match childAt? ms index with
      | some (m, index) => act index m
      | none => return none) g fun b _ => b = Glimpse.at? glimpses index := by
  induction hglimpsed generalizing index with
  | nil => exact Yielding.pure hsound rfl
  | @cons m glimpse ms glimpses hm hrest ih =>
      rw [childAt?, Glimpse.at?, hm.span]
      by_cases hlt : index < glimpse.1.1
      · simp only [if_pos hlt]
        exact hm.found index g (Gallery.le_refl g) hsound
      · simp only [if_neg hlt]
        exact ih (index - glimpse.1.1)

end Children

section Searches

variable {sure : Prop} {g : Gallery} {r : PageRef} {t : Picture} {depth : Nat}
  (hsound : g.Sound sure) (hr : g.shows r t) (hdepth : r.treeSize < depth)
include hsound hr hdepth

theorem findWithin_yields (key : Value) : Yields sure (findWithin key depth r) g
    fun b _ => b = t.search (lookFind key) () := by
  refine Picture.search_yields (f := fun depth (_ : Unit) => findWithin key depth)
    (fun _ _ _ => rfl) ?_ hsound hr hdepth ()
  rintro g depth ⟨version, stem, body⟩ glimpses known hsound hglimpsed
  cases body with
  | btreeLeaf slots => exact Yielding.pure hsound rfl
  | btreeNode children =>
      have hchild := PageRef.Glimpsed.getElem? hglimpsed (childIndex children key)
      dsimp only [PageBody.shape, PageBody.map, lookFind]
      rw [childFor?_eq, childIndex_eq]
      exact PageRef.Glimpsed.option_yields hsound hchild ()
  | _ => exact Yielding.pure hsound rfl

theorem indexWithin_yields (key : Value) (offset : Nat) :
    Yields sure (indexWithin key depth offset r) g
      fun b _ => b = t.search (lookIndex key) offset := by
  refine Picture.search_yields (f := indexWithin key) (fun _ _ _ => rfl) ?_ hsound hr hdepth offset
  rintro g depth ⟨version, stem, body⟩ glimpses offset hsound hglimpsed
  cases body with
  | btreeLeaf slots => exact Yielding.pure hsound rfl
  | btreeNode children =>
      have hchild := PageRef.Glimpsed.getElem? hglimpsed (childIndex children key)
      dsimp only [PageBody.shape, PageBody.map, lookIndex]
      rw [childFor?_eq, childIndex_eq, ← spanOf_eq hglimpsed]
      exact PageRef.Glimpsed.option_yields hsound hchild _
  | _ => exact Yielding.pure hsound rfl

theorem entryWithin_yields (index : Nat) : Yields sure (entryWithin depth r index) g
    fun b _ => b = t.search lookEntry index := by
  refine Picture.search_yields (f := fun depth index r => entryWithin depth r index)
    (fun _ _ _ => rfl) ?_ hsound hr hdepth index
  rintro g depth ⟨version, stem, body⟩ glimpses index hsound hglimpsed
  cases body with
  | btreeLeaf slots => exact Yielding.pure hsound rfl
  | btreeNode children => exact childAt_yields hsound hglimpsed index
  | _ => exact Yielding.pure hsound rfl

theorem firstWithin_yields : Yields sure (firstWithin depth r) g
    fun b _ => b = t.search lookFirst () := by
  refine Picture.search_yields (f := fun depth (_ : Unit) => firstWithin depth)
    (fun _ _ _ => rfl) ?_ hsound hr hdepth ()
  rintro g depth ⟨version, stem, body⟩ glimpses known hsound hglimpsed
  cases body with
  | btreeLeaf slots => exact Yielding.pure hsound rfl
  | btreeNode children =>
      have hchild := PageRef.Glimpsed.getElem? hglimpsed 0
      rw [← List.head?_eq_getElem?, ← List.head?_eq_getElem?] at hchild
      have hyields := PageRef.Glimpsed.option_yields hsound hchild ()
      cases children with
      | nil => exact hyields
      | cons => exact hyields
  | _ => exact Yielding.pure hsound rfl

theorem lastWithin_yields : Yields sure (lastWithin depth r) g
    fun b _ => b = t.search lookLast () := by
  refine Picture.search_yields (f := fun depth (_ : Unit) => lastWithin depth)
    (fun _ _ _ => rfl) ?_ hsound hr hdepth ()
  rintro g depth ⟨version, stem, body⟩ glimpses known hsound hglimpsed
  cases body with
  | btreeLeaf slots => exact Yielding.pure hsound rfl
  | btreeNode children =>
      have hchild := PageRef.Glimpsed.getElem? hglimpsed (glimpses.length - 1)
      rw [← List.getLast?_eq_getElem?, ← hglimpsed.length_eq, ← List.getLast?_eq_getElem?] at hchild
      have hyields := PageRef.Glimpsed.option_yields hsound hchild ()
      rw [show (⟨version, stem, .btreeNode children⟩ : LivePage).children = children.map Prod.snd
        from rfl, List.getLast?_map] at hyields
      dsimp only
      revert hyields
      cases children.getLast? with
      | none => exact id
      | some child => exact id
  | _ => exact Yielding.pure hsound rfl

theorem nextWithin_yields (key : Value) : Yields sure (nextWithin key depth r) g
    fun b _ => b = t.search (lookNext key) () := by
  refine Picture.search_yields (f := fun depth (_ : Unit) => nextWithin key depth)
    (fun _ _ _ => rfl) ?_ hsound hr hdepth ()
  rintro g depth ⟨version, stem, body⟩ glimpses known hsound hglimpsed
  cases body with
  | btreeLeaf slots => exact Yielding.pure hsound rfl
  | btreeNode children =>
      have hdropped := List.forall₂_drop (childIndex children key) hglimpsed
      have hyields := PageRef.Glimpsed.first_yields () hsound hdropped
      dsimp only [PageBody.shape, PageBody.map, lookNext]
      rw [childIndex_eq]
      rwa [show (⟨version, stem, .btreeNode children⟩ : LivePage).children = children.map Prod.snd
        from rfl, ← List.map_drop, findSomeM?_map] at hyields
  | _ => exact Yielding.pure hsound rfl

theorem previousWithin_yields (key : Value) : Yields sure (previousWithin key depth r) g
    fun b _ => b = t.search (lookPrevious key) () := by
  refine Picture.search_yields (f := fun depth (_ : Unit) => previousWithin key depth)
    (fun _ _ _ => rfl) ?_ hsound hr hdepth ()
  rintro g depth ⟨version, stem, body⟩ glimpses known hsound hglimpsed
  cases body with
  | btreeLeaf slots => exact Yielding.pure hsound rfl
  | btreeNode children =>
      have htaken := List.rel_reverse (List.forall₂_take (Entries.below children key) hglimpsed)
      have hyields := PageRef.Glimpsed.first_yields () hsound htaken
      dsimp only [PageBody.shape, PageBody.map, lookPrevious]
      rw [Entries.below_map (fun _ => ()) children key]
      rwa [show (⟨version, stem, .btreeNode children⟩ : LivePage).children = children.map Prod.snd
        from rfl, ← List.map_take, ← List.map_reverse, findSomeM?_map] at hyields
  | _ => exact Yielding.pure hsound rfl

end Searches

end BTree

/-! ## Q-trees -/

namespace QTree

/-- Looks for the slot of a key at a point. -/
def lookFind (key : Value) (point : Point) : Look Unit (Option Slot)
  | .qtreeLeaf slots, _, _ => (Slots.find? slots key).filter fun slot => Point.ofSlot slot = point
  | .qtreeNode _, glimpses, _ =>
    (glimpses.filter fun glimpse =>
      glimpse.1.2.1.contains point.x && glimpse.1.2.2.contains point.y).findSome?
        fun glimpse => glimpse.2 ()
  | _, _, _ => none

/-- Looks for the slot of a key wherever it lies. -/
def lookLocate (key : Value) : Look Unit (Option Slot)
  | .qtreeLeaf slots, _, _ => Slots.find? slots key
  | .qtreeNode _, glimpses, _ => glimpses.findSome? fun glimpse => glimpse.2 ()
  | _, _, _ => none

section Searches

variable {sure : Prop} {g : Gallery} {r : PageRef} {t : Picture} {depth : Nat}
  (hsound : g.Sound sure) (hr : g.shows r t) (hdepth : r.treeSize < depth)
include hsound hr hdepth

theorem findWithin_yields (key : Value) (point : Point) :
    Yields sure (findWithin key point depth r) g
      fun b _ => b = t.search (lookFind key point) () := by
  refine Picture.search_yields (f := fun depth (_ : Unit) => findWithin key point depth)
    (fun _ _ _ => rfl) ?_ hsound hr hdepth ()
  rintro g depth ⟨version, stem, body⟩ glimpses known hsound hglimpsed
  cases body with
  | qtreeLeaf slots => exact Yielding.pure hsound rfl
  | qtreeNode children =>
      refine PageRef.Glimpsed.first_yields () hsound (List.rel_filter ?_ hglimpsed)
      intro m glimpse hm
      have hextent : (m.header.x, m.header.y) = glimpse.1.2 := congrArg Prod.snd hm.extent
      dsimp only [Point.isWithin]
      rw [← hextent]
  | _ => exact Yielding.pure hsound rfl

theorem locateWithin_yields (key : Value) : Yields sure (locateWithin key depth r) g
    fun b _ => b = t.search (lookLocate key) () := by
  refine Picture.search_yields (f := fun depth (_ : Unit) => locateWithin key depth)
    (fun _ _ _ => rfl) ?_ hsound hr hdepth ()
  rintro g depth ⟨version, stem, body⟩ glimpses known hsound hglimpsed
  cases body with
  | qtreeLeaf slots => exact Yielding.pure hsound rfl
  | qtreeNode children => exact PageRef.Glimpsed.first_yields () hsound hglimpsed
  | _ => exact Yielding.pure hsound rfl

end Searches
end QTree
end PageTree
