import PageTree.Proofs.Balance.Basic
import PageTree.Proofs.Loading

/-!
# Rules that operations keep to

Operations on trees are put together from few steps: they look at the store, they find or load the
page of a reference, and they make references.  A `Conduct` is what someone who watches them lets
these steps do to a store, what it lets have happened when one of them fails, and which references
it lets them go on with.  What is put together from the steps then obeys the conduct too
(`Conduct.Obeys`), wherever pages are loaded from; so whatever can be watched in this way is
established for the steps alone.
-/

namespace PageTree

open StoreM

variable {α β γ δ : Type}

/-- An operation is asked for what makes no sense, or goes deeper than trees do. -/
inductive StoreError.IsRefusal : StoreError → Prop where
  | tooDeep : IsRefusal StoreM.tooDeep
  | invalidArgument (reason : String) : IsRefusal (.invalidArgument reason)

/-- A refusal is not about a page. -/
theorem StoreError.IsRefusal.withPageRef {e : StoreError} (hrefusal : e.IsRefusal)
    (description : String) : e.withPageRef description = e := by
  cases hrefusal <;> rfl

namespace StoreM

/-- The errors that the operation may fail with. -/
def FailsBy (E : StoreError → Prop) (act : StoreM α) : Prop :=
  ∀ s e s', exec act s = (.error e, s') → E e

namespace FailsBy

variable {E : StoreError → Prop}

/-- An operation that does not fail. -/
theorem never {act : StoreM α} {a : Store → α} {f : Store → Store}
    (hexec : ∀ s, exec act s = (.ok (a s), f s)) : FailsBy E act := by
  intro s e s' hfailed
  rw [hexec] at hfailed
  cases hfailed

protected theorem throw {e : StoreError} (he : E e) : FailsBy E (throw e : StoreM α) := by
  rintro s e' s' ⟨⟩
  exact he

protected theorem bind {act : StoreM α} {f : α → StoreM β} (hact : FailsBy E act)
    (hf : ∀ a, FailsBy E (f a)) : FailsBy E (act >>= f) := by
  intro s e s' hfailed
  rcases exec_bind_eq_error hfailed with hfirst | ⟨a, s₁, -, hrest⟩
  · exact hact s e s' hfirst
  · exact hf a s₁ e s' hrest

protected theorem ite {p : Prop} [Decidable p] {act act' : StoreM α} (hact : FailsBy E act)
    (hact' : FailsBy E act') : FailsBy E (if p then act else act') := by
  split
  · exact hact
  · exact hact'

theorem mapChildren {f : γ → StoreM δ} (hf : ∀ r, FailsBy E (f r)) (p : Page γ)
    (version : Nat) : FailsBy E (p.mapChildren version f) := by
  have hall : ∀ l : List γ, FailsBy E (l.mapM f) := by
    intro l
    induction l with
    | nil => exact .never fun _ => rfl
    | cons a l ih =>
        rw [List.mapM_cons]
        exact .bind (hf a) fun _ => .bind ih fun _ => .never fun _ => rfl
  rw [Page.mapChildren_eq]
  exact .bind (hall p.children) fun _ => .never fun _ => rfl

end FailsBy
end StoreM

/-- What operations on trees may do to a store.  They go on only with references that are
*tracked*. -/
structure Conduct [PageLoader] where
  /-- What may become of a store. -/
  Later : Store → Store → Prop
  /-- What may have become of a store when an error comes up. -/
  Fails : Store → StoreError → Store → Prop
  Tracks : Store → PageRef → Prop
  later_refl : ∀ s, Later s s
  later_trans : ∀ {s s' s''}, Later s s' → Later s' s'' → Later s s''
  fails_later : ∀ {s s' e s''}, Later s s' → Fails s' e s'' → Fails s e s''
  refused : ∀ {s e}, e.IsRefusal → Fails s e s
  named : ∀ {s e s'} (description), Fails s e s' → Fails s (e.withPageRef description) s'
  tracks_later : ∀ {s s' r}, Later s s' → Tracks s r → Tracks s' r
  tracks_fails : ∀ {s e s' r}, Fails s e s' → Tracks s r → Tracks s' r
  /-- What memory holds of a page leads to tracked references. -/
  tracks_held : ∀ {s r copy}, Tracks s r → (s.hold r).copy? = some copy →
    ∀ m ∈ copy.page.children, Tracks s m
  found : ∀ {s r copy s'}, Tracks s r → exec r.pageCopy s = (.ok copy, s') →
    Later s s' ∧ ∀ m ∈ copy.page.children, Tracks s' m
  notFound : ∀ {s r e s'}, Tracks s r → exec r.pageCopy s = (.error e, s') → Fails s e s'
  copied : ∀ {s s' copy} {page : LivePage}, exec (PageRef.copyOf page) s = (.ok copy, s') →
    Later s s'
  made : ∀ {s s' r} {tree stem header} {copy : PageCopy},
    (∀ m ∈ copy.page.children, Tracks s m) →
    exec (PageRef.holding tree stem header copy) s = (.ok r, s') → Later s s' ∧ Tracks s' r
  refolded : ∀ {s s' r r'} {fold}, Tracks s r → exec (r.withFold fold) s = (.ok r', s') →
    Later s s' ∧ Tracks s' r'

namespace Conduct

variable [PageLoader] {d : Conduct} {s s' : Store} {P : α → Store → Prop} {Q : β → Store → Prop}

/-- The operation makes of the store what it may and gives a result with a property, or it fails as
it may. -/
def Obeys (d : Conduct) (act : StoreM α) (s : Store) (P : α → Store → Prop) : Prop :=
  match exec act s with
  | (.ok a, s') => d.Later s s' ∧ P a s'
  | (.error e, s') => d.Fails s e s'

/-- The operation makes of the store what it may, or fails as it may. -/
abbrev Allows (d : Conduct) (act : StoreM α) (s : Store) : Prop :=
  d.Obeys act s fun _ _ => True

/-- The children of the page are tracked. -/
def Opens (d : Conduct) (s : Store) (page : LivePage) : Prop :=
  ∀ m ∈ page.children, d.Tracks s m

theorem Opens.later {page : LivePage} (hlater : d.Later s s') (hopens : d.Opens s page) :
    d.Opens s' page :=
  fun m hm => d.tracks_later hlater (hopens m hm)

theorem opens_leaf {page : LivePage} (hleaf : page.children = []) : d.Opens s page := by
  intro m hm
  rw [hleaf] at hm
  cases hm

namespace Obeys

theorem ok {act : StoreM α} {a : α} (hexec : exec act s = (.ok a, s')) (hlater : d.Later s s')
    (hpost : P a s') : d.Obeys act s P := by
  rw [Obeys, hexec]
  exact ⟨hlater, hpost⟩

theorem error {act : StoreM α} {e : StoreError} (hexec : exec act s = (.error e, s'))
    (hfails : d.Fails s e s') : d.Obeys act s P := by
  rw [Obeys, hexec]
  exact hfails

theorem cases {act : StoreM α} (hact : d.Obeys act s P) :
    (∃ a s', exec act s = (.ok a, s') ∧ d.Later s s' ∧ P a s') ∨
      ∃ e s', exec act s = (.error e, s') ∧ d.Fails s e s' := by
  unfold Obeys at hact
  generalize exec act s = outcome at hact ⊢
  obtain ⟨e | a, s'⟩ := outcome
  · exact Or.inr ⟨e, s', rfl, hact⟩
  · exact Or.inl ⟨a, s', rfl, hact⟩

theorem of_ok {act : StoreM α} {a : α} (hact : d.Obeys act s P)
    (hexec : exec act s = (.ok a, s')) : d.Later s s' ∧ P a s' := by
  rw [Obeys, hexec] at hact
  exact hact

theorem of_error {act : StoreM α} {e : StoreError} (hact : d.Obeys act s P)
    (hexec : exec act s = (.error e, s')) : d.Fails s e s' := by
  rw [Obeys, hexec] at hact
  exact hact

protected theorem pure {a : α} (hpost : P a s) : d.Obeys (pure a : StoreM α) s P :=
  ok (exec_pure a s) (d.later_refl s) hpost

theorem refuse {e : StoreError} (hrefusal : e.IsRefusal) :
    d.Obeys (throw e : StoreM α) s P :=
  error (exec_throw e s) (d.refused hrefusal)

protected theorem bind {act : StoreM α} {f : α → StoreM β} (hact : d.Obeys act s P)
    (hf : ∀ a s', d.Later s s' → P a s' → d.Obeys (f a) s' Q) : d.Obeys (act >>= f) s Q := by
  rcases hact.cases with ⟨a, s', hexec, hlater, hpost⟩ | ⟨e, s', hexec, hfails⟩
  · rcases (hf a s' hlater hpost).cases with
      ⟨b, s'', hexec', hlater', hpost'⟩ | ⟨e, s'', hexec', hfails⟩
    · exact ok (by rw [exec_bind, hexec]; exact hexec') (d.later_trans hlater hlater') hpost'
    · exact error (by rw [exec_bind, hexec]; exact hexec') (d.fails_later hlater hfails)
  · exact error (by rw [exec_bind, hexec]) hfails

theorem mono {act : StoreM α} {P' : α → Store → Prop} (hact : d.Obeys act s P)
    (himp : ∀ a s', d.Later s s' → P a s' → P' a s') : d.Obeys act s P' := by
  rcases hact.cases with ⟨a, s', hexec, hlater, hpost⟩ | ⟨e, s', hexec, hfails⟩
  · exact ok hexec hlater (himp a s' hlater hpost)
  · exact error hexec hfails

/-- What an operation gives may not matter. -/
theorem allows {act : StoreM α} (hact : d.Obeys act s P) : d.Allows act s :=
  hact.mono fun _ _ _ _ => trivial

/-- An operation that only looks at the store. -/
theorem look {act : StoreM α} {a : α} {f : α → StoreM β} (hexec : exec act s = (.ok a, s))
    (hf : d.Obeys (f a) s Q) : d.Obeys (act >>= f) s Q :=
  (ok (P := fun a' s' => a' = a ∧ s' = s) hexec (d.later_refl s) ⟨rfl, rfl⟩).bind
    (by rintro _ _ - ⟨rfl, rfl⟩; exact hf)

protected theorem get {f : Store → StoreM β} (hf : d.Obeys (f s) s Q) :
    d.Obeys (get >>= f) s Q :=
  look (exec_get s) hf

protected theorem ite {p : Prop} [Decidable p] {act act' : StoreM α}
    (hthen : p → d.Obeys act s P) (helse : ¬ p → d.Obeys act' s P) :
    d.Obeys (if p then act else act') s P := by
  split
  · next hp => exact hthen hp
  · next hp => exact helse hp

theorem naming {act : StoreM α} {r : PageRef} (hact : d.Obeys act s P) :
    d.Obeys (r.naming act) s P := by
  rcases hact.cases with ⟨a, s', hexec, hlater, hpost⟩ | ⟨e, s', hexec, hfails⟩
  · exact ok (by rw [PageRef.exec_naming, hexec]) hlater hpost
  · exact error (by rw [PageRef.exec_naming, hexec]) (d.named _ hfails)

/-! ### Lists -/

section Lists

variable {I : Store → α → Prop} {R : Store → β → Prop}

theorem listMapM {f : α → StoreM β}
    (hI : ∀ {s s'} a, d.Later s s' → I s a → I s' a)
    (hR : ∀ {s s'} b, d.Later s s' → R s b → R s' b)
    (hf : ∀ s a, I s a → d.Obeys (f a) s fun b s' => R s' b) (l : List α) (hl : ∀ a ∈ l, I s a) :
    d.Obeys (l.mapM f) s fun bs s' => ∀ b ∈ bs, R s' b := by
  induction l generalizing s with
  | nil => exact .pure (by simp)
  | cons a l ih =>
      rw [List.mapM_cons]
      refine (hf s a (hl a List.mem_cons_self)).bind fun b s' hlater hb => ?_
      refine (ih fun a' ha' => hI a' hlater (hl a' (List.mem_cons_of_mem a ha'))).bind ?_
      intro bs s'' hlater' hbs
      refine .pure fun b' hb' => ?_
      rcases List.mem_cons.1 hb' with rfl | hb'
      · exact hR _ hlater' hb
      · exact hbs b' hb'

theorem listFindSomeM {f : α → StoreM (Option γ)}
    (hI : ∀ {s s'} a, d.Later s s' → I s a → I s' a) (hf : ∀ s a, I s a → d.Allows (f a) s)
    (l : List α) (hl : ∀ a ∈ l, I s a) : d.Allows (l.findSomeM? f) s := by
  induction l generalizing s with
  | nil => exact .pure trivial
  | cons a l ih =>
      rw [List.findSomeM?]
      refine (hf s a (hl a List.mem_cons_self)).bind fun found s' hlater _ => ?_
      cases found with
      | none => exact ih fun a' ha' => hI a' hlater (hl a' (List.mem_cons_of_mem a ha'))
      | some _ => exact .pure trivial

theorem listForM {f : α → StoreM PUnit}
    (hI : ∀ {s s'} a, d.Later s s' → I s a → I s' a) (hf : ∀ s a, I s a → d.Allows (f a) s)
    (l : List α) (hl : ∀ a ∈ l, I s a) : d.Allows (l.forM f) s := by
  induction l generalizing s with
  | nil => exact .pure trivial
  | cons a l ih =>
      rw [List.forM]
      exact (hf s a (hl a List.mem_cons_self)).bind fun _ s' hlater _ =>
        ih fun a' ha' => hI a' hlater (hl a' (List.mem_cons_of_mem a ha'))

end Lists

/-- Operations on the children of a page lead to a page with tracked children. -/
theorem mapChildren {f : PageRef → StoreM PageRef} {page : LivePage} (version : Nat)
    (hf : ∀ s r, d.Tracks s r → d.Obeys (f r) s fun r' s' => d.Tracks s' r')
    (hopens : d.Opens s page) :
    d.Obeys (page.mapChildren version f) s fun page' s' => d.Opens s' page' := by
  rw [Page.mapChildren_eq]
  have hchildren := listMapM (I := d.Tracks) (R := d.Tracks) (fun _ => d.tracks_later)
    (fun _ => d.tracks_later) hf page.children hopens
  refine hchildren.bind fun children s' _ htracks => .pure fun m hm => ?_
  exact htracks m (Page.mem_of_mem_withChildren hm)

end Obeys

/-! ## Steps -/

variable {r : PageRef} {page : LivePage} {fold : Value}

theorem copyOf_obeys (page : LivePage) :
    d.Obeys (PageRef.copyOf page) s fun copy _ => copy.page = page :=
  .ok (exec_modifyGet _ s) (d.copied (exec_modifyGet _ s)) rfl

theorem holding_obeys {copy : PageCopy} {kind : TreeKind} {stem : Nat} {header : Header}
    (hopens : d.Opens s copy.page) :
    d.Obeys (PageRef.holding kind stem header copy) s fun r s' => d.Tracks s' r := by
  obtain ⟨hlater, htracks⟩ := d.made hopens (exec_modifyGet _ s)
  exact .ok (exec_modifyGet _ s) hlater htracks

theorem ofPage_obeys (hopens : d.Opens s page) :
    d.Obeys (PageRef.ofPage page fold) s fun r s' => d.Tracks s' r := by
  refine (copyOf_obeys page).bind fun copy s' hlater hcopy => holding_obeys ?_
  rw [hcopy]
  exact hopens.later hlater

theorem withFold_obeys (htracks : d.Tracks s r) :
    d.Obeys (r.withFold fold) s fun r' s' => d.Tracks s' r' := by
  obtain ⟨hlater, htracks'⟩ := d.refolded htracks (PageRef.exec_withFold r fold s)
  exact .ok (PageRef.exec_withFold r fold s) hlater htracks'

theorem pageCopy_obeys (htracks : d.Tracks s r) :
    d.Obeys r.pageCopy s fun copy s' => d.Opens s' copy.page := by
  rcases hexec : exec r.pageCopy s with ⟨e | copy, s'⟩
  · exact .error hexec (d.notFound htracks hexec)
  · exact .ok hexec (d.found htracks hexec).1 (d.found htracks hexec).2

theorem page_obeys (htracks : d.Tracks s r) :
    d.Obeys r.page s fun page s' => d.Opens s' page :=
  (pageCopy_obeys htracks).bind fun _ _ _ hopens => .pure hopens

/-- A page that memory holds strongly. -/
theorem hardPage_obeys {f : Option LivePage → StoreM β} (htracks : d.Tracks s r)
    (hnone : d.Obeys (f none) s Q)
    (hsome : ∀ page, d.Opens s page → d.Obeys (f (some page)) s Q) :
    d.Obeys (r.hardPage? >>= f) s Q := by
  have hexec : exec r.hardPage? s = (.ok ((s.hold r).strong?.map PageCopy.page), s) := rfl
  refine .look hexec ?_
  cases hhold : s.hold r with
  | strong copy => exact hsome copy.page (d.tracks_held htracks (by rw [hhold]; rfl))
  | weak | unloaded => exact hnone

/-! ## Pages -/

/-- The parts of a page have their children from it. -/
theorem opens_cut {kind : TreeKind} {settings : Settings} (reshaping : Reshaping kind settings)
    (hopens : d.Opens s page) : ∀ part ∈ reshaping.cut page, d.Opens s part :=
  fun part hpart m hm => hopens m <| (reshaping.cut_alike page).perm.subset <|
    List.mem_flatMap.2 ⟨part, hpart, hm⟩

theorem opens_join {kind : TreeKind} {settings : Settings} (reshaping : Reshaping kind settings)
    (isLast : Bool) {page' : LivePage} (hopens : d.Opens s page) (hopens' : d.Opens s page') :
    d.Opens s (reshaping.join isLast page page') := by
  intro m hm
  rcases List.mem_append.1 (reshaping.join_subset isLast page page' hm) with hm | hm
  · exact hopens m hm
  · exact hopens' m hm

/-- The children of a node of a B-tree are tracked, with whatever keys. -/
def OpensSlots (d : Conduct) (s : Store) (slots : List (Value × PageRef)) : Prop :=
  ∀ slot ∈ slots, d.Tracks s slot.2

theorem OpensSlots.later {slots : List (Value × PageRef)} (hlater : d.Later s s')
    (hslots : d.OpensSlots s slots) : d.OpensSlots s' slots :=
  fun slot hslot => d.tracks_later hlater (hslots slot hslot)

theorem Opens.slots {slots : List (Value × PageRef)} (hopens : d.Opens s page)
    (hbody : page.body = .btreeNode slots) : d.OpensSlots s slots := by
  intro slot hslot
  refine hopens slot.2 ?_
  rw [Page.children_eq, hbody]
  exact List.mem_map_of_mem hslot

theorem OpensSlots.opens {slots : List (Value × PageRef)} (hslots : d.OpensSlots s slots)
    (hbody : page.body = .btreeNode slots) : d.Opens s page := by
  intro m hm
  rw [Page.children_eq, hbody] at hm
  obtain ⟨slot, hslot, rfl⟩ := List.mem_map.1 hm
  exact hslots slot hslot

theorem Opens.tiles {children : List PageRef} (hopens : d.Opens s page)
    (hbody : page.body = .qtreeNode children) : ∀ m ∈ children, d.Tracks s m := by
  intro m hm
  refine hopens m ?_
  rw [Page.children_eq, hbody]
  exact hm

end Conduct
end PageTree
