import PageTree.Proofs.QTree.Balance

/-!
# Looking up a key

A look-up at a point only enters the children whose tiles contain the point, and one by key
alone enters all of them; either finds the slot that it looks for, if there is one
(`find_runs`, `locate_runs`).
-/

namespace PageTree
namespace QTree

open Slots
open BTree (Realm)

/-- What has been found is the slot of the list with a property, if there is one. -/
def Finds (P : Slot → Prop) (slots : List Slot) (found : Option Slot) : Prop :=
  ∀ slot, found = some slot ↔ slot ∈ slots ∧ P slot

section Finds

variable {P : Slot → Prop} {slots slots' : List Slot} {found : Option Slot}

theorem Finds.perm (hfinds : Finds P slots found) (hperm : slots.Perm slots') :
    Finds P slots' found := by
  intro slot
  rw [hfinds slot, hperm.mem_iff]

theorem Finds.none (hfinds : Finds P slots .none) : ∀ slot ∈ slots, ¬ P slot := by
  intro slot hslot hP
  have hsome := (hfinds slot).2 ⟨hslot, hP⟩
  cases hsome

theorem finds_none (hnone : ∀ slot ∈ slots, ¬ P slot) : Finds P slots .none := by
  intro slot
  constructor
  · intro habsurd
    cases habsurd
  · rintro ⟨hslot, hP⟩
    exact absurd hP (hnone slot hslot)

/-- Of slots with distinct keys, one that has the key is what is found. -/
theorem finds_some {key : Value} (hplaced : WellPlaced slots)
    (hkey : ∀ slot, P slot → slot.key = key) {slot : Slot} (hslot : slot ∈ slots) (hP : P slot) :
    Finds P slots (some slot) := by
  intro slot'
  rw [Option.some.injEq]
  constructor
  · rintro rfl
    exact ⟨hslot, hP⟩
  · rintro ⟨hslot', hP'⟩
    exact hplaced.eq_of_key hslot hslot' ((hkey slot hP).trans (hkey slot' hP').symm)

end Finds

variable {W : Type} [Terrain W] {s : Store} {w : W} {height stem version : Nat}
  {slots : List Slot} {r : PageRef} {key : Value} {point : Point}

/-- A search for the first item that gives something. -/
theorem findSomeM_runs {α β : Type} {f : α → StoreM (Option β)} {R : α → Option β → Prop}
    (hrep : Realm.Represents s w) (l : List α)
    (hf : ∀ a ∈ l, ∀ s' w', Realm.Grows s w s' w' →
      Realm.Runs (f a) s' w' fun found _ _ => R a found) :
    Realm.Runs (l.findSomeM? f) s w fun found _ _ =>
      (found = none → ∀ a ∈ l, R a none) ∧ ∀ b, found = some b → ∃ a ∈ l, R a (some b) := by
  induction l generalizing s w with
  | nil => exact Realm.pure hrep ⟨by simp, by simp⟩
  | cons a l ih =>
      rw [List.findSomeM?_cons]
      refine Realm.bind (hf a List.mem_cons_self s w (Realm.grows_refl hrep)) ?_
      intro found s' w' hgrows hfound
      have hrep' := Realm.represents hgrows
      cases found with
      | some b =>
          refine Realm.pure hrep' ⟨by simp, ?_⟩
          rintro b' ⟨⟩
          exact ⟨a, List.mem_cons_self, hfound⟩
      | none =>
          refine Realm.mono (ih hrep' fun a' ha' s'' w'' hgrows' =>
            hf a' (List.mem_cons_of_mem a ha') s'' w'' (Realm.grows_trans hgrows hgrows')) ?_
          rintro found' s'' w'' - ⟨hnone, hsome⟩
          refine ⟨?_, ?_⟩
          · intro hfound' a' ha'
            rcases List.mem_cons.1 ha' with rfl | ha'
            · exact hfound
            · exact hnone hfound' a' ha'
          · intro b hb
            obtain ⟨a', ha', hR⟩ := hsome b hb
            exact ⟨a', List.mem_cons_of_mem a ha', hR⟩

/-- A search among children that leaves out only children without the slot finds it, if it
does so beneath each child. -/
theorem searchChildren_runs {P : Slot → Prop} {f : PageRef → StoreM (Option Slot)}
    (hrep : Realm.Represents s w) {children searched : List PageRef} {parts : List (List Slot)}
    (hrow : Row w height stem version children parts) (hplaced : WellPlaced parts.flatten)
    (hkey : ∀ slot, P slot → slot.key = key) (hsub : ∀ m ∈ searched, m ∈ children)
    (hsearched : ∀ m ∈ children, ∀ part ∈ parts,
      Terrain.Branch w height stem version m part → ∀ slot ∈ part, P slot → m ∈ searched)
    (hf : ∀ m ∈ searched, ∀ part ∈ parts, Terrain.Branch w height stem version m part →
      ∀ s' w', Realm.Grows s w s' w' →
        Realm.Runs (f m) s' w' fun found _ _ => Finds P part found) :
    Realm.Runs (searched.findSomeM? f) s w fun found _ _ => Finds P parts.flatten found := by
  refine Realm.mono (findSomeM_runs (R := fun m found =>
    ∃ part ∈ parts, Terrain.Branch w height stem version m part ∧ Finds P part found) hrep
    searched ?_) ?_
  · intro m hm s' w' hgrows
    obtain ⟨part, hpart, -, hbranch⟩ := Filled.part_of_mem hrow (hsub m hm)
    refine Realm.mono (hf m hm part hpart hbranch s' w' hgrows) ?_
    exact fun found s'' w'' _ hfinds => ⟨part, hpart, hbranch, hfinds⟩
  · rintro found s' w' - ⟨hnone, hsome⟩
    cases found with
    | none =>
        refine finds_none ?_
        intro slot hslot hP
        obtain ⟨part, hpart, hmem⟩ := List.mem_flatten.1 hslot
        obtain ⟨m, hm, hbranch⟩ := Filled.child_of_mem hrow hpart
        obtain ⟨part', -, hbranch', hfinds⟩ :=
          hnone rfl m (hsearched m hm part hpart hbranch slot hmem hP)
        obtain rfl := Terrain.branch_unique hrep hbranch hbranch'
        exact hfinds.none slot hmem hP
    | some slot =>
        obtain ⟨m, hm, part, hpart, hbranch, hfinds⟩ := hsome slot rfl
        obtain ⟨hmem, hP⟩ := (hfinds slot).1 rfl
        exact finds_some hplaced hkey (List.mem_flatten_of_mem hpart hmem) hP

theorem findWithin_runs (hrep : Realm.Represents s w) (depth : Nat) (hdepth : r.treeSize < depth)
    (hplaced : WellPlaced slots) (hbranch : Terrain.Branch w height stem version r slots) :
    Realm.Runs (findWithin key point depth r) s w fun found _ _ =>
      Finds (fun slot => slot.IsAt key point) slots found := by
  induction depth generalizing s w height version r slots with
  | zero => exact absurd hdepth (Nat.not_lt_zero _)
  | succ depth ih =>
      unfold findWithin
      refine Realm.bind (Terrain.branch_page hrep hbranch) ?_
      rintro page s' w' hgrows ⟨hpage, rfl, hversion, hholds⟩
      have hrep' := Realm.represents hgrows
      have hbranch' := Terrain.branch_grows hgrows hbranch
      cases height with
      | zero =>
          obtain ⟨hsorted, hbody⟩ := hholds
          simp only [hbody]
          refine Realm.pure hrep' ?_
          intro slot
          rw [Option.filter_eq_some_iff, find?_eq_some_iff hsorted, decide_eq_true_eq, and_assoc]
          rfl
      | succ height =>
          obtain ⟨children, parts, hbody, hrow, rfl⟩ := hholds
          simp only [hbody]
          refine searchChildren_runs hrep' hrow hplaced (fun slot hat => hat.1) ?_ ?_ ?_
          · exact fun m hm => List.mem_of_mem_filter hm
          · -- the tiles of a child contain the points of its slots
            intro m hm part hpart hchild slot hslot hat
            refine List.mem_filter.2 ⟨hm, ?_⟩
            have hwithin := Terrain.isWithin hrep' hchild
              (fun slot' hslot' => hplaced.valid slot' (List.mem_flatten_of_mem hpart hslot'))
              hslot
            rwa [hat.2] at hwithin
          · intro m hm part hpart hchild s'' w'' hgrows'
            have hmem : m ∈ page.children := by
              simpa [Page.children, hbody] using List.mem_of_mem_filter hm
            have hlt := Terrain.branch_treeSize_lt hrep' hbranch' hpage hmem
            exact ih (Realm.represents hgrows') (by omega)
              (hplaced.sublist (List.sublist_flatten_of_mem hpart))
              (Terrain.branch_grows hgrows' hchild)

/-- A look-up at a point finds the slot that the key has there. -/
theorem find_runs (hrep : Realm.Represents s w) (hplaced : WellPlaced slots)
    (hbranch : Terrain.Branch w height stem version r slots) (key : Value) (point : Point) :
    Realm.Runs (find? r key point) s w fun found _ _ =>
      Finds (fun slot => slot.IsAt key point) slots found := by
  refine Realm.get (findWithin_runs hrep _ ?_ hplaced hbranch)
  exact Store.treeSize_lt_depthBound _ _

theorem locateWithin_runs (hrep : Realm.Represents s w) (depth : Nat)
    (hdepth : r.treeSize < depth) (hplaced : WellPlaced slots)
    (hbranch : Terrain.Branch w height stem version r slots) :
    Realm.Runs (locateWithin key depth r) s w fun found _ _ =>
      Finds (fun slot => slot.key = key) slots found := by
  induction depth generalizing s w height version r slots with
  | zero => exact absurd hdepth (Nat.not_lt_zero _)
  | succ depth ih =>
      unfold locateWithin
      refine Realm.bind (Terrain.branch_page hrep hbranch) ?_
      rintro page s' w' hgrows ⟨hpage, rfl, hversion, hholds⟩
      have hrep' := Realm.represents hgrows
      have hbranch' := Terrain.branch_grows hgrows hbranch
      cases height with
      | zero =>
          obtain ⟨hsorted, hbody⟩ := hholds
          simp only [hbody]
          exact Realm.pure hrep' fun slot => find?_eq_some_iff hsorted key slot
      | succ height =>
          obtain ⟨children, parts, hbody, hrow, rfl⟩ := hholds
          simp only [hbody]
          refine searchChildren_runs hrep' hrow hplaced (fun slot hkey => hkey) ?_ ?_ ?_
          · exact fun m hm => hm
          · exact fun m hm _ _ _ _ _ _ => hm
          · intro m hm part hpart hchild s'' w'' hgrows'
            have hmem : m ∈ page.children := by
              simpa [Page.children, hbody] using hm
            have hlt := Terrain.branch_treeSize_lt hrep' hbranch' hpage hmem
            exact ih (Realm.represents hgrows') (by omega)
              (hplaced.sublist (List.sublist_flatten_of_mem hpart))
              (Terrain.branch_grows hgrows' hchild)

/-- A look-up by key alone finds the slot of the key. -/
theorem locate_runs (hrep : Realm.Represents s w) (hplaced : WellPlaced slots)
    (hbranch : Terrain.Branch w height stem version r slots) (key : Value) :
    Realm.Runs (locate? r key) s w fun found _ _ =>
      Finds (fun slot => slot.key = key) slots found := by
  refine Realm.get (locateWithin_runs hrep _ ?_ hplaced hbranch)
  exact Store.treeSize_lt_depthBound _ _

end QTree
end PageTree
