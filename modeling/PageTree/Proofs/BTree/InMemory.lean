import PageTree.Proofs.BTree.Refinement
import PageTree.Proofs.InMemory.Rebuild

/-!
# B-trees in memory

The states of memory are a realm of B-trees, so that everything proved of B-trees over a realm
holds of trees that are all in memory, wherever their pages have been given places.
-/

namespace PageTree
namespace BTree

open StoreM

variable {s s' : Store} {height height' stem : Nat} {r r' : PageRef} {es es' : List Entry}
  {p : LivePage}

/-- Only the page of a site matters. -/
theorem Holds.congr {c : Chart} {n n' : Site} (hpage : c.page n = c.page n')
    (hholds : Holds c height n es) : Holds c height n' es := by
  cases height with
  | zero =>
      obtain ⟨hsorted, p, hp, hbody⟩ := hholds
      exact ⟨hsorted, p, hpage ▸ hp, hbody⟩
  | succ height =>
      obtain ⟨hsorted, p, children, parts, hp, hrest⟩ := hholds
      exact ⟨hsorted, p, children, parts, hpage ▸ hp, hrest⟩

/-- A tree in memory is a B-tree of a height with sorted entries. -/
structure Upholds (s : Store) (height stem : Nat) (r : PageRef) (es : List Entry) : Prop where
  upright : s.Upright .btree stem r
  holds : Holds s.pinned height (.live r) es

namespace Upholds

theorem keep (hkeeps : s.Keeps s') (hup : Upholds s height stem r es) :
    Upholds s' height stem r es :=
  ⟨hup.upright.keep hkeeps, hup.holds.mono hkeeps.pinned_le⟩

/-- References to one page have the same entries beneath. -/
theorem same {stem' : Nat} (hup : Upholds s height stem r es)
    (hup' : Upholds s height' stem' r' es') (hsame : r.same r' = true) : es = es' := by
  obtain ⟨p, hp⟩ := hup.upright.pins
  refine (hup.holds.congr ?_).unique hup'.holds
  rw [hp.page, (hp.of_same hsame).page]

/-- A tree alike is a B-tree of the same height with the same entries. -/
theorem likeness (hup : Upholds s height stem r es) (hlike : s.Likeness .btree stem r r') :
    Upholds s height stem r' es :=
  ⟨hlike.upright, hup.holds.alike hlike.alike⟩

end Upholds

/-- What memory says of subtrees; versions do not matter to it. -/
def Recalled (s : Store) : Judgment :=
  fun height stem _ r es => Upholds s height stem r es

/-- What is beneath a reference in memory, seen at its page. -/
theorem Upholds.pageHolds (hup : Upholds s height stem r es) (hp : s.Pins r p) :
    PageHolds (Recalled s) height p es := by
  have hbeneath := fun m hm => hup.upright.child hp (m := m) hm
  have hstem := (hup.upright.stems hp).2
  have hpage := hp.page
  obtain ⟨version, pageStem, body⟩ := p
  subst hstem
  cases height with
  | zero =>
      obtain ⟨-, -, q, hq, hbody⟩ := hup
      rw [hpage] at hq
      cases hq
      cases body <;> cases hbody
      rfl
  | succ height =>
      obtain ⟨-, -, q, sites, parts, hq, hbody, hkeyed, rfl⟩ := hup
      rw [hpage] at hq
      cases hq
      cases body <;> cases hbody
      next children =>
      refine ⟨children, parts, rfl, ?_, rfl⟩
      have hchildren : ∀ child ∈ children, s.Upright .btree pageStem child.2 :=
        fun child hm => hbeneath child.2 (List.mem_map_of_mem hm)
      have hkeyed' : Keyed (fun m es => Holds s.pinned height (.live m) es) children parts :=
        List.forall₂_map_left_iff.1 hkeyed
      exact hkeyed'.imp_mem fun child hm es hholds => ⟨hchildren child hm, hholds⟩

/-- What a page in memory holds is beneath the references to it. -/
theorem PageHolds.upholds (hholds : PageHolds (Recalled s) height p es)
    (hsorted : Entries.Sorted es) (hup : s.Upright .btree stem r) (hp : s.Pins r p) :
    Upholds s height stem r es := by
  refine ⟨hup, ?_⟩
  have hpage := hp.page
  obtain ⟨version, pageStem, body⟩ := p
  cases height with
  | zero =>
      cases hholds
      exact ⟨hsorted, _, hpage, rfl⟩
  | succ height =>
      obtain ⟨children, parts, rfl, hkeyed, rfl⟩ := hholds
      refine ⟨hsorted, _, _, parts, hpage, rfl, ?_, rfl⟩
      exact List.forall₂_map_left_iff.2
        (List.Forall₂.imp (fun _ _ hchild => ⟨hchild.1, hchild.2.holds⟩) hkeyed)

/-- The children of a page in memory are upright. -/
theorem PageHolds.upright (hholds : PageHolds (Recalled s) height p es) :
    ∀ m ∈ p.children, s.Upright p.treeKind p.stem m := by
  rw [hholds.treeKind]
  obtain ⟨version, pageStem, body⟩ := p
  cases height with
  | zero =>
      cases hholds
      simp [Page.children]
  | succ height =>
      obtain ⟨children, parts, rfl, hkeyed, -⟩ := hholds
      intro m hm
      obtain ⟨child, hchild, rfl⟩ := List.mem_map.1 hm
      obtain ⟨part, -, -, hup⟩ := exists_of_forall₂_right (List.Forall₂.flip hkeyed) hchild
      exact hup.upright

/-- The span of a B-tree in memory is the number of its entries. -/
theorem Upholds.span (hup : Upholds s height stem r es) : r.span = es.length :=
  hup.holds.span hup.upright.measured

/-- Trees that are all in memory; what the realm says of a store is the store itself. -/
instance : Realm Store where
  Represents s w := w = s
  Grows s w s' w' := w = s ∧ w' = s' ∧ s.Keeps s'
  Runs act s w post := w = s ∧ Succeeds act s fun a s' => post a s' s'
  Subtree := Recalled
  PageAt := Store.Pins
  Below _ _ := True
  grows_refl := fun hrep => ⟨hrep, hrep, .refl _⟩
  grows_trans := fun hgrows hgrows' => ⟨hgrows.1, hgrows'.2.1, hgrows.2.2.trans hgrows'.2.2⟩
  represents := fun hgrows => hgrows.2.1
  pure := by
    rintro α a s w P rfl hpost
    exact ⟨rfl, Succeeding.pure hpost⟩
  bind := by
    rintro α β act f s w P Q ⟨rfl, hact⟩ hf
    exact ⟨rfl, Succeeding.bind hact fun a s' hkeeps hpost =>
      (hf a s' s' ⟨rfl, rfl, hkeeps⟩ hpost).2⟩
  mono := by
    rintro α act s w P Q ⟨rfl, hact⟩ himp
    exact ⟨rfl, Succeeding.mono hact fun a s' hkeeps hpost =>
      himp a s' s' ⟨rfl, rfl, hkeeps⟩ hpost⟩
  get := fun hf => ⟨hf.1, Succeeding.get hf.2⟩
  below_refl _ := trivial
  subtree_grows := by
    rintro s s' w w' height stem version r es ⟨rfl, rfl, hkeeps⟩ hup
    exact hup.keep hkeeps
  subtree_raise hup _ := hup
  sorted hup := hup.holds.sorted
  span _ hup := hup.span
  stem _ hup := by
    obtain ⟨p, hp⟩ := hup.upright.pins
    exact (hup.upright.stems hp).1
  same _ := Upholds.same
  treeSize_lt _ hup := hup.upright.treeSize_lt
  page_runs := by
    rintro s w height stem version r es rfl hup
    obtain ⟨p, hp⟩ := hup.upright.pins
    refine ⟨rfl, Succeeding.mono (PageRef.page_succeeds hp) ?_⟩
    rintro found s' hkeeps ⟨rfl, hp'⟩
    exact ⟨hp', (hup.upright.stems hp).2, trivial, (hup.keep hkeeps).pageHolds hp'⟩
  ofPage_runs := by
    rintro s w height p es rfl hsorted hholds
    refine ⟨rfl, Succeeding.mono (PageRef.ofPage_succeeds p .absent hholds.upright) ?_⟩
    rintro r s' hkeeps ⟨hup, hp, -⟩
    rw [hholds.treeKind] at hup
    refine ⟨PageHolds.upholds ?_ hsorted hup hp, hp⟩
    exact hholds.imp fun _ _ _ _ _ hup => hup.keep hkeeps

end BTree
end PageTree
