import PageTree.Proofs.Commit.Layout
import PageTree.Proofs.InMemory.Pages
import PageTree.Proofs.Pictures.Rebuild

/-!
# Taking pages back

A tree whose pages from a version on are taken back from being committed is the same tree with
those pages uncommitted.  `Store.Demotes` says what becomes of a reference: that of an older page
stays as it is, with all that lies beneath it, and that of any other page gives way to an
uncommitted one over what becomes of its children.  What is taken back can be written again:
`Store.Drafts` lists all the uncommitted pages of a tree, and the next diff writes just these
(`Store.Writes.drafts`).
-/

namespace PageTree

open StoreM

variable {s s' : Store} {version : Nat} {r r' m k : PageRef} {p p' q : LivePage}

/-! ## Trees held to stay -/

/-- What a page is to its reference and to its children: the header describes it, no child is newer,
and if it is stored in a zone, so are its children. -/
structure Store.Stands (s : Store) (r : PageRef) (p : LivePage) : Prop where
  described : r.header.Describes p.stored
  descends : ∀ m ∈ p.children, ∀ q, s.Pins m q → q.version ≤ p.version
  settled : r.isCommitted = true → ∀ m ∈ p.children, m.isCommitted = true

/-- All pages of a tree are held to stay. -/
inductive Store.Standing (s : Store) : PageRef → Prop where
  | intro {r : PageRef} {p : LivePage} (pins : s.Pins r p) (stands : s.Stands r p)
      (beneath : ∀ m ∈ p.children, Standing s m) : Standing s r

namespace Store.Standing

theorem pins (hr : s.Standing r) : ∃ p, s.Pins r p := by
  obtain ⟨hpins, -, -⟩ := hr
  exact ⟨_, hpins⟩

theorem stands (hr : s.Standing r) (hp : s.Pins r p) : s.Stands r p := by
  obtain ⟨hpins, hstands, -⟩ := hr
  rwa [hp.unique hpins]

theorem child (hr : s.Standing r) (hp : s.Pins r p) (hm : m ∈ p.children) : s.Standing m := by
  obtain ⟨hpins, -, hbeneath⟩ := hr
  rw [hp.unique hpins] at hm
  exact hbeneath m hm

theorem keep (hkeeps : s.Keeps s') (hr : s.Standing r) : s'.Standing r := by
  induction hr with
  | @intro r p pins stands beneath ih =>
      refine .intro (pins.keep hkeeps) ⟨stands.described, fun m hm q hq => ?_, stands.settled⟩ ih
      obtain ⟨q', hq'⟩ := (beneath m hm).pins
      rw [hq.unique (hq'.keep hkeeps)]
      exact stands.descends m hm q' hq'

theorem treeSize_lt (hr : s.Standing r) (hp : s.Pins r p) (hm : m ∈ p.children) :
    m.treeSize < r.treeSize := by
  have harea : r.treeSize = p.stored.area := (hr.stands hp).described.area_eq
  have hle : m.treeSize ≤ (p.stored.children.map Header.area).sum := by
    rw [Page.stored_children, List.map_map]
    exact le_sum_of_mem (List.mem_map_of_mem (f := PageRef.treeSize) hm)
  rw [harea, Page.area_eq_sum]
  omega

/-- Trees in use stand where memory holds all their pages to stay. -/
theorem of_fit {c : Chart} {kind : TreeKind} {stem : Nat} (hrep : Mirrors s c)
    (hfit : c.Fit kind stem version r) (hstrong : ∀ m, s.Within r m → ∃ p, s.Pins m p) :
    s.Standing r := by
  generalize hsize : r.treeSize = size
  -- what lies beneath a page is of a smaller tree, and is strongly held as well
  induction size using Nat.strongRecOn generalizing kind stem version r with
  | ind size ih =>
      obtain ⟨p, serial, hhold⟩ := hstrong r (.self r)
      have hcopy : (s.hold r).copy? = some ⟨serial, p⟩ := by rw [hhold]; rfl
      obtain ⟨hpage, hrefs⟩ := hrep.held r _ hfit.refs hcopy
      have hchild : ∀ m ∈ p.children, c.Fit p.treeKind p.stem p.version m := by
        intro m hm
        obtain ⟨rfl, rfl, -⟩ := PageRef.fit_of_page hfit hpage
        exact hrep.child_fit hfit.refs hpage hm (hrefs m hm)
      refine .intro ⟨serial, hhold⟩ ⟨?_, fun m hm q hq => ?_, fun hcommitted m hm => ?_⟩ ?_
      · have hdesc := (hrep.sound r hfit.refs).describes hpage
        rwa [PageRef.header_site, Page.map_site_header] at hdesc
      · obtain ⟨serial', hhold'⟩ := hq
        obtain ⟨hpage', -⟩ := hrep.held m _ (hrefs m hm) (by rw [hhold']; rfl)
        exact (PageRef.fit_of_page (hchild m hm) hpage').2.2
      · exact Chart.isCommitted_of_child hpage hcommitted hm
      · intro m hm
        have hlt := hrep.treeSize_lt hfit.refs hpage hm
        exact ih _ (hsize ▸ hlt) (hchild m hm) (fun k hk => hstrong k (.beneath hcopy hm hk)) rfl

/-- A tree held to stay has leaves. -/
theorem exists_reads (depth : Nat) (hdepth : r.treeSize < depth) (hr : s.Standing r) :
    ∃ shapes, s.pinned.Reads depth (.live r) shapes := by
  induction depth generalizing r with
  | zero => exact absurd hdepth (Nat.not_lt_zero _)
  | succ depth ih =>
      obtain ⟨p, hp⟩ := hr.pins
      cases hnode : p.isNode with
      | false => exact ⟨_, _, hp.page, Or.inl ⟨by simpa using hnode, rfl⟩⟩
      | true =>
          have hbeneath : ∀ n ∈ (p.map Site.live).children,
              ∃ shapes, s.pinned.Reads depth n shapes := by
            intro n hn
            rw [Page.map_children] at hn
            obtain ⟨m, hm, rfl⟩ := List.mem_map.1 hn
            have hlt := hr.treeSize_lt hp hm
            exact ih (by omega) (hr.child hp hm)
          obtain ⟨parts, hparts⟩ := exists_forall₂ hbeneath
          exact ⟨_, _, hp.page, Or.inr ⟨by simpa using hnode, parts, hparts, rfl⟩⟩

/-- The uncommitted pages of a tree can be written as soon as its root can. -/
theorem pending (hr : s.Standing r) (hle : ∀ p, s.Pins r p → p.version ≤ version) :
    s.Pending version r := by
  induction hr generalizing version with
  | @intro r p pins stands _ ih =>
      cases hcommitted : r.isCommitted with
      | true => exact .settled hcommitted
      | false =>
          obtain ⟨serial, hhold⟩ := pins
          have hdesc := stands.described
          rw [Header.Describes, if_neg (by simpa [PageRef.isCommitted] using hcommitted)] at hdesc
          exact .pending hcommitted hhold hdesc (hle p ⟨serial, hhold⟩) fun m hm =>
            ih m hm (stands.descends m hm)

end Store.Standing

/-! ## Trees side by side -/

theorem getElem_mem_zip {α β : Type} {as : List α} {bs : List β} {i : Nat} (h : i < as.length)
    (h' : i < bs.length) : (as[i], bs[i]) ∈ as.zip bs := by
  have hi : i < (as.zip bs).length := by
    rw [List.length_zip]
    exact Nat.lt_min.2 ⟨h, h'⟩
  have hget : (as.zip bs)[i] = (as[i], bs[i]) := List.getElem_zip
  rw [← hget]
  exact List.getElem_mem hi

/-- The relation goes on from page to page: it relates only references that are held to stay, and
with them their children, one after another. -/
def Store.Steps (s : Store) (T : PageRef → PageRef → Prop) : Prop :=
  ∀ a a', T a a' → ∃ p p', s.Pins a p ∧ s.Pins a' p' ∧ List.Forall₂ T p.children p'.children

namespace Store.Steps

variable {T : PageRef → PageRef → Prop}

/-- What stands at the same place in two trees is related. -/
theorem paired (hsteps : s.Steps T) (hr : T r r') (hpaired : s.Paired r r' m k) : T m k := by
  induction hpaired with
  | self => exact hr
  | @beneath a a' _ _ _ _ copy copy' hold hold' child _ ih =>
      obtain ⟨p, p', hp, hp', hall⟩ := hsteps a a' hr
      obtain rfl : copy.page = p := Pins.unique ⟨copy.serial, hold⟩ hp
      obtain rfl : copy'.page = p' := Pins.unique ⟨copy'.serial, hold'⟩ hp'
      exact ih (List.forall₂_zip hall child)

/-- Every page of the first tree has its place in the second. -/
theorem exists_right (hsteps : s.Steps T) (hr : T r r') (hwithin : s.Within r m) :
    ∃ k, s.Paired r r' m k := by
  induction hwithin generalizing r' with
  | self r => exact ⟨r', .self r r'⟩
  | @beneath r m _ copy held child _ ih =>
      obtain ⟨p, p', ⟨serial, hold⟩, ⟨serial', hold'⟩, hall⟩ := hsteps r r' hr
      rw [hold] at held
      cases held
      obtain ⟨m', hzip, hm⟩ := PageRef.exists_zip_of_forall₂ hall child
      obtain ⟨k, hk⟩ := ih hm
      exact ⟨k, .beneath hold hold' hzip hk⟩

/-- Every page of the second tree has its place in the first. -/
theorem exists_left (hsteps : s.Steps T) (hr : T r r') (hwithin : s.Within r' k) :
    ∃ m, s.Paired r r' m k := by
  induction hwithin generalizing r with
  | self r' => exact ⟨r, .self r r'⟩
  | @beneath r' k' _ copy held child _ ih =>
      obtain ⟨p, p', ⟨serial, hold⟩, ⟨serial', hold'⟩, hall⟩ := hsteps r r' hr
      rw [hold'] at held
      cases held
      obtain ⟨i, hi', rfl⟩ := List.getElem_of_mem child
      have hi : i < p.children.length := hall.length_eq ▸ hi'
      have hzip : (p.children[i], p'.children[i]) ∈ p.children.zip p'.children :=
        getElem_mem_zip hi hi'
      obtain ⟨m, hm⟩ := ih (List.forall₂_zip hall hzip)
      exact ⟨m, .beneath hold hold' hzip hm⟩

end Store.Steps

/-! ## What becomes of the pages -/

/-- What becomes of a reference when the pages from a version on are taken back. -/
inductive Store.Demotes (s : Store) (version : Nat) : PageRef → PageRef → Prop where
  | older {r : PageRef} {p : LivePage} (pins : s.Pins r p) (older : p.version < version) :
      Demotes s version r r
  | newer {r r' : PageRef} {p p' : LivePage} (pins : s.Pins r p) (pins' : s.Pins r' p')
      (newer : version ≤ p.version) (uncommitted : r'.isCommitted = false)
      (fold : r'.fold = r.fold) (version_eq : p'.version = p.version) (stem : p'.stem = p.stem)
      (shape : p'.body.shape = p.body.shape) (length : p.children.length = p'.children.length)
      (children : ∀ i h h', Demotes s version (p.children.get ⟨i, h⟩) (p'.children.get ⟨i, h'⟩)) :
      Demotes s version r r'

namespace Store.Demotes

theorem of_rebuilt (hp : s.Pins r p) (hp' : s.Pins r' p') (hnewer : version ≤ p.version)
    (huncommitted : r'.isCommitted = false) (hfold : r'.fold = r.fold)
    (hrebuilt : p.Rebuilt (s.Demotes version) p.version p') : s.Demotes version r r' := by
  obtain ⟨hlength, hget⟩ := List.forall₂_iff_get.1 hrebuilt.children
  exact newer hp hp' hnewer huncommitted hfold hrebuilt.version hrebuilt.stem hrebuilt.shape hlength
    hget

theorem keep (hkeeps : s.Keeps s') (hdemotes : s.Demotes version r r') :
    s'.Demotes version r r' := by
  induction hdemotes with
  | older pins hlt => exact older (pins.keep hkeeps) hlt
  | newer pins pins' hle uncommitted fold version_eq stem shape length _ ih =>
      exact newer (pins.keep hkeeps) (pins'.keep hkeeps) hle uncommitted fold version_eq stem shape
        length ih

/-- The pages of a reference and of what becomes of it. -/
theorem pages (hr : s.Standing r) (hdemotes : s.Demotes version r r') (hp : s.Pins r p) :
    ∃ p', s.Pins r' p' ∧ r'.fold = r.fold ∧
      p.Rebuilt (fun m m' => s.Demotes version m m' ∧ s.Standing m) p.version p' := by
  cases hdemotes with
  | @older _ q pins hlt =>
      obtain rfl := pins.unique hp
      refine ⟨q, hp, rfl, rfl, rfl, rfl, List.forall₂_same.2 fun m hm => ?_⟩
      -- what lies beneath an older page is older still
      have hm' := hr.child hp hm
      obtain ⟨q', hq'⟩ := hm'.pins
      exact ⟨older hq' (Nat.lt_of_le_of_lt ((hr.stands hp).descends m hm q' hq') hlt), hm'⟩
  | @newer _ _ q p' pins pins' _ _ fold version_eq stem shape length children =>
      obtain rfl := pins.unique hp
      refine ⟨p', pins', fold, version_eq, stem, shape, List.forall₂_iff_get.2 ⟨length, ?_⟩⟩
      exact fun i h h' => ⟨children i h h', hr.child hp (List.get_mem _ _)⟩

/-- Demotion goes on from page to page. -/
theorem steps (s : Store) (version : Nat) :
    s.Steps fun m m' => s.Demotes version m m' ∧ s.Standing m := by
  rintro a a' ⟨hdemotes, ha⟩
  obtain ⟨p, hp⟩ := ha.pins
  obtain ⟨p', hp', -, hrebuilt⟩ := hdemotes.pages ha hp
  exact ⟨p, p', hp, hp', hrebuilt.children⟩

theorem version_eq (hr : s.Standing r) (hdemotes : s.Demotes version r r') (hp : s.Pins r p)
    (hp' : s.Pins r' p') : p'.version = p.version := by
  obtain ⟨q, hq, -, hrebuilt⟩ := hdemotes.pages hr hp
  rw [hp'.unique hq, hrebuilt.version]

/-- Just the pages from the version on are uncommitted that were not so before. -/
theorem uncommitted_iff (hdemotes : s.Demotes version r r') (hp : s.Pins r p) :
    r'.isCommitted = false ↔ version ≤ p.version ∨ r.isCommitted = false := by
  cases hdemotes with
  | older pins hlt =>
      obtain rfl := pins.unique hp
      simp [Nat.not_le.2 hlt]
  | newer pins _ hle huncommitted =>
      obtain rfl := pins.unique hp
      simp [huncommitted, hle]

theorem eq_of_lt (hdemotes : s.Demotes version r r') (hp : s.Pins r p)
    (hlt : p.version < version) : r' = r := by
  cases hdemotes with
  | older => rfl
  | newer pins _ hle =>
      obtain rfl := pins.unique hp
      omega

theorem alike (hdemotes : s.Demotes version r r') : s.pinned.Alike (.live r) (.live r') := by
  induction hdemotes with
  | older => exact .refl _
  | newer pins pins' _ _ _ _ _ shape length _ ih =>
      refine .rebuilt pins.page pins'.page (by simpa using shape) (by simpa using length) ?_
      intro i h h'
      simp only [Page.map_children, List.get_eq_getElem, List.getElem_map]
      exact ih i _ _

end Store.Demotes

/-! ## Taking pages back -/

namespace PageRef

/-- Where no child has become another reference, the children are what they were. -/
theorem children_eq_of_fresh {as bs : List PageRef}
    (hall : List.Forall₂ (fun a b : PageRef => b.id = a.id → b = a) as bs)
    (hmoved : anyMoved as bs = false) : bs = as := by
  induction hall with
  | nil => rfl
  | cons hab _ ih =>
      simp only [anyMoved, List.zip_cons_cons, List.any_cons, Bool.or_eq_false_iff,
        Bool.not_eq_false', same, beq_iff_eq] at hmoved
      rw [hab hmoved.1.symm, ih (by simpa [anyMoved, same] using hmoved.2)]

/-- What becomes of a reference: a reference of the demoted tree, which is another one only if it
has an identity of its own. -/
structure Demoted (version : Nat) (r r' : PageRef) (s : Store) : Prop where
  demotes : s.Demotes version r r'
  standing : s.Standing r'
  fresh : r'.id = r.id → r' = r

theorem Demoted.keep (hkeeps : s.Keeps s') (hdemoted : Demoted version r r' s) :
    Demoted version r r' s' :=
  ⟨hdemoted.demotes.keep hkeeps, hdemoted.standing.keep hkeeps, hdemoted.fresh⟩

/-- A page over demoted children is no older than they are. -/
theorem descends_of_demoted (hr : s.Standing r) (hp : s.Pins r p)
    (hrebuilt : p.Rebuilt (fun m m' => Demoted version m m' s) p.version p') :
    ∀ m' ∈ p'.children, ∀ q', s.Pins m' q' → q'.version ≤ p'.version := by
  intro m' hm' q' hq'
  obtain ⟨m, hm, hdemoted⟩ := exists_of_forall₂_right hrebuilt.children hm'
  obtain ⟨q, hq⟩ := (hr.child hp hm).pins
  rw [hdemoted.demotes.version_eq (hr.child hp hm) hq hq', hrebuilt.version]
  exact (hr.stands hp).descends m hm q hq

/-- A new page over demoted children takes the place of a page from the version on. -/
theorem ofPage_demotes (hr : s.Standing r) (hp : s.Pins r p) (hnewer : version ≤ p.version)
    (hrebuilt : p.Rebuilt (fun m m' => Demoted version m m' s) p.version p') :
    Succeeds (ofPage p' r.fold) s (Demoted version r) := by
  apply Succeeding.mono (ofPage_pins p' r.fold)
  rintro r' s' hkeeps ⟨hp', hheader, hid⟩
  have huncommitted : r'.isCommitted = false := by rw [isCommitted, hheader]; rfl
  have hkept := hrebuilt.imp fun _ _ hdemoted => hdemoted.keep hkeeps
  refine ⟨.of_rebuilt (hp.keep hkeeps) hp' hnewer huncommitted (by rw [fold, hheader]; rfl)
    (hkept.imp fun _ _ hdemoted => hdemoted.demotes), .intro hp' ⟨?_, ?_, ?_⟩ ?_, ?_⟩
  · rw [hheader]
    exact Header.describes_ofPage _ _
  · exact descends_of_demoted (hr.keep hkeeps) (hp.keep hkeeps) hkept
  · intro hcommitted
    rw [huncommitted] at hcommitted
    cases hcommitted
  · intro m' hm'
    obtain ⟨m, -, hdemoted⟩ := exists_of_forall₂_right hkept.children hm'
    exact hdemoted.standing
  · -- no reference in memory had the identity of the new one
    intro hsame
    have hlt := hp.allocated
    omega

theorem uncommittedWithin_demotes (depth : Nat) (hdepth : r.treeSize < depth)
    (hr : s.Standing r) :
    Succeeds (uncommittedWithin version depth r) s (Demoted version r) := by
  induction depth generalizing s r with
  | zero => exact absurd hdepth (Nat.not_lt_zero _)
  | succ depth ih =>
      obtain ⟨p, hp⟩ := hr.pins
      unfold uncommittedWithin
      apply Succeeding.bind (hardPage_succeeds hp)
      rintro found s' - ⟨rfl, rfl⟩
      dsimp only
      split
      · next holder => exact Succeeding.pure ⟨.older hp holder, hr, fun _ => rfl⟩
      · next hnewer =>
          replace hnewer : version ≤ p.version := Nat.not_lt.1 hnewer
          apply Succeeding.bind (Succeeding.mapChildren (R := Demoted version) p p.version
            (fun _ _ _ _ hkeeps hdemoted => hdemoted.keep hkeeps) ?_)
          · intro p' s' hkeeps hrebuilt
            split
            · exact ofPage_demotes (hr.keep hkeeps) (hp.keep hkeeps) hnewer hrebuilt
            · -- the page was uncommitted before, and so was all that would have changed beneath it
              next hstill =>
                obtain ⟨huncommitted, hmoved⟩ := by simpa using hstill
                have hall := hrebuilt.children
                rw [children_eq_of_fresh (hall.imp fun _ _ hdemoted => hdemoted.fresh) hmoved]
                  at hall
                refine Succeeding.pure ⟨.of_rebuilt (hp.keep hkeeps) (hp.keep hkeeps) hnewer
                  huncommitted rfl ⟨rfl, rfl, rfl, ?_⟩, hr.keep hkeeps, fun _ => rfl⟩
                exact hall.imp fun _ _ hdemoted => hdemoted.demotes
          · intro m hm s' hkeeps
            have hlt := hr.treeSize_lt hp hm
            exact ih (by omega) ((hr.child hp hm).keep hkeeps)

/-- Taking pages back demotes a tree that is held to stay. -/
theorem uncommitted_demotes (version : Nat) (hr : s.Standing r) :
    Succeeds (r.uncommitted version) s (Demoted version r) := by
  apply Succeeding.get
  exact uncommittedWithin_demotes _ (Store.treeSize_lt_depthBound _ _) hr

end PageRef

/-! ## Writing them again -/

/-- The uncommitted pages of a tree held to stay, each after those beneath it, whatever lies above
them. -/
inductive Store.Drafts (s : Store) : PageRef → List PageRef → Prop where
  | page {r : PageRef} {p : LivePage} {parts : List (List PageRef)} (pins : s.Pins r p)
      (length : p.children.length = parts.length)
      (children : ∀ i h h', Drafts s (p.children.get ⟨i, h⟩) (parts.get ⟨i, h'⟩)) :
      Drafts s r (parts.flatten ++ if r.isCommitted then [] else [r])

/-- The drafts of a tree are the uncommitted references that its root leads to. -/
theorem Store.Drafts.mem_iff {drafts : List PageRef} (hdrafts : s.Drafts r drafts) :
    k ∈ drafts ↔ s.Within r k ∧ k.isCommitted = false := by
  induction hdrafts with
  | @page r p parts pins length _ ih =>
      obtain ⟨serial, hhold⟩ := pins
      -- the page itself comes last, if it is uncommitted
      have hself : k ∈ (if r.isCommitted then [] else [r]) ↔ k = r ∧ k.isCommitted = false := by
        split <;> simp_all
      rw [List.mem_append, hself, List.mem_flatten]
      constructor
      · rintro (⟨part, hpart, hk⟩ | ⟨rfl, huncommitted⟩)
        · obtain ⟨i, hi', rfl⟩ := List.getElem_of_mem hpart
          have hi : i < p.children.length := length ▸ hi'
          obtain ⟨hwithin, huncommitted⟩ := (ih i hi hi').1 hk
          exact ⟨.beneath (by rw [hhold]; rfl) (List.get_mem _ ⟨i, hi⟩) hwithin, huncommitted⟩
        · exact ⟨.self k, huncommitted⟩
      · rintro ⟨hwithin, huncommitted⟩
        cases hwithin with
        | self => exact Or.inr ⟨rfl, huncommitted⟩
        | beneath held child hwithin =>
            rw [hhold] at held
            cases held
            obtain ⟨i, hi, rfl⟩ := List.getElem_of_mem child
            have hi' : i < parts.length := length ▸ hi
            exact Or.inl ⟨_, List.get_mem parts ⟨i, hi'⟩, (ih i hi hi').2 ⟨hwithin, huncommitted⟩⟩

/-- The drafts of a tree stay what they are while memory keeps its pages. -/
theorem Store.Drafts.of_keeps {drafts : List PageRef} (hkeeps : s.Keeps s') (hr : s.Standing r)
    (hdrafts : s'.Drafts r drafts) : s.Drafts r drafts := by
  induction hdrafts with
  | @page r p parts pins length _ ih =>
      obtain ⟨q, hq⟩ := hr.pins
      obtain rfl := pins.unique (hq.keep hkeeps)
      exact .page hq length fun i h h' => ih i h h' (hr.child hq (List.get_mem _ _))

/-- There is nothing to write of a committed tree. -/
theorem Store.Standing.drafts_of_committed (hr : s.Standing r) (hcommitted : r.isCommitted = true) :
    s.Drafts r [] := by
  induction hr with
  | @intro r p pins stands _ ih =>
      have hdrafts : s.Drafts r ((p.children.map fun _ => []).flatten ++
          if r.isCommitted then [] else [r]) := by
        refine .page pins (by simp) fun i h h' => ?_
        have hmem := List.get_mem p.children ⟨i, h⟩
        simpa using ih _ hmem (stands.settled hcommitted _ hmem)
      simpa [hcommitted] using hdrafts

/-- A page of a tree has been written, and what was written stands in its place. -/
structure Store.WrittenAs (s : Store) (r r' k : PageRef) (w : WrittenPage) : Prop where
  paired : s.Paired r r' k w.ref
  page : ∃ p q, s.Pins k p ∧ s.Pins w.ref q ∧ w.page = q.stored ∧ q.version = p.version ∧
    q.stem = p.stem ∧ q.body.shape = p.body.shape

/-- What is written of a tree is written for its uncommitted pages, each in its turn. -/
theorem Store.Writes.drafts {zone : Nat} {written : List WrittenPage}
    (hwrites : s.Writes zone r r' written) (hr : s.Standing r) :
    ∃ drafts, s.Drafts r drafts ∧ List.Forall₂ (s.WrittenAs r r') drafts written := by
  induction hwrites with
  | kept committed => exact ⟨[], hr.drafts_of_committed committed, List.Forall₂.nil⟩
  | @written r r' copy copy' parts uncommitted hold hold' tree stem header page length _ ih =>
      have hp : s.Pins r copy.page := ⟨copy.serial, hold⟩
      have hlength : copy.page.children.length = (parts.map Prod.fst).length := by
        simpa using length
      have hrebuilt : copy.page.Rebuilt (fun _ _ => True) copy.page.version copy'.page := by
        rw [page]
        exact Page.rebuilt_withChildren _ (List.forall₂_iff_get.2 ⟨hlength, fun _ _ _ => trivial⟩)
      -- the drafts of the children, with what is written for each
      have hbeneath : List.Forall₂ (fun m part => ∃ drafts, s.Drafts m drafts ∧
          List.Forall₂ (s.WrittenAs r r') drafts part) copy.page.children
          (parts.map Prod.snd) := by
        refine List.forall₂_iff_get.2 ⟨by simpa using length, fun i h h' => ?_⟩
        have hi' : i < parts.length := by simpa using h'
        have hzip : (copy.page.children.get ⟨i, h⟩, (parts.get ⟨i, hi'⟩).1) ∈
            copy.page.children.zip copy'.page.children := by
          rw [page, Page.children_withChildren hlength]
          have hmem := getElem_mem_zip h (hlength ▸ h)
          rwa [List.getElem_map] at hmem
        obtain ⟨drafts, hdrafts, hwritten⟩ := ih i h hi' (hr.child hp (List.get_mem _ _))
        refine ⟨drafts, hdrafts, ?_⟩
        rw [List.get_eq_getElem, List.getElem_map]
        exact hwritten.imp fun k w hkw => ⟨.beneath hold hold' hzip hkw.paired, hkw.page⟩
      obtain ⟨parts', hdrafts, hwritten⟩ := exists_forall₂_between hbeneath
      obtain ⟨hlength', hget⟩ := List.forall₂_iff_get.1 hdrafts
      refine ⟨_, .page hp hlength' hget, List.rel_append (List.rel_flatten hwritten) ?_⟩
      rw [if_neg (by simp [uncommitted])]
      exact List.Forall₂.cons ⟨.self r r', copy.page, copy'.page, hp, ⟨copy'.serial, hold'⟩, rfl,
        hrebuilt.version, hrebuilt.stem, hrebuilt.shape⟩ List.Forall₂.nil

/-! ## Trees taken back -/

/-- The second tree is the first with the pages from a version on taken back from being committed:
place by place the same pages, of which just those are uncommitted that are new enough or were so
before, and the older subtrees are shared. -/
structure Store.TakesBack (s : Store) (version : Nat) (r r' : PageRef) : Prop where
  places : (∀ m, s.Within r m → ∃ k, s.Paired r r' m k) ∧
    ∀ k, s.Within r' k → ∃ m, s.Paired r r' m k
  pages : ∀ m k, s.Paired r r' m k → ∃ p q, s.Pins m p ∧ s.Pins k q ∧ k.fold = m.fold ∧
    q.version = p.version ∧ q.stem = p.stem ∧ q.body.shape = p.body.shape ∧
    q.children.length = p.children.length
  uncommitted : ∀ m k p, s.Paired r r' m k → s.Pins m p →
    (k.isCommitted = false ↔ version ≤ p.version ∨ m.isCommitted = false)
  shared : ∀ m k p, s.Paired r r' m k → s.Pins m p → p.version < version → k = m
  leaves : ∃ depth shapes, s.pinned.Reads depth (.live r) shapes ∧
    s.pinned.Reads depth (.live r') shapes

theorem Store.Demotes.takesBack (hr : s.Standing r) (hdemotes : s.Demotes version r r') :
    s.TakesBack version r r' := by
  have hsteps := Demotes.steps s version
  obtain ⟨shapes, hreads⟩ := hr.exists_reads (r.treeSize + 1) (Nat.lt_succ_self _)
  refine ⟨⟨fun m hm => hsteps.exists_right ⟨hdemotes, hr⟩ hm,
    fun k hk => hsteps.exists_left ⟨hdemotes, hr⟩ hk⟩, fun m k hpaired => ?_,
    fun m k p hpaired hp => ?_, fun m k p hpaired hp => ?_, _, shapes, hreads,
    hreads.alike hdemotes.alike⟩
  all_goals obtain ⟨hmk, hm⟩ := hsteps.paired ⟨hdemotes, hr⟩ hpaired
  · obtain ⟨p, hp⟩ := hm.pins
    obtain ⟨q, hq, hfold, hrebuilt⟩ := hmk.pages hm hp
    exact ⟨p, q, hp, hq, hfold, hrebuilt.version, hrebuilt.stem, hrebuilt.shape,
      hrebuilt.children.length_eq.symm⟩
  · exact hmk.uncommitted_iff hp
  · exact hmk.eq_of_lt hp

/-- Of a tree that is held to stay, the pages from a version on can be taken back, and the next diff
that is new enough for the root writes all the uncommitted pages that there are then. -/
theorem Tree.uncommitted_takesBack (t : Tree) (s : Store) (version : Nat)
    (hstanding : s.Standing t.root) :
    ∃ t' s', exec (t.uncommitted version) s = (.ok t', s') ∧ s.Keeps s' ∧
      s'.TakesBack version t.root t'.root ∧
      ∀ zone start newest, (∀ p, s'.Pins t'.root p → p.version ≤ newest) →
        ∃ t'' s'' written drafts,
          exec (t'.buildDiff zone start newest) s' =
              (.ok (String.ofList (written.flatMap WrittenPage.text), t''), s'') ∧
            s'.Keeps s'' ∧ Placed zone start written ∧ s'.Drafts t'.root drafts ∧
            (∀ k, k ∈ drafts ↔ s'.Within t'.root k ∧ k.isCommitted = false) ∧
            List.Forall₂ (s''.WrittenAs t'.root t''.root) drafts written := by
  obtain ⟨r, s', hexec, hkeeps, hdemoted⟩ := PageRef.uncommitted_demotes version hstanding
  have hroot : (t.withRoot r).root = r := by
    unfold withRoot
    split
    · next hsame => exact (hdemoted.fresh (by simpa [PageRef.same] using hsame)).symm
    · rfl
  refine ⟨t.withRoot r, s', ?_, hkeeps, ?_, fun zone start newest hnewest => ?_⟩
  · rw [uncommitted, exec_bind, hexec]
    rfl
  · rw [hroot]
    exact hdemoted.demotes.takesBack (hstanding.keep hkeeps)
  · have hr : s'.Standing (t.withRoot r).root := by
      rw [hroot]
      exact hdemoted.standing
    obtain ⟨t'', s'', written, hbuild, hkeeps', hplaced, hwrites⟩ :=
      (t.withRoot r).buildDiff_writes s' zone start (hr.pending hnewest)
    obtain ⟨drafts, hdrafts, hwritten⟩ := hwrites.drafts (hr.keep hkeeps')
    have hdrafts' := hdrafts.of_keeps hkeeps' hr
    exact ⟨t'', s'', written, drafts, hbuild, hkeeps', hplaced, hdrafts', fun _ => hdrafts'.mem_iff,
      hwritten⟩

/-- A page in memory that is stored in a zone. -/
def PageRef.ofStored (page : LivePage) (zone base : Nat) : StoreM PageRef := do
  holding page.treeKind page.stem ((Header.ofPage page.stored .absent).located page.stored zone base)
    (← copyOf page)

/-- A node over two leaves, all committed, where the first leaf is older than the rest. -/
def Tree.twoAges : StoreM Tree := do
  let first ← PageRef.ofStored ⟨1, 1, .btreeLeaf [(.int 1, .int 10)]⟩ 2 24
  let second ← PageRef.ofStored ⟨2, 1, .btreeLeaf [(.int 2, .int 20)]⟩ 2 49
  let root ← PageRef.ofStored ⟨2, 1, .btreeNode [(.int 1, first), (.int 2, second)]⟩ 2 163
  return .ofRoot root ⟨.btree, 1, ⟨0⟩, ⟨0⟩⟩

/-- The second leaf and the node are taken back and written once more. -/
theorem Tree.uncommitted_takesBack_two_ages :
    ∃ t s, exec twoAges (.create Settings.forTrials false ⟨0⟩) = (.ok t, s) ∧
      s.Standing t.root ∧ ∃ t' s', exec (t.uncommitted 2) s = (.ok t', s') ∧
        s'.TakesBack 2 t.root t'.root ∧ ∃ text t'' s'' written drafts,
          exec (t'.buildDiff 3 100 2) s' = (.ok (text, t''), s'') ∧
            text = "@bleaf(stem:1,v:2)\x7b2:20\x7d\n" ++ "@bnode(stem:1,v:2)\x7b" ++
              "1:@page(zone:2,base:24,size:24,area:25,span:1)," ++
              "2:@page(zone:3,base:124,size:24,area:25,span:1)\x7d\n" ∧
            s'.Drafts t'.root drafts ∧
            List.Forall₂ (s''.WrittenAs t'.root t''.root) drafts written := by
  have hstanding : ∃ t s, exec twoAges (.create Settings.forTrials false ⟨0⟩) = (.ok t, s) ∧
      s.Standing t.root ∧ ∃ p, s.Pins t.root p ∧ p.version = 2 := by
    have hleaf : ∀ {s : Store} {r : PageRef} {p : LivePage}, s.Pins r p → p.children = [] →
        r.header.Describes p.stored → s.Standing r := by
      intro s r p hp hnone hdesc
      refine .intro hp ⟨hdesc, ?_, ?_⟩ ?_ <;> simp [hnone]
    refine ⟨_, _, rfl, .intro ⟨_, rfl⟩ ⟨rfl, fun m hm q hq => ?_, fun _ m hm => ?_⟩ fun m hm => ?_,
      _, ⟨_, rfl⟩, rfl⟩
    all_goals rcases List.mem_pair.1 hm with rfl | rfl
    · obtain rfl := hq.unique ⟨_, rfl⟩
      exact Nat.le_succ 1
    · obtain rfl := hq.unique ⟨_, rfl⟩
      exact Nat.le_refl 2
    · rfl
    · rfl
    · exact hleaf ⟨_, rfl⟩ rfl rfl
    · exact hleaf ⟨_, rfl⟩ rfl rfl
  obtain ⟨t, s, hexec, hstanding, p, hp, hversion⟩ := hstanding
  obtain ⟨t', s', hrun, hkeeps, htaken, hnext⟩ := t.uncommitted_takesBack s 2 hstanding
  obtain ⟨t'', s'', written, drafts, hbuild, -, -, hdrafts, -, hwritten⟩ := hnext 3 100 2 (by
    intro q hq
    obtain ⟨p', q', hp', hq', -, hsame, -⟩ := htaken.pages _ _ (.self _ _)
    have hold : q.version = 2 := by
      rw [hq.unique hq', hsame, hp'.unique (hp.keep hkeeps), hversion]
    exact Nat.le_of_eq hold)
  refine ⟨t, s, hexec, hstanding, t', s', hrun, htaken, _, t'', s'', written, drafts, hbuild, ?_,
    hdrafts, hwritten⟩
  have hread : (exec (do return (← (← (← twoAges).uncommitted 2).buildDiff 3 100 2).1)
      (.create Settings.forTrials false ⟨0⟩)).1 =
        .ok ("@bleaf(stem:1,v:2)\x7b2:20\x7d\n" ++ "@bnode(stem:1,v:2)\x7b" ++
          "1:@page(zone:2,base:24,size:24,area:25,span:1)," ++
          "2:@page(zone:3,base:124,size:24,area:25,span:1)\x7d\n") := by
    decide +kernel
  rw [exec_bind, hexec] at hread
  simp only [exec_bind, hrun, hbuild] at hread
  exact Except.ok.inj hread

end PageTree
