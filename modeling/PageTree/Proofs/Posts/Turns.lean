import PageTree.Proofs.Posts.Evacuation

/-!
# A trunk with one client

`Solo` is a trunk that one client works on with its store, and `Solo.Turn` is what may happen to it:
an operation of the client, a commit, or something that becomes of the store beside.  Turns keep a
chart (`Solo.Sound.turn`), and once the tree has been evacuated they let it depend on no zone
before the post again (`Solo.Vacant`).
-/

namespace PageTree

open StoreM

variable {c c' : Chart} {s s' : Store} {zone : Nat}

/-! ## Commits -/

/-- The tree of the second site is the tree of the first, with pages that now lie in some zone in
place of some of its pages. -/
inductive Chart.Placed (c : Chart) (written : Nat) : Site → Site → Prop
  | refl (n : Site) : Placed c written n n
  | rebuilt {n n' : Site} {p p' : Page Site} (page : c.page n = some p)
      (page' : c.page n' = some p') (zone : n'.header.zone = written)
      (length : p.children.length = p'.children.length)
      (children : ∀ i h h',
        Placed c written (p.children.get ⟨i, h⟩) (p'.children.get ⟨i, h'⟩)) :
      Placed c written n n'

namespace Chart.Placed

variable {written z : Nat} {n n' : Site} {p : Page Site}

theorem mono (hle : c ≤ c') (hplaced : c.Placed written n n') : c'.Placed written n n' := by
  induction hplaced with
  | refl n => exact refl n
  | rebuilt page page' zone length _ ih =>
      exact rebuilt (page_mono hle page) (page_mono hle page') zone length ih

/-- The children of a page go along with those of the page in its place. -/
theorem page_of (hplaced : c.Placed written n n') (hpage : c.page n = some p) :
    ∃ p', c.page n' = some p' ∧ List.Forall₂ (c.Placed written) p.children p'.children := by
  cases hplaced with
  | refl => exact ⟨p, hpage, List.forall₂_same.2 fun m _ => refl m⟩
  | rebuilt page page' _ length children =>
      rw [page] at hpage
      cases hpage
      exact ⟨_, page', List.forall₂_iff_get.2 ⟨length, children⟩⟩

/-- No zone is needed that has not been needed before, but the one that is written to. -/
theorem needs (hplaced : c.Placed written n n') (hneeds : c.Needs n' z) :
    c.Needs n z ∨ z = written := by
  induction hplaced with
  | refl => exact Or.inl hneeds
  | @rebuilt n n' p p' page page' zone length _ ih =>
      cases hneeds with
      | here => exact Or.inr zone
      | beneath found child needs =>
          rw [page'] at found
          cases found
          obtain ⟨i, hi, rfl⟩ := List.getElem_of_mem child
          have hi' : i < p.children.length := length ▸ hi
          exact (ih i hi' hi needs).imp_left (.beneath page (List.getElem_mem hi'))

/-- What is written to a zone is clear of the zones before if its tree has been. -/
theorem clearOf {r r' : PageRef} (hplaced : c.Placed written r.site r'.site)
    (hsound : c.Sound r.site) (hsound' : c.Sound r'.site) (hclear : r.ClearOf zone)
    (hle : zone ≤ written) : r'.ClearOf zone := by
  have hleast := hsound.least_post
  have hleast' := hsound'.least_post
  rw [PageRef.header_site] at hleast hleast'
  rcases hleast' with ⟨hneeds, -⟩ | ⟨hzero, -⟩
  · refine Or.inr ?_
    rcases hplaced.needs hneeds with hneeds | hwritten
    · exact hleast.le_of (fun _ => Chart.Needs.pos) hclear hneeds
    · rw [PageRef.post, hwritten]
      exact hle
  · exact Or.inl hzero

end Chart.Placed

/-- A tree that is written to a zone has pages that lie there in place of its uncommitted ones. -/
theorem Counterpart.placed {written start : Nat} {text : List Char} {r r' : PageRef}
    (hrep : Mirrors s c) (hcp : Counterpart s written start text r r') (hr : c.refs r)
    (hr' : c.refs r') : c.Placed written r.site r'.site := by
  induction hcp with
  | kept => exact .refl _
  | written _ _ hold hold' header _ _ _ _ length _ ih =>
      obtain ⟨hpage, hrefs⟩ := hrep.held _ _ hr (by rw [hold]; rfl)
      obtain ⟨hpage', hrefs'⟩ := hrep.held _ _ hr' (by rw [hold']; rfl)
      refine .rebuilt hpage hpage' ?_ (by simpa using length) ?_
      · rw [PageRef.header_site, header]
        rfl
      · intro i h h'
        simp only [Page.map_children, List.get_eq_getElem, List.getElem_map]
        exact ih i _ _ (hrefs _ (List.getElem_mem _)) (hrefs' _ (List.getElem_mem _))

/-! ## Turns -/

/-- A trunk that one client works on, with its store.  `filed` is seen by no one: it records the
pages that commits have written, by zone and end. -/
structure Solo where
  store : Store
  trunk : Trunk
  filed : Nat → Nat → Page Header → Prop

/-- The trunk with a tree that has been computed from its tree.  A tree with the same root is not
swapped in. -/
def Trunk.swapIn (t : Trunk) (tree : Tree) : Trunk :=
  if tree.same t.tree then t else { t with tree }

/-- What becomes of a store beside the operations of the client: the tree of the trunk is softened,
or read down to some page, memory is reclaimed, the zones are looked after, and time passes. -/
inductive Trunk.Tending (t : Trunk) (s : Store) : Store → Prop where
  | soften : Tending t s (exec t.soften s).2
  | read {s₁ : Store} {r : PageRef} (reaches : s.Reaches t.tree.root s₁ r) :
      Tending t s (exec r.page s₁).2
  | reclaim (holders : Holders) : Tending t s (s.reclaim holders)
  | shiftZone : Tending t s (exec shiftZone s).2
  | deleteZone (id : Nat) : Tending t s (exec (deleteZone id) s).2
  | append (request : Commit) (text : String) :
      Tending t s (exec (writeZone request fun _ _ => pure (text, ())) s).2
  | failNext (count : Nat) : Tending t s (exec (failNext count) s).2
  | close : Tending t s (exec close s).2
  | tick (now : Timestamp) : Tending t s { s with now }
  | pass (nanos : Nat) : Tending t s { s with uptime := s.uptime + nanos }

namespace Solo

/-- A new store with an empty tree. -/
structure Starts (seed : Seed) (x : Solo) : Prop where
  tree : ∃ settings takesPart now tree isResident isTransient,
    exec (Tree.empty seed) (Store.create settings takesPart now) = (.ok tree, x.store) ∧
      x.trunk = .ofTree { tree with isResident, isTransient }
  filed : ∀ z b p, ¬ x.filed z b p

/-- What happens to a trunk, one thing after another. -/
inductive Turn : Solo → Solo → Prop where
  | operate {x : Solo} {op : Operation} {tree : Tree} {answer : Option Value} {s : Store}
      (suits : op.Suits x.trunk.tree.kind)
      (computed : exec (op.run x.trunk) x.store = (.ok (tree, answer), s)) :
      Turn x { x with store := s, trunk := x.trunk.swapIn tree }
  | fail {x : Solo} {op : Operation} {e : StoreError} {s : Store}
      (suits : op.Suits x.trunk.tree.kind)
      (failed : exec (op.run x.trunk) x.store = (.error e, s)) : Turn x { x with store := s }
  | raisePost {x : Solo} (post : Nat) : Turn x { x with trunk := x.trunk.raisePost post }
  /-- A commit that has something to write, or has nothing to do. -/
  | commit {x : Solo} {request : Commit} {hasWritten : Bool} {trunk : Trunk} {s : Store}
      (committed : exec (x.trunk.commit request) x.store = (.ok (hasWritten, trunk), s)) :
      Turn x ⟨s, trunk, fun z b p => x.filed z b p ∨ Filing trunk.tree.root s z b p⟩
  | refuse {x : Solo} {request : Commit} {e : StoreError} {s : Store}
      (refused : exec (x.trunk.commit request) x.store = (.error e, s)) :
      Turn x { x with store := s }
  | tend {x : Solo} {s : Store} (tending : x.trunk.Tending x.store s) : Turn x { x with store := s }

/-- The post of the trunk is raised, and then its tree is evacuated. -/
def Evacuates (post : Nat) (x y : Solo) : Prop :=
  ∃ tree answer s,
    exec (Operation.evacuate.run (x.trunk.raisePost post)) x.store = (.ok (tree, answer), s) ∧
      y = { x with store := s, trunk := (x.trunk.raisePost post).swapIn tree }

/-! ## What turns keep -/

/-- The invariant of turns: the store agrees with a chart by which the tree has some content. -/
structure Sound (x : Solo) (c : Chart) : Prop where
  represents : Represents x.store c
  zones : x.store.zones.Sound
  has : ∃ content, c.Has x.trunk.version x.trunk.tree content
  filed : ∀ z b p, x.filed z b p ↔ c.filed z b = some p

/-- The tree is clear of the zones before some zone, and nothing new will depend on them. -/
structure Vacant (x : Solo) (zone : Nat) : Prop where
  root : x.trunk.tree.root.ClearOf zone
  post : zone ≤ x.trunk.post
  active : zone ≤ x.store.zones.active

variable {x y : Solo}

theorem Sound.root (hx : x.Sound c) : c.refs x.trunk.tree.root := by
  obtain ⟨content, hhas⟩ := hx.has
  exact hhas.fit.refs

/-- The store changes, and nothing is filed. -/
theorem Sound.withStore (hx : x.Sound c) (hrep : Represents s c') (hzones : s.zones.Sound)
    (hle : c ≤ c') (hfiled : c'.filed = c.filed) : Sound { x with store := s } c' where
  represents := hrep
  zones := hzones
  has := hx.has.imp fun _ hhas => hhas.mono hle
  filed := by
    rw [hfiled]
    exact hx.filed

/-- The store changes as operations on trees change it. -/
theorem Sound.grows (hx : x.Sound c) (hgrows : Grows x.store c s c') :
    Sound { x with store := s } c' :=
  hx.withStore hgrows.represents (by rw [hgrows.zones]; exact hx.zones) hgrows.le hgrows.filed

/-- Folds may come from other foldings too. -/
theorem Sound.allow (hx : x.Sound c) (foldings : PageRef.Folding → Prop) :
    x.Sound (c.allow foldings) :=
  hx.withStore (hx.represents.allow foldings) hx.zones (c.le_allow foldings) rfl

/-- A tree computed from the tree of the trunk is swapped in. -/
theorem Sound.swapIn (hx : x.Sound c) {tree : Tree} {content : Content}
    (hhas : c.Has x.trunk.version tree content) :
    Sound { x with trunk := x.trunk.swapIn tree } c where
  represents := hx.represents
  zones := hx.zones
  has := by
    show ∃ content, c.Has (x.trunk.swapIn tree).version (x.trunk.swapIn tree).tree content
    unfold Trunk.swapIn
    split
    · exact hx.has
    · exact ⟨content, hhas⟩
  filed := hx.filed

/-- The root of the trunk is that of the tree that is swapped in. -/
theorem Sound.root_swapIn (hx : x.Sound c) {tree : Tree} (htree : c.refs tree.root) :
    (x.trunk.swapIn tree).tree.root = tree.root := by
  unfold Trunk.swapIn
  split
  · next hsame => exact (hx.represents.eq_of_same htree hx.root hsame).symm
  · rfl

end Solo

/-! ## Turns of the store -/

/-- What else becomes of a store leaves its trees and its settings what they are, and the store
never goes back to an older zone. -/
structure Store.Tended (s : Store) (c : Chart) (s' : Store) (c' : Chart) : Prop where
  represents : Represents s' c'
  zones : s'.zones.Sound
  le : c ≤ c'
  filed : c'.filed = c.filed
  settings : s'.settings = s.settings
  active : s.zones.active ≤ s'.zones.active

/-- Operations on trees do not touch the zones. -/
theorem Grows.tended (hgrows : Grows s c s' c') (hsound : s.zones.Sound) : s.Tended c s' c' where
  represents := hgrows.represents
  zones := by
    rw [hgrows.zones]
    exact hsound
  le := hgrows.le
  filed := hgrows.filed
  settings := hgrows.settings
  active := Nat.le_of_eq (by rw [hgrows.zones])

/-- Memory changes, and the zones stay as they are. -/
theorem Store.Tended.of_memory (hrep : Represents s' c) (hsound : s.zones.Sound)
    (hzones : s'.zones = s.zones) (hsettings : s'.settings = s.settings) : s.Tended c s' c where
  represents := hrep
  zones := by
    rw [hzones]
    exact hsound
  le := Chart.le_refl c
  filed := rfl
  settings := hsettings
  active := Nat.le_of_eq (by rw [hzones])

/-- The zones change, and the texts of filed pages stay where they are. -/
theorem Store.Tended.of_zones (hrep : Represents s c) {zones : Zones} (hsound : zones.Sound)
    (hbacked : Backed zones c) (hle : s.zones.active ≤ zones.active) :
    s.Tended c (s.withZones zones) c where
  represents := ⟨hrep.toMirrors.withZones zones, hbacked⟩
  zones := hsound
  le := Chart.le_refl c
  filed := rfl
  settings := rfl
  active := hle

/-- Whatever becomes of a store, a chart goes on to tell what its trees are. -/
theorem Trunk.Tending.tended {t : Trunk} {kind : TreeKind} {stem version : Nat}
    (htending : t.Tending s s') (hrep : Represents s c) (hsound : s.zones.Sound)
    (hfit : c.Fit kind stem version t.tree.root) : ∃ c', s.Tended c s' c' := by
  cases htending with
  | soften =>
      obtain ⟨hrep', hrecelled⟩ := Trunk.soften_loosens hfit.refs s hrep
      exact ⟨c, .of_memory hrep' hsound (by rw [hrecelled]) (by rw [hrecelled])⟩
  | read reaches =>
      obtain ⟨c₁, hgrows, hfit', -⟩ := reaches.fit hrep hfit
      obtain ⟨c₂, hgrows', -⟩ := PageRef.page_runs hgrows.represents hfit'.refs
      exact ⟨c₂, (hgrows.trans hgrows').tended hsound⟩
  | reclaim holders => exact ⟨c, .of_memory (hrep.reclaim holders) hsound rfl rfl⟩
  | shiftZone =>
      exact ⟨c, .of_zones hrep hsound.shift (hrep.backed.shift hsound) (Nat.le_succ _)⟩
  | deleteZone id =>
      exact ⟨c, .of_zones hrep (hsound.delete id) (hrep.backed.delete id)
        (Nat.le_of_eq (s.zones.active_delete id).symm)⟩
  | append request text =>
      cases hclosed : s.zones.isClosed with
      | true =>
          have hcheck : s.zones.checkOpen = .error .closed := by
            simp [Zones.checkOpen, hclosed]
          rw [writeZone, exec_bind, exec_ofZones, hcheck]
          exact ⟨c, .of_memory hrep hsound rfl rfl⟩
      | false =>
          rw [exec_writeZone request _ s hclosed]
          exact ⟨c, .of_zones hrep ((Commit.sound_zones hsound).append text)
            ((Commit.backed_zones hsound hrep.backed).append_any text)
            (request.active_zones s.zones)⟩
  | failNext count => exact ⟨c, .of_memory (hrep.of_cells_eq rfl rfl) hsound rfl rfl⟩
  | close => exact ⟨c, .of_zones hrep hsound.close hrep.backed.close (Nat.le_refl _)⟩
  | tick now => exact ⟨c, .of_memory (hrep.of_cells_eq rfl rfl) hsound rfl rfl⟩
  | pass nanos => exact ⟨c, .of_memory (hrep.of_cells_eq rfl rfl) hsound rfl rfl⟩

namespace Solo

variable {x y : Solo}

/-- The store has been tended to. -/
theorem Sound.tended (hx : x.Sound c) (htended : x.store.Tended c s c') :
    Sound { x with store := s } c' :=
  hx.withStore htended.represents htended.zones htended.le htended.filed

theorem Vacant.tended (hvacant : x.Vacant zone) (htended : x.store.Tended c s c') :
    Vacant { x with store := s } zone :=
  ⟨hvacant.root, hvacant.post, Nat.le_trans hvacant.active htended.active⟩

/-- A tree that is clear of older zones is swapped in. -/
theorem Vacant.swapIn (hvacant : x.Vacant zone) {tree : Tree} (hclear : tree.root.ClearOf zone) :
    Vacant { x with trunk := x.trunk.swapIn tree } zone := by
  refine ⟨?_, ?_, hvacant.active⟩
  · show (x.trunk.swapIn tree).tree.root.ClearOf zone
    unfold Trunk.swapIn
    split
    · exact hvacant.root
    · exact hclear
  · show zone ≤ (x.trunk.swapIn tree).post
    unfold Trunk.swapIn
    split
    · exact hvacant.post
    · exact hvacant.post

/-- An operation makes of the tree what it is meant to make of it, and the tree goes on to be clear
of older zones. -/
theorem Sound.operate (hx : x.Sound c) {op : Operation} {tree : Tree} {answer : Option Value}
    (hsuits : op.Suits x.trunk.tree.kind)
    (hexec : exec (op.run x.trunk) x.store = (.ok (tree, answer), s)) :
    ∃ c', Sound { x with store := s, trunk := x.trunk.swapIn tree } c' ∧
      ∀ zone, x.Vacant zone → Vacant { x with store := s, trunk := x.trunk.swapIn tree } zone := by
  replace hx := hx.allow fun f => op = .reduce f
  obtain ⟨content, hhas⟩ := hx.has
  rw [Tree.kind, hhas.kind_eq] at hsuits
  obtain ⟨c', hgrows, -, hhas', -⟩ :=
    Operation.makes_of_run hx.represents hhas hsuits (fun _ => Or.inr) hexec
  refine ⟨c', (hx.grows hgrows).swapIn hhas', fun zone hvacant => ?_⟩
  exact (hvacant.tended (hgrows.tended hx.zones)).swapIn
    (Operation.run_clears hx.represents hhas hvacant.root hvacant.post hexec)

/-- A commit installs a tree with the same content, which goes on to be clear of older zones. -/
theorem Sound.commit (hx : x.Sound c) {request : Commit} {hasWritten : Bool} {trunk : Trunk}
    (hexec : exec (x.trunk.commit request) x.store = (.ok (hasWritten, trunk), s)) :
    ∃ c', c ≤ c' ∧
      Sound ⟨s, trunk, fun z b p => x.filed z b p ∨ Filing trunk.tree.root s z b p⟩ c' ∧
      ∀ zone, x.Vacant zone →
        Vacant ⟨s, trunk, fun z b p => x.filed z b p ∨ Filing trunk.tree.root s z b p⟩ zone := by
  obtain ⟨content, hhas⟩ := hx.has
  rcases x.trunk.commit_cases hx.represents hx.zones hhas.fit request with
    ⟨-, hnone⟩ | ⟨-, hclosed⟩ | ⟨diff, s₁, s₂, c', hwrote, hs₂, hdone⟩
  · rw [hnone] at hexec
    cases hexec
    refine ⟨c, Chart.le_refl c, ⟨hx.represents, hx.zones, hx.has, ?_⟩, ?_⟩
    · intro z b p
      show x.filed z b p ∨ _ ↔ _
      rw [hx.filed]
      exact or_iff_left_of_imp (hx.represents.filed_of_filing hx.root)
    · exact fun zone hvacant => ⟨hvacant.root, hvacant.post, hvacant.active⟩
  · rw [hclosed] at hexec
    cases hexec
  · rw [hdone] at hexec
    cases hexec
    have htended : s₁.Tended c' s c' := by
      rcases hs₂ with rfl | rfl
      · exact .of_memory hwrote.represents.markCommit hwrote.sound rfl rfl
      · exact ⟨⟨hwrote.represents.markCommit.toMirrors.withZones _, hwrote.represents.backed.close⟩,
          hwrote.sound.close, Chart.le_refl c', rfl, rfl, Nat.le_refl _⟩
    have hkeeps : s₁.Keeps s ∧ s.Keeps s₁ := by
      rcases hs₂ with rfl | rfl
      · exact ⟨.of_cells_eq rfl, .of_cells_eq rfl⟩
      · exact ⟨.of_cells_eq rfl, .of_cells_eq rfl⟩
    refine ⟨c', hwrote.le, ⟨htended.represents, htended.zones, ⟨content, ?_⟩, ?_⟩, ?_⟩
    · exact (hwrote.has hhas).raise (Nat.le_succ _)
    · intro z b p
      rw [← hwrote.filed_iff, ← hx.filed]
      exact or_congr_right ⟨Filing.keep hkeeps.2, Filing.keep hkeeps.1⟩
    · intro zone hvacant
      obtain ⟨text, start, hzones, -, -, hcp⟩ := hwrote.text
      have hzone : diff.zone = s₁.zones.active := by
        rw [hzones, hwrote.zone]
        rfl
      -- what is written goes to a zone that is no older than the vacant one
      have hactive : zone ≤ diff.zone := by
        rw [hwrote.zone]
        exact Nat.le_trans hvacant.active (Commit.active_zones _ _)
      refine ⟨?_, hvacant.post, ?_⟩
      · have hroot := hwrote.le.refs _ hx.root
        have hplaced := hcp.placed hwrote.represents.toMirrors hroot hwrote.fit.refs
        exact hplaced.clearOf (hwrote.represents.sound _ hroot)
          (hwrote.represents.sound _ hwrote.fit.refs) hvacant.root hactive
      · rw [hzone] at hactive
        exact Nat.le_trans hactive htended.active

/-- A turn keeps a chart, and it keeps older zones vacant. -/
theorem Sound.turn (hx : x.Sound c) (hturn : Turn x y) :
    ∃ c', y.Sound c' ∧ ∀ zone, x.Vacant zone → y.Vacant zone := by
  cases hturn with
  | operate suits computed => exact hx.operate suits computed
  | @fail op e s suits failed =>
      replace hx := hx.allow fun f => op = .reduce f
      obtain ⟨content, hhas⟩ := hx.has
      rw [Tree.kind, hhas.kind_eq] at suits
      obtain ⟨c', hgrows, -⟩ :=
        Operation.fails_of_run hx.represents hhas suits (fun _ => Or.inr) failed
      exact ⟨c', hx.grows hgrows, fun zone hvacant => hvacant.tended (hgrows.tended hx.zones)⟩
  | raisePost post =>
      exact ⟨c, ⟨hx.represents, hx.zones, hx.has, hx.filed⟩, fun zone hvacant =>
        ⟨hvacant.root, Nat.le_trans hvacant.post (Nat.le_max_left _ _), hvacant.active⟩⟩
  | commit committed =>
      obtain ⟨c', -, hy⟩ := hx.commit committed
      exact ⟨c', hy⟩
  | @refuse request e s refused =>
      obtain ⟨content, hhas⟩ := hx.has
      obtain ⟨-, rfl⟩ := Trunk.closed_of_commit hx.represents hx.zones hhas.fit refused
      exact ⟨c, hx, fun zone hvacant => hvacant⟩
  | tend tending =>
      obtain ⟨content, hhas⟩ := hx.has
      obtain ⟨c', htended⟩ := tending.tended hx.represents hx.zones hhas.fit
      exact ⟨c', hx.tended htended, fun zone hvacant => hvacant.tended htended⟩

/-- A run keeps a chart, and it keeps older zones vacant. -/
theorem Sound.run (hx : x.Sound c) (hrun : Relation.ReflTransGen Turn x y) :
    ∃ c', y.Sound c' ∧ ∀ zone, x.Vacant zone → y.Vacant zone := by
  induction hrun with
  | refl => exact ⟨c, hx, fun _ hvacant => hvacant⟩
  | tail _ hturn ih =>
      obtain ⟨c', hy, hvacant⟩ := ih
      obtain ⟨c'', hz, hvacant'⟩ := hy.turn hturn
      exact ⟨c'', hz, fun zone h => hvacant' zone (hvacant zone h)⟩

/-- A new store with an empty tree has a chart. -/
theorem Sound.of_starts {seed : Seed} (hstarts : Starts seed x) : ∃ c, x.Sound c := by
  obtain ⟨settings, takesPart, now, tree, isResident, isTransient, hexec, htrunk⟩ := hstarts.tree
  have hruns := Tree.empty_runs (represents_blank (Store.create settings takesPart now)) seed
  obtain ⟨c, hgrows, -, hhas⟩ := hruns.of_ok hexec
  refine ⟨c, hgrows.represents, ?_, ⟨.empty seed.kind, ?_⟩, ?_⟩
  · rw [hgrows.zones]
    exact Zones.sound_start
  · rw [htrunk]
    exact (hhas.raise (Nat.zero_le 1)).congr rfl rfl rfl
  · intro z b p
    rw [hgrows.filed]
    simp [hstarts.filed, Chart.blank]

/-- Evacuating empties the zones before the post of the trees of the trunk, from then on. -/
theorem Sound.evacuates (hx : x.Sound c) {post : Nat} (hevacuates : Evacuates post x y)
    (hactive : post ≤ x.store.zones.active) : (∃ c', y.Sound c') ∧ y.Vacant post := by
  obtain ⟨tree, answer, s, hexec, rfl⟩ := hevacuates
  have hraised : Sound { x with trunk := x.trunk.raisePost post } c :=
    ⟨hx.represents, hx.zones, hx.has, hx.filed⟩
  obtain ⟨content, hhas⟩ := hraised.has
  have hpost : post ≤ (x.trunk.raisePost post).post := Nat.le_max_right _ _
  have hclear := (Operation.evacuate_clears hx.represents hhas hexec).mono hpost
  have hsuits : Operation.Suits content.kind .evacuate := trivial
  obtain ⟨c', hgrows, -, hhas', -⟩ :=
    Operation.makes_of_run hx.represents hhas hsuits (fun _ => Operation.noConfusion) hexec
  have hgrown := hraised.grows hgrows
  refine ⟨⟨c', hgrown.swapIn hhas'⟩, ?_, ?_, ?_⟩
  · show (Trunk.swapIn _ tree).tree.root.ClearOf post
    rw [hgrown.root_swapIn hhas'.fit.refs]
    exact hclear
  · show post ≤ (Trunk.swapIn _ tree).post
    unfold Trunk.swapIn
    split <;> exact hpost
  · exact Nat.le_trans hactive (hgrows.tended hx.zones).active

end Solo
end PageTree
