import PageTree.Proofs.Effect
import PageTree.Proofs.Loading
import PageTree.Proofs.Pictures.Basic

/-!
# The pictures in a chart

A store that agrees with a chart is a sound gallery (`Represents.gallery_sound`): the chart gives
each reference in use its page and the pages beneath, so it gives it a picture
(`Chart.Sound.exists_pictured`), and just one.  Hence whatever is shown of galleries holds of all
trees whose pages a chart has.
-/

namespace PageTree

variable {s : Store} {c : Chart} {n : Site} {t t' : Picture} {sure : Prop}

/-- The picture of a site. -/
inductive Chart.Pictured (c : Chart) : Site → Picture → Prop where
  | of {n : Site} {p : Page Site} {beneath : List Picture} (found : c.page n = some p)
      (children : List.Forall₂ (Chart.Pictured c) p.children beneath) :
      Chart.Pictured c n (.of p.stem p.body.shape n.header.extent n.header.fold beneath)

namespace Chart

theorem Pictured.unique (hpictured : c.Pictured n t) (hpictured' : c.Pictured n t') : t = t' := by
  induction t using Picture.induction generalizing n t' with
  | of stem shape extent fold beneath ih =>
      cases hpictured with
      | @of _ p _ found children =>
          cases hpictured' with
          | @of _ p' beneath' found' children' =>
              rw [found] at found'
              cases found'
              congr 1
              rw [← List.forall₂_eq_eq_eq]
              exact forall₂_comp children.flip children' fun t ht m t' hm hm' => ih t ht hm hm'

/-- The root of a tree has a picture. -/
theorem Sound.exists_pictured (hsound : c.Sound n) : ∃ t, c.Pictured n t := by
  induction hsound with
  | @intro n p found _ _ _ _ _ ih =>
      obtain ⟨beneath, hbeneath⟩ := exists_forall₂ ih
      exact ⟨_, .of found hbeneath⟩

theorem Pictured.kind_eq {p : Page Site} (hpictured : c.Pictured n t) (hpage : c.page n = some p) :
    t.kind = p.treeKind ∧ t.stem = p.stem := by
  cases hpictured with
  | of found children =>
      rw [found] at hpage
      cases hpage
      exact ⟨(Page.treeKind_of_shape_eq rfl).symm, rfl⟩

end Chart

/-- A header has the measures of the page that it describes. -/
theorem Header.Describes.measures {h : Header} {p : Page Header} (hdesc : h.Describes p) :
    h.Measures p :=
  ⟨Prod.ext hdesc.span_eq (Prod.ext hdesc.x_eq hdesc.y_eq), hdesc.size_eq, hdesc.area_eq⟩

/-- The pages that have been written are found where they are filed, unless loads may fail. -/
theorem Represents.files (hrep : Represents s c)
    (hserves : sure → s.zones.isClosed = false ∧ ∀ z b p, c.filed z b = some p →
      (s.zones.text? z).isSome ∧ Page.parse p.toText = .ok p)
    {h : Header} (hsound : c.Sound (.filed h)) (hpictured : c.Pictured (.filed h) t) :
    s.zones.Files sure h t := by
  induction t using Picture.induction generalizing h with
  | of stem shape extent fold beneath ih =>
      cases hpictured with
      | @of _ p _ found children =>
          obtain ⟨q, hq, rfl⟩ := Option.map_eq_some_iff.1 found
          have hdesc : h.Describes q := by
            simpa [Page.map_map, Page.map_id] using hsound.describes found
          have hchildren :
              List.Forall₂ (fun k t => c.Pictured (.filed k) t) q.children beneath := by
            rwa [Page.map_children, List.forall₂_map_left_iff] at children
          have hmem : ∀ k ∈ q.children, Site.filed k ∈ (q.map Site.filed).children := by
            intro k hk
            rw [Page.map_children]
            exact List.mem_map_of_mem hk
          suffices hfiles : s.zones.Files sure h
              (.of q.stem q.body.shape h.extent h.fold beneath) by simpa using hfiles
          refine .of (hsound.fits found) ?_ hdesc.measures ?_ ?_
          · rcases storedPage_cases hrep hsound hq with hstored | ⟨e, hstored, hunable, -⟩
            · exact Or.inl hstored
            · refine Or.inr ⟨fun hsure => hunable ?_, e, hstored⟩
              exact ⟨(hserves hsure).1, (hserves hsure).2 _ _ _ hq⟩
          · intro t ht
            obtain ⟨k, hk, hpictured⟩ := exists_of_forall₂_right hchildren ht
            obtain ⟨q', hq', hcovers⟩ := hsound.covers found (hmem k hk)
            obtain ⟨hkind, hstem⟩ := hpictured.kind_eq hq'
            refine ⟨hkind.trans (hcovers.treeKind.trans (Page.map_treeKind _ q)), ?_⟩
            exact hstem.trans hcovers.stem
          · refine List.forall₂_iff_zip.2 ⟨hchildren.length_eq, fun {k t} hzip => ?_⟩
            obtain ⟨hk, ht⟩ := List.of_mem_zip hzip
            exact ih t ht (hsound.child found (hmem k hk)) (List.forall₂_zip hchildren hzip)

/-- The gallery of a chart. -/
def Chart.gallery (c : Chart) (s : Store) : Gallery where
  store := s
  shows r t := c.refs r ∧ c.Pictured r.site t

/-- A store that agrees with a chart is a sound gallery.  Loads are sure to succeed if the zones are
open and serve every page. -/
theorem Represents.gallery_sound (hrep : Represents s c)
    (hserves : sure → s.zones.isClosed = false ∧ s.faults.pending = 0 ∧ Serves s c) :
    (c.gallery s).Sound sure := by
  exact {
    opened := fun hsure => (hserves hsure).1
    faultless := fun hsure => (hserves hsure).2.1
    allocated := by
      rintro r t ⟨hr, -⟩
      exact hrep.allocated r hr
    unique := by
      rintro r r' t t' ⟨hr, ht⟩ ⟨hr', ht'⟩ heq
      obtain rfl := hrep.unique r r' hr hr' heq
      exact ⟨rfl, ht.unique ht'⟩
    tells := by
      rintro r t ⟨hr, ht⟩
      obtain ⟨p, hp⟩ := hrep.page hr
      obtain ⟨htree, hstem⟩ := hrep.fits r p hr hp
      obtain ⟨hkind, hstem'⟩ := ht.kind_eq hp
      refine ⟨htree.trans hkind.symm, hstem.trans hstem'.symm, ?_, ?_⟩
      · cases ht
        rw [PageRef.header_site]
        rfl
      · cases ht
        rw [PageRef.header_site]
        rfl
    strong := by
      rintro r t ⟨hr, -⟩ huncommitted
      exact hrep.strong r hr huncommitted
    held := by
      rintro r t copy ⟨hr, ht⟩ hcopy
      obtain ⟨hpage, hrefs⟩ := hrep.held r copy hr hcopy
      refine ⟨?_, ?_⟩
      · cases ht with
        | @of _ p beneath found children =>
            rw [hpage] at found
            cases found
            rw [Page.map_children, List.forall₂_map_left_iff] at children
            refine ⟨rfl, by simp [Picture.shape], List.forall₂_iff_zip.2
              ⟨children.length_eq, fun {m t} hmem => ⟨?_, List.forall₂_zip children hmem⟩⟩⟩
            exact hrefs m (List.of_mem_zip hmem).1
      · have hdesc := (hrep.sound r hr).describes hpage
        rw [Page.map_site_header, PageRef.header_site] at hdesc
        exact hdesc.measures
    absent := by
      rintro r t ⟨hr, ht⟩ hnone
      have hsite := PageRef.site_of_committed (hrep.committed_of_absent hr hnone)
      have hsound := hrep.sound r hr
      rw [hsite] at hsound ht
      refine hrep.files (fun hsure => ?_) hsound ht
      obtain ⟨hopen, -, hall | ⟨-, -, hfiled⟩⟩ := hserves hsure
      · -- nothing is out of memory where all pages are in it
        have hcopy := hall r hr
        rw [show (s.hold r).copy? = none from hnone] at hcopy
        cases hcopy
      · exact ⟨hopen, hfiled⟩ }

/-- Each reference in use has a picture. -/
theorem Represents.exists_shown (hrep : Represents s c) {r : PageRef} (hr : c.refs r) :
    ∃ t, (c.gallery s).shows r t := by
  obtain ⟨t, ht⟩ := (hrep.sound r hr).exists_pictured
  exact ⟨t, hr, ht⟩

end PageTree
