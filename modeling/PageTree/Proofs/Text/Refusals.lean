import Mathlib.Data.Nat.Digits.Defs
import PageTree.Proofs.Loading
import PageTree.Proofs.Text.Pages
import PageTree.Tree.Basic

/-!
# Seeds whose text is refused

The numbers of a seed are written whole, but they are read as integers of 64 bits with a sign.  So
a seed is read back from its text as long as none of its numbers needs the topmost bit, and is
refused otherwise (`Seed.reads_back_iff_fits`).
-/

namespace PageTree

instance (seed : Seed) : Decidable seed.Fits :=
  decidable_of_iff
    (seed.stem < 2 ^ 63 ∧ seed.created.millis < 2 ^ 63 ∧ seed.updated.millis < 2 ^ 63)
    ⟨fun ⟨hstem, hcreated, hupdated⟩ => ⟨hstem, hcreated, hupdated⟩,
      fun hfits => ⟨hfits.stem, hfits.created, hfits.updated⟩⟩

namespace Reading

variable {α β : Type} {step : Reading α} {a : α} {text text' : List Char}
  {after after' : List Char → Prop} {reason : String}

/-- The step fails for a reason where it finds the text. -/
def Refuses (step : Reading α) (text : List Char) (after : List Char → Prop) (reason : String) :
    Prop :=
  ∀ before rest, after rest →
    ∃ e r, exec step ⟨before, text ++ rest⟩ = (.error e, r) ∧ e.reason = reason

namespace Refuses

/-- What fails first fails the whole. -/
protected theorem bind {f : α → Reading β} (hstep : Refuses step text after reason)
    (hafter : ∀ rest, after' rest → after (text' ++ rest)) :
    Refuses (step >>= f) (text ++ text') after' reason := by
  intro before rest hrest
  obtain ⟨e, r, herror, hreason⟩ := hstep before (text' ++ rest) (hafter rest hrest)
  refine ⟨e, r, ?_, hreason⟩
  rw [List.append_assoc, exec_bind, herror]

/-- What comes before a failure is read. -/
theorem behind {f : α → Reading β} (hstep : Spells step a text after True)
    (hf : Refuses (f a) text' after' reason)
    (hafter : ∀ rest, after' rest → after (text' ++ rest)) :
    Refuses (step >>= f) (text ++ text') after' reason := by
  intro before rest hrest
  obtain ⟨e, r, herror, hreason⟩ := hf (text.reverse ++ before) rest hrest
  refine ⟨e, r, ?_, hreason⟩
  rw [List.append_assoc, exec_bind, hstep.exec before (hafter rest hrest)]
  exact herror

/-- A whole text is refused where its step fails. -/
theorem parse (hstep : Refuses step text after reason) (hafter : after []) :
    ∃ e, step.parse (String.ofList text) = .error e ∧ e.reason = reason := by
  obtain ⟨e, r, herror, hreason⟩ := hstep [] [] hafter
  refine ⟨e, ?_, hreason⟩
  rw [List.append_nil] at herror
  rw [parse_ofList, exec_bind, herror]

end Refuses

/-- A count that needs 64 bits is refused. -/
theorem count_refuses (what : String) {n : Nat} (hwide : ¬ n < 2 ^ 63) :
    Refuses (count what) (Text.decimal n) Open "expected integer" := by
  intro before rest hopen
  rw [count, exec_bind,
    exec_integer_of_derives (Text.derivesInteger_decimal n) before rest hopen, if_pos (by omega)]
  exact ⟨_, _, rfl, rfl⟩

/-- A point of time that needs 64 bits is refused. -/
theorem timestamp_refuses (what : String) {t : Timestamp} (hwide : ¬ t.millis < 2 ^ 63) :
    Refuses (timestamp what) (Text.decimal t.millis) Open "expected integer" := by
  have hrefuses : Refuses (timestamp what) (Text.decimal t.millis ++ []) Open
      "expected integer" :=
    (count_refuses what hwide).bind fun _ hrest => hrest
  rwa [List.append_nil] at hrefuses

/-- A seed with a number that needs 64 bits is refused. -/
theorem seed_refuses {s : Seed} (hunfit : ¬ s.Fits) :
    Refuses seed (s.render []) Anything "expected integer" := by
  have hname : s.kind.name.toList ≠ [] ∧ s.kind.name.toList.all isIdentChar = true := by
    cases s.kind <;> decide
  have hrest : Refuses (do
      expectText ",stem:"
      let stem ← count "stem"
      expectText ",created:"
      let created ← timestamp "created"
      expectText ",updated:"
      let updated ← timestamp "updated"
      expect ')'
      return (⟨s.kind, stem, created, updated⟩ : Seed))
      (",stem:".toList ++ (Text.decimal s.stem ++ (",created:".toList ++
        (Text.decimal s.created.millis ++ (",updated:".toList ++
          (Text.decimal s.updated.millis ++ [')'])))))) Anything "expected integer" := by
    -- the first number that does not fit is the one that fails
    refine .behind (expectText_spells ",stem:") ?_ fun _ _ => trivial
    by_cases hstem : s.stem < 2 ^ 63
    · refine .behind ((count_spells "stem" s.stem).weaken fun _ => hstem) ?_ fun _ _ =>
        open_cons (c := ',') (by decide)
      refine .behind (expectText_spells ",created:") ?_ fun _ _ => trivial
      by_cases hcreated : s.created.millis < 2 ^ 63
      · refine .behind ((timestamp_spells "created" s.created).weaken fun _ => hcreated) ?_
          fun _ _ => open_cons (c := ',') (by decide)
        refine .behind (expectText_spells ",updated:") ?_ fun _ _ => trivial
        have hupdated : ¬ s.updated.millis < 2 ^ 63 := fun h => hunfit ⟨hstem, hcreated, h⟩
        exact (timestamp_refuses "updated" hupdated).bind fun _ _ =>
          open_cons (c := ')') (by decide)
      · exact (timestamp_refuses "created" hcreated).bind fun _ _ =>
          open_cons (c := ',') (by decide)
    · exact (count_refuses "stem" hstem).bind fun _ _ => open_cons (c := ',') (by decide)
  unfold Seed.render
  simp only [List.append_assoc]
  refine .behind (expectText_spells "@seed(tree:") ?_ fun _ _ => trivial
  refine .behind (ident_spells _ hname) ?_ fun _ _ => open_cons (c := ',') (by decide)
  rw [TreeKind.ofName?_name]
  exact hrest

end Reading

/-! ## Empty pages -/

theorem Text.byteLength_le (cs : List Char) : byteLength cs ≤ 4 * cs.length := by
  induction cs with
  | nil => simp
  | cons c cs ih =>
      have hsize := c.utf8Size_le_four
      rw [byteLength_cons, List.length_cons]
      omega

/-- The header of an empty page can be read. -/
theorem Header.ofPage_empty_fits (kind : TreeKind) {stem : Nat} (hstem : stem < 2 ^ 64) :
    (ofPage (.empty kind stem 0) .absent).Fits := by
  have hdigits : (Text.decimal stem).length ≤ 20 :=
    Nat.toDigits_length 10 stem 20 (by decide) (by omega)
  have hsize : (Page.empty kind stem 0 : Page Header).size ≤ 400 := by
    refine Nat.le_trans (Text.byteLength_le _) ?_
    have hzero : (Text.decimal 0).length = 1 := rfl
    cases kind <;>
      simp [Page.empty, Page.render, Page.kind, PageKind.tag, PageBody.render, Value.render,
        Text.joinWith] <;> omega
  constructor <;> cases kind <;>
    simp_all [ofPage, Page.empty, Page.childPosts, Page.children, Page.area, Page.span,
      Page.isNode, Page.kind, PageKind.isNode, Page.arity, Value.isDefined] <;> omega

/-! ## Reading back -/

open StoreM

/-- The text of a seed and a root whose header can be read is refused only for the numbers of the
seed. -/
theorem Seed.parse_toText_eq (seed : Seed) (root : PageRef) (hroot : root.header.Fits)
    (htiles : root.tree.isTiled = false → root.header.x = ⟨0⟩ ∧ root.header.y = ⟨0⟩) :
    Seed.parse (seed.toText root) =
      if seed.Fits then .ok (seed, root.header)
      else .error (.malformedSeed "expected integer" (seed.toText root)) := by
  by_cases hfits : seed.Fits
  · rw [if_pos hfits]
    rcases seed.parse_toText_cases root htiles with hok | ⟨hunfit, -⟩
    · exact hok
    · exact absurd ⟨hfits, hroot⟩ hunfit
  · rw [if_neg hfits]
    have hrefuses : Reading.Refuses Reading.seedAndRoot
        (seed.render [] ++ root.header.render root.tree.isTiled) Reading.Anything
        "expected integer" := (Reading.seed_refuses hfits).bind fun _ _ => trivial
    obtain ⟨e, herror, hreason⟩ := hrefuses.parse trivial
    rw [Seed.toText, Seed.render_append, Seed.parse, herror, ← hreason]
    rfl

/-- The text of a seed and a root's header, its numbers within what the header's text may hold and
its tiles zero unless they are written, gives back the seed and the header exactly if the stem and
both dates have at most 63 bits, and is otherwise refused as malformed.  So an empty tree of any
stem of 64 bits is opened again from its own text with the seed that it was made with, or refused,
by the same condition. -/
theorem Seed.reads_back_iff_fits (seed : Seed) :
    (∀ root : PageRef, root.header.Fits →
      (root.tree.isTiled = false → root.header.x = ⟨0⟩ ∧ root.header.y = ⟨0⟩) →
      Seed.parse (seed.toText root) =
        if seed.Fits then .ok (seed, root.header)
        else .error (.malformedSeed "expected integer" (seed.toText root))) ∧
    ∀ s : Store, seed.stem < 2 ^ 64 →
      ∃ t s', exec (Tree.empty seed) s = (.ok t, s') ∧ t.seed = seed ∧
        if seed.Fits then
          ∃ t' s'', exec (Tree.ofSeed seed.kind t.seedText) s' = (.ok t', s'') ∧
            t'.seed = seed ∧ t'.root.header = t.root.header
        else
          exec (Tree.ofSeed seed.kind t.seedText) s' =
            (.error (.malformedSeed "expected integer" t.seedText), s') := by
  refine ⟨Seed.parse_toText_eq seed, fun s hstem => ?_⟩
  have hempty : ∃ t s', exec (Tree.empty seed) s = (.ok t, s') ∧ t.seed = seed ∧
      t.root.tree = seed.kind ∧
      t.root.header = .ofPage (.empty seed.kind seed.stem 0) .absent := by
    refine ⟨_, _, by rw [Tree.empty, exec_bind, PageRef.exec_ofPage]; rfl, rfl, ?_, ?_⟩ <;>
      cases seed.kind <;> rfl
  obtain ⟨t, s', hexec, hseed, htree, hheader⟩ := hempty
  refine ⟨t, s', hexec, hseed, ?_⟩
  have hparse := Seed.parse_toText_eq t.seed t.root (hheader ▸ Header.ofPage_empty_fits _ hstem)
    (by
      rw [htree, hheader]
      intro huntiled
      cases hkind : seed.kind with
      | btree | utree => exact ⟨rfl, rfl⟩
      | qtree => rw [hkind] at huntiled; cases huntiled)
  rw [hseed] at hparse
  have htext : t.seedText = seed.toText t.root := by rw [Tree.seedText, hseed]
  rw [Tree.ofSeed, htext, hparse]
  by_cases hfits : seed.Fits
  · rw [if_pos hfits, if_pos hfits]
    simp only [exec_bind, PageRef.exec_ofHeader, ne_eq, not_true_eq_false, if_false, exec_pure]
    exact ⟨_, _, rfl, rfl, rfl⟩
  · rw [if_neg hfits, if_neg hfits]
    simp only [exec_throw]

/-- A stem that needs the topmost bit makes the difference. -/
theorem Seed.reads_back_iff_fits_topmost :
    let root : PageRef := ⟨0, .qtree, 7, ⟨1, 2, 40, 33, 34, 3, ⟨0x30⟩, ⟨0x34⟩, .int 5⟩, 0⟩
    let narrow : Seed := ⟨.qtree, 2 ^ 63 - 1, ⟨0⟩, ⟨5⟩⟩
    let wide : Seed := ⟨.qtree, 2 ^ 63, ⟨0⟩, ⟨5⟩⟩
    Seed.parse (narrow.toText root) = .ok (narrow, root.header) ∧
      Seed.parse (wide.toText root) =
        .error (.malformedSeed "expected integer" (wide.toText root)) ∧
      ∀ s, ∃ t s', exec (Tree.empty wide) s = (.ok t, s') ∧
        exec (Tree.ofSeed .qtree t.seedText) s' =
          (.error (.malformedSeed "expected integer" t.seedText), s') := by
  intro root narrow wide
  have hroot : root.header.Fits := by constructor <;> decide
  refine ⟨(Seed.reads_back_iff_fits narrow).1 root hroot fun htiles => absurd htiles (by decide),
    (Seed.reads_back_iff_fits wide).1 root hroot fun htiles => absurd htiles (by decide),
    fun s => ?_⟩
  obtain ⟨t, s', hempty, -, hrefused⟩ := (Seed.reads_back_iff_fits wide).2 s (by decide)
  exact ⟨t, s', hempty, hrefused⟩

end PageTree
