import PageTree.Proofs.Commit.Printing

/-!
# What becomes of zones

Zones are appended to, moved on from and deleted, and the texts of filed pages are found through
all of it as long as their zones are kept (`Backed.append`, `Backed.shift`, `Backed.delete`).
This rests on the active zone being kept and being the latest (`Zones.Sound`).
-/

namespace PageTree

namespace Zones

variable {z : Zones}

/-- The active zone is kept, and no zone has a greater number. -/
structure Sound (z : Zones) : Prop where
  positive : 0 < z.active
  kept : z.active ∈ z.ids
  latest : ∀ id ∈ z.ids, id ≤ z.active

theorem sound_start : start.Sound :=
  ⟨Nat.one_pos, by simp [start, ids], by simp [start, ids]⟩

theorem find?_isSome {id : Nat} : (z.find? id).isSome ↔ id ∈ z.ids := by
  simp [find?, ids, List.find?_isSome]

theorem text?_isSome {id : Nat} : (z.text? id).isSome ↔ id ∈ z.ids := by
  rw [text?, Option.isSome_map, find?_isSome]

/-! ## Appending -/

theorem ids_append (text : String) : (z.append text).ids = z.ids := by
  simp only [append, ids, List.map_map]
  refine List.map_congr_left fun zone _ => ?_
  simp only [Function.comp_apply]
  split <;> rfl

theorem Sound.append (hsound : z.Sound) (text : String) : (z.append text).Sound := by
  refine ⟨hsound.positive, ?_, ?_⟩
  · rw [ids_append]
    exact hsound.kept
  · rw [ids_append]
    exact hsound.latest

theorem text?_append (text : String) (id : Nat) :
    (z.append text).text? id =
      if id = z.active then (z.text? id).map (· ++ text) else z.text? id := by
  simp only [text?, find?, append]
  induction z.zones with
  | nil => simp
  | cons zone zones ih =>
      by_cases hid : zone.id = id
      · by_cases hactive : zone.id = z.active
        · simp [← hid, hactive]
        · simp [← hid, hactive]
      · by_cases hactive : zone.id = z.active
        · simp only [List.map_cons, hactive, if_true, List.find?_cons]
          rw [← hactive, beq_false_of_ne hid]
          simpa only [hactive] using ih
        · simp only [List.map_cons, hactive, if_false, List.find?_cons]
          rw [beq_false_of_ne hid]
          exact ih

/-! ## Moving on -/

theorem Sound.shift (hsound : z.Sound) : z.shift.Sound := by
  refine ⟨Nat.succ_pos _, ?_, ?_⟩
  · simp [ids, Zones.shift]
  · intro id hid
    simp only [ids, Zones.shift, List.map_append, List.mem_append, List.map_cons, List.map_nil,
      List.mem_singleton] at hid
    rcases hid with hid | rfl
    · exact Nat.le_succ_of_le (hsound.latest id hid)
    · exact Nat.le_refl _

theorem text?_shift (hsound : z.Sound) (id : Nat) :
    z.shift.text? id = if id = z.active + 1 then some "" else z.text? id := by
  simp only [text?, find?, Zones.shift, List.find?_append]
  split
  · next heq =>
      have hnone : z.zones.find? (·.id == id) = none := by
        rw [List.find?_eq_none]
        intro zone hmem hid
        have hle := hsound.latest zone.id (List.mem_map_of_mem hmem)
        rw [beq_iff_eq] at hid
        omega
      rw [hnone]
      simp [heq]
  · next hne =>
      cases hfind : z.zones.find? (·.id == id) with
      | some zone => simp
      | none => simp [Ne.symm hne]

/-! ## Closing and deleting -/

theorem Sound.close (hsound : z.Sound) : z.close.Sound :=
  ⟨hsound.positive, hsound.kept, hsound.latest⟩

theorem active_delete (z : Zones) (id : Nat) : (z.delete id).2.active = z.active := by
  unfold Zones.delete
  split <;> rfl

theorem Sound.delete (hsound : z.Sound) (id : Nat) : (z.delete id).2.Sound := by
  unfold Zones.delete
  split
  · next hdelete =>
      refine ⟨hsound.positive, ?_, ?_⟩
      · obtain ⟨zone, hmem, hid⟩ := List.mem_map.1 hsound.kept
        refine List.mem_map.2 ⟨zone, List.mem_filter.2 ⟨hmem, ?_⟩, hid⟩
        simpa [hid] using hdelete.1.symm
      · intro other hother
        obtain ⟨zone, hmem, rfl⟩ := List.mem_map.1 hother
        exact hsound.latest zone.id (List.mem_map_of_mem (List.mem_filter.1 hmem).1)
  · exact hsound

/-- The other zones are left as they are. -/
theorem text?_delete_of_ne {id other : Nat} (hne : other ≠ id) :
    (z.delete id).2.text? other = z.text? other := by
  unfold Zones.delete
  split
  · simp only [text?, find?, List.find?_filter]
    congr 2
    funext zone
    by_cases heq : zone.id = other
    · simp [heq, hne]
    · simp [heq]
  · rfl

theorem text?_delete {id other : Nat} {text : String}
    (htext : (z.delete id).2.text? other = some text) : z.text? other = some text := by
  by_cases heq : other = id
  · subst heq
    unfold Zones.delete at htext
    split at htext
    · rw [text?, Option.map_eq_some_iff] at htext
      obtain ⟨zone, hfind, -⟩ := htext
      simp only [find?, List.find?_filter] at hfind
      have := List.find?_some hfind
      simp at this
    · exact htext
  · rwa [text?_delete_of_ne heq] at htext

end Zones

/-! ## Pages in zones -/

namespace Backed

variable {z : Zones} {c c' : Chart}

/-- A diff is appended, with the pages that it files. -/
theorem append (hbacked : Backed z c) {text : List Char} {start : Nat}
    (hstart : z.size? z.active = some start)
    (hprinted : ∀ zone b p, c'.filed zone b = some p →
      c.filed zone b = some p ∨ zone = z.active ∧ Diff.Prints start text b p) :
    Backed (z.append (String.ofList text)) c' := by
  refine ⟨?_, ?_⟩
  · intro zone b p hfiled
    rcases hprinted zone b p hfiled with hold | ⟨rfl, -⟩
    · exact hbacked.started zone b p hold
    · exact Nat.le_refl _
  · intro zone b p after hfiled hafter
    rw [Zones.text?_append] at hafter
    -- only the active zone gets longer, and places in it are counted from its start
    by_cases hactive : zone = z.active
    · rw [if_pos hactive, Option.map_eq_some_iff] at hafter
      obtain ⟨before, hbefore, rfl⟩ := hafter
      rcases hprinted zone b p hfiled with hold | ⟨-, hprints⟩
      · obtain ⟨hle, hsize, hbetween⟩ := hbacked.kept zone b p before hold hbefore
        refine ⟨?_, hsize, Text.between?_of_append _ hbetween⟩
        rw [String.utf8ByteSize_append]
        omega
      · have hsize : before.utf8ByteSize = start := by
          rw [Zones.size?, ← hactive, hbefore] at hstart
          exact Option.some.inj hstart
        have hbounds := hprints.base_lt
        refine ⟨?_, by omega, hprints.between? hsize⟩
        rw [String.utf8ByteSize_append, Text.utf8ByteSize_ofList]
        omega
    · rw [if_neg hactive] at hafter
      rcases hprinted zone b p hfiled with hold | ⟨rfl, -⟩
      · exact hbacked.kept zone b p after hold hafter
      · exact absurd rfl hactive

/-- Any text may be appended. -/
theorem append_any (hbacked : Backed z c) (text : String) : Backed (z.append text) c := by
  refine ⟨hbacked.started, ?_⟩
  intro zone b p after hfiled hafter
  rw [Zones.text?_append] at hafter
  split at hafter
  · rw [Option.map_eq_some_iff] at hafter
    obtain ⟨before, hbefore, rfl⟩ := hafter
    obtain ⟨hle, hsize, hbetween⟩ := hbacked.kept zone b p before hfiled hbefore
    refine ⟨?_, hsize, Text.between?_of_append _ hbetween⟩
    rw [String.utf8ByteSize_append]
    omega
  · exact hbacked.kept zone b p after hfiled hafter

theorem shift (hsound : z.Sound) (hbacked : Backed z c) : Backed z.shift c := by
  refine ⟨fun zone b p hfiled => Nat.le_succ_of_le (hbacked.started zone b p hfiled), ?_⟩
  intro zone b p text hfiled htext
  rw [Zones.text?_shift hsound] at htext
  split at htext
  · next heq =>
      have hle := hbacked.started zone b p hfiled
      omega
  · exact hbacked.kept zone b p text hfiled htext

theorem delete (hbacked : Backed z c) (id : Nat) : Backed (z.delete id).2 c := by
  refine ⟨?_, fun zone b p text hfiled htext =>
    hbacked.kept zone b p text hfiled (Zones.text?_delete htext)⟩
  intro zone b p hfiled
  rw [Zones.active_delete]
  exact hbacked.started zone b p hfiled

theorem close (hbacked : Backed z c) : Backed z.close c :=
  ⟨hbacked.started, hbacked.kept⟩

end Backed
end PageTree
