import NosqlDbms.ExtentsDelete
import Mathlib.Tactic

/-!
# The border byte

`Sect.borderByte` tells from the bytes of a section alone where the scan for
the record border will stop.
-/

namespace NosqlDbms

def Items.without (items : Items) (gone : List ℕ) : Items := fun soff =>
  if soff ∈ gone then none else items soff

theorem Items.without_eq_some {items : Items} {gone : List ℕ} {soff : ℕ}
    {item : Item} : items.without gone soff = some item ↔
      soff ∉ gone ∧ items soff = some item := by
  by_cases hmem : soff ∈ gone <;> simp [Items.without, hmem]

@[simp] theorem Items.without_nil (items : Items) :
    items.without [] = items := by
  funext soff
  simp [Items.without]

theorem Items.without_singleton (items : Items) (soff : ℕ) :
    items.without [soff] = items.erase soff := by
  funext soff'
  by_cases heq : soff' = soff
  · simp [Items.without, heq, Items.erase_self]
  · simp [Items.without, heq, Items.erase_of_ne heq]

theorem mem_slotOffsets {lstItmPtr soff : ℕ}
    (haligned : lstItmPtr % 80 = 32) :
    soff ∈ slotOffsets lstItmPtr ↔
      32 ≤ soff ∧ soff + 80 ≤ lstItmPtr ∧ soff % 80 = 32 := by
  simp only [slotOffsets, sizeofSectHeadEntity, sizeofEntity, List.mem_map,
    List.mem_range]
  constructor
  · rintro ⟨index, hindex, rfl⟩
    omega
  · rintro ⟨hlow, hhigh, hmod⟩
    exact ⟨(soff - 32) / 80, by omega, by omega⟩

theorem pairwise_slotOffsets (lstItmPtr : ℕ) :
    (slotOffsets lstItmPtr).Pairwise (· < ·) := by
  rw [slotOffsets, List.pairwise_map]
  apply List.pairwise_lt_range.imp
  intro first second hlt
  simp only [sizeofEntity]
  omega

theorem Held.entityAt {sect : Sect} {items : Items} {soff : ℕ} {item : Item}
    (h : Held sect items) (hitem : items soff = some item) :
    sect.entityAt soff = item.entity := by
  rw [Sect.entityAt, sizeofEntity, h.entity hitem, Entity.ofBytes_bytes]

namespace Loose

variable {sect : Sect} {items : Items} {soff : ℕ} {item : Item}

theorem entityAt (h : Loose sect items) (hitem : items soff = some item) :
    sect.entityAt soff = item.entity := h.held.entityAt hitem

theorem cleared_iff (h : Loose sect items) (hlow : 32 ≤ soff)
    (hhigh : soff + 80 ≤ sect.head.lstItmPtr) (hmod : soff % 80 = 32) :
    sect.cleared soff = true ↔ items soff = none := by
  rw [Sect.cleared, show sizeofEntity = 80 from rfl]
  cases hslot : items soff with
  | none =>
      refine iff_of_true ?_ rfl
      rw [isZeroed_iff, Storage.length_bytes]
      exact h.cleared hlow hhigh hmod hslot
  | some item =>
      refine iff_of_false ?_ (by simp)
      rw [h.entity hslot, item.isZeroed_bytes]
      simp

theorem mem_liveSlots (h : Loose sect items) :
    soff ∈ sect.liveSlots ↔ ∃ item, items soff = some item := by
  rw [Sect.liveSlots, List.mem_filter, mem_slotOffsets h.aligned]
  constructor
  · rintro ⟨⟨hlow, hhigh, hmod⟩, hlive⟩
    have hne : items soff ≠ none := by
      intro hnone
      rw [(h.cleared_iff hlow hhigh hmod).mpr hnone] at hlive
      simp at hlive
    exact Option.ne_none_iff_exists'.mp hne
  · rintro ⟨item, hitem⟩
    have hslot := h.slot hitem
    refine ⟨hslot, ?_⟩
    have hcleared : sect.cleared soff ≠ true := by
      intro hcleared
      rw [(h.cleared_iff hslot.1 hslot.2.1 hslot.2.2).mp hcleared] at hitem
      cases hitem
    simpa using hcleared

end Loose

theorem Sect.pairwise_liveSlots (sect : Sect) :
    sect.liveSlots.Pairwise (· < ·) :=
  (pairwise_slotOffsets _).filter _

theorem le_getLast_of_pairwise {list : List ℕ} {last element : ℕ}
    (h : list.Pairwise (· < ·)) (hlast : list.getLast? = some last)
    (hmem : element ∈ list) : element ≤ last := by
  rw [List.getLast?_eq_some_iff] at hlast
  obtain ⟨front, rfl⟩ := hlast
  rcases List.mem_append.mp hmem with hfront | hend
  · exact ((List.pairwise_append.mp h).2.2 element hfront last
      (by simp)).le
  · rw [List.mem_singleton.mp hend]

section BorderByte

variable {sect : Sect} {items : Items} {gone : List ℕ}

theorem Loose.mem_recorded (h : Loose sect items) {soff : ℕ} :
    soff ∈ sect.liveSlots.filter (fun soff => !gone.contains soff &&
        entityRecSz (sect.entityAt soff) != 0) ↔
      ∃ item, items.without gone soff = some item ∧ item.record ≠ [] := by
  rw [List.mem_filter, h.mem_liveSlots]
  constructor
  · rintro ⟨⟨item, hitem⟩, htest⟩
    rw [h.entityAt hitem, item.recSz] at htest
    simp only [Bool.and_eq_true, Bool.not_eq_true', bne_iff_ne, ne_eq,
      List.length_eq_zero_iff, List.contains_eq_mem,
      decide_eq_false_iff_not] at htest
    exact ⟨item, Items.without_eq_some.mpr ⟨htest.1, hitem⟩, htest.2⟩
  · rintro ⟨item, hwithout, hne⟩
    obtain ⟨hout, hitem⟩ := Items.without_eq_some.mp hwithout
    refine ⟨⟨item, hitem⟩, ?_⟩
    rw [h.entityAt hitem, item.recSz]
    simp [hout, hne]

theorem Loose.borderByte_eq_some (h : Loose sect items) {byte : Byte} :
    sect.borderByte gone = some byte ↔
      ∃ soff item, (items.without gone).IsBorder soff item ∧
        item.record.head? = some byte := by
  have hsorted := (Sect.pairwise_liveSlots sect).filter
    (fun soff => !gone.contains soff &&
      entityRecSz (sect.entityAt soff) != 0)
  have hhead : ∀ {soff item}, items.without gone soff = some item →
      item.record ≠ [] → item.record.head? = some (sect.file.cell
        (sect.head.fileOffset + (sect.entityAt soff).valPtr)) := by
    intro soff item hwithout hne
    have hitem := (Items.without_eq_some.mp hwithout).2
    rw [h.head_record hitem hne, h.entityAt hitem]
    rfl
  rw [Sect.borderByte, Option.map_eq_some_iff]
  constructor
  · rintro ⟨soff, hlast, rfl⟩
    obtain ⟨item, hwithout, hne⟩ :=
      h.mem_recorded.mp (List.mem_of_getLast? hlast)
    refine ⟨soff, item, ⟨hwithout, hne, ?_⟩, hhead hwithout hne⟩
    intro soff' item' hlt hwithout'
    by_contra hne'
    have hle := le_getLast_of_pairwise hsorted hlast
      (h.mem_recorded.mpr ⟨item', hwithout', hne'⟩)
    omega
  · rintro ⟨soff, item, ⟨hwithout, hne, hlowest⟩, hbyte⟩
    have hmem := h.mem_recorded.mpr ⟨item, hwithout, hne⟩
    obtain ⟨last, hlast⟩ : ∃ last, (sect.liveSlots.filter
        (fun soff => !gone.contains soff &&
          entityRecSz (sect.entityAt soff) != 0)).getLast? = some last :=
      Option.isSome_iff_exists.mp
        (List.getLast?_isSome.mpr (List.ne_nil_of_mem hmem))
    obtain ⟨item', hwithout', hne'⟩ :=
      h.mem_recorded.mp (List.mem_of_getLast? hlast)
    have hle := le_getLast_of_pairwise hsorted hlast hmem
    have heq : last = soff := by
      by_contra hdiff
      exact hne' (hlowest last item' (by omega) hwithout')
    subst heq
    refine ⟨last, hlast, ?_⟩
    rw [hhead hwithout hne, Option.some.injEq] at hbyte
    exact hbyte

theorem Loose.borderSafe_of_borderByte (h : Loose sect items)
    (gone : List ℕ) (hbyte : sect.borderByte gone ≠ some 0) :
    (items.without gone).BorderSafe := by
  intro soff item hborder hzero
  exact hbyte (h.borderByte_eq_some.mpr ⟨soff, item, hborder, hzero⟩)

theorem Loose.hasRecord_of_borderByte (h : Loose sect items) {byte : Byte}
    (hbyte : sect.borderByte gone = some byte) :
    (items.without gone).HasRecord := by
  obtain ⟨soff, item, hborder, -⟩ := h.borderByte_eq_some.mp hbyte
  exact ⟨soff, item, hborder.1, hborder.2.1⟩

end BorderByte

end NosqlDbms
