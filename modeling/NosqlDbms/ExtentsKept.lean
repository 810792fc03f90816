import NosqlDbms.ExtentsRefused
import Mathlib.Tactic

/-!
# Records in any order

Updates in place move records away from the order of their slots, so the
layout of a section that was only written does not survive them.  What does
is `Kept`: the records of the items lie above both borders and do not meet.
An item can be stored over an erased one, and an inner one can be deleted.
-/

namespace NosqlDbms

structure Kept (sect : Sect) (items : Items) : Prop
    extends Held sect items where
  apart : ∀ {soff item soff' item'}, soff ≠ soff' →
    items soff = some item → items soff' = some item' →
    item.record ≠ [] → item'.record ≠ [] →
    item.stop ≤ item'.start ∨ item'.stop ≤ item.start
  below : ∀ {soff item}, items soff = some item → soff + 80 ≤ item.start
  init_le : ∀ {soff item}, items soff = some item →
    item.entity.initRecSz ≤ 8192

/-- Every slot below the item border is in use. -/
def Sect.Full (sect : Sect) (items : Items) : Prop :=
  ∀ soff, 32 ≤ soff → soff + 80 ≤ sect.head.lstItmPtr → soff % 80 = 32 →
    ∃ item, items soff = some item

/-! ## Storing an item -/

theorem Kept.store {sect sect' : Sect} {others : Items} {soff : ℕ}
    {item : Item} (h : Kept sect others) (hnone : others soff = none)
    (hoffset : sect'.head.fileOffset = sect.head.fileOffset)
    (hlow : 32 ≤ soff) (hmod : soff % 80 = 32)
    (hsoff : soff + 80 ≤ sect'.head.lstItmPtr)
    (hlip : sect.head.lstItmPtr ≤ sect'.head.lstItmPtr)
    (haligned : sect'.head.lstItmPtr % 80 = 32)
    (hborders : sect'.head.lstItmPtr ≤ sect'.head.fstRecPtr)
    (hfrp : sect'.head.fstRecPtr ≤ 8192)
    (hfree : sect'.head.freeSpace =
      sect'.head.fstRecPtr - sect'.head.lstItmPtr)
    (hstart : item.record ≠ [] → sect'.head.fstRecPtr ≤ item.start)
    (hbelow : soff + 80 ≤ item.start)
    (hinit : item.entity.initRecSz ≤ 8192)
    (hinside : ∀ {soff' item'}, others soff' = some item' →
      item'.record ≠ [] → sect'.head.fstRecPtr ≤ item'.start)
    (hapart : ∀ {soff' item'}, others soff' = some item' →
      item'.record ≠ [] → item.record.length = 0 ∨
        item'.stop ≤ item.start ∨ item.stop ≤ item'.start)
    (hslot : sect'.file.bytes (sect.head.fileOffset + soff) 80 =
      item.entity.bytes)
    (hrecord : sect'.file.bytes (sect.head.fileOffset + item.start)
      item.record.length = item.record)
    (hkeep : ∀ position, 32 ≤ position → position < 8192 →
      (position < soff ∨ soff + 80 ≤ position) →
      (position < item.start ∨ item.stop ≤ position) →
      sect'.file.cell (sect.head.fileOffset + position) =
        sect.file.cell (sect.head.fileOffset + position))
    (hslots : sect.head.fileOffset + sect'.head.lstItmPtr ≤
      sect'.file.size)
    (hrecords : sect'.head.fstRecPtr < 8192 →
      sect.head.fileOffset + 8192 ≤ sect'.file.size) :
    Kept sect' (others.insert soff item) := by
  have hspan := item.stop_sub_start
  have hbytes : ∀ {offset length}, 32 ≤ offset → offset + length ≤ 8192 →
      (offset + length ≤ soff ∨ soff + 80 ≤ offset) →
      (item.record.length = 0 ∨ offset + length ≤ item.start ∨
        item.stop ≤ offset) →
      sect'.file.bytes (sect.head.fileOffset + offset) length =
        sect.file.bytes (sect.head.fileOffset + offset) length := by
    intro offset length hlow hhigh hslot' hrecord'
    apply Storage.bytes_congr
    intro index hindex hindex'
    have hsplit : index =
        sect.head.fileOffset + (index - sect.head.fileOffset) := by
      omega
    rw [hsplit]
    exact hkeep _ (by omega) (by omega) (by omega) (by omega)
  have habove : item.record.length = 0 ∨
      sect'.head.fstRecPtr ≤ item.start := by
    by_cases hne : item.record = []
    · exact Or.inl (by rw [hne, List.length_nil])
    · exact Or.inr (hstart hne)
  constructor
  · constructor
    · omega
    · exact hborders
    · exact hfrp
    · exact haligned
    · exact hfree
    · intro soff' item' hitem'
      rcases Items.insert_eq_some.mp hitem' with ⟨rfl, -⟩ | ⟨-, hold⟩
      · exact ⟨hlow, hsoff, hmod⟩
      · have hslot' := h.slot hold
        exact ⟨hslot'.1, hslot'.2.1.trans hlip, hslot'.2.2⟩
    · intro soff' item' hitem'
      rw [hoffset]
      rcases Items.insert_eq_some.mp hitem' with ⟨rfl, rfl⟩ | ⟨hne, hold⟩
      · exact hslot
      · have hslot' := h.slot hold
        rw [hbytes hslot'.1 (by omega) (by omega) (by omega)]
        exact h.entity hold
    · intro soff' item' hitem'
      rw [hoffset]
      rcases Items.insert_eq_some.mp hitem' with ⟨-, rfl⟩ | ⟨-, hold⟩
      · exact hrecord
      · by_cases hne : item'.record = []
        · simp [hne]
        · have hin := hinside hold hne
          have hdisjoint := hapart hold hne
          have hle : item'.start + item'.record.length ≤ 8192 :=
            item'.stop_le
          have hspan' := item'.stop_sub_start
          rw [hbytes (by omega) hle (by omega) (by omega)]
          exact h.record hold
    · intro soff' item' hitem' hne
      rcases Items.insert_eq_some.mp hitem' with ⟨-, rfl⟩ | ⟨-, hold⟩
      · exact hstart hne
      · exact hinside hold hne
    · rw [hoffset]
      exact hslots
    · rw [hoffset]
      exact hrecords
  · intro soff₁ item₁ soff₂ item₂ hne h₁ h₂ hne₁ hne₂
    rcases Items.insert_eq_some.mp h₁ with ⟨rfl, rfl⟩ | ⟨-, hold₁⟩
    · rcases Items.insert_eq_some.mp h₂ with ⟨rfl, -⟩ | ⟨-, hold₂⟩
      · exact absurd rfl hne
      · have hpos := List.length_pos_of_ne_nil hne₁
        have hdisjoint := hapart hold₂ hne₂
        omega
    · rcases Items.insert_eq_some.mp h₂ with ⟨-, rfl⟩ | ⟨-, hold₂⟩
      · have hpos := List.length_pos_of_ne_nil hne₂
        have hdisjoint := hapart hold₁ hne₁
        omega
      · exact h.apart hne hold₁ hold₂ hne₁ hne₂
  · intro soff' item' hitem'
    rcases Items.insert_eq_some.mp hitem' with ⟨rfl, rfl⟩ | ⟨-, hold⟩
    · exact hbelow
    · exact h.below hold
  · intro soff' item' hitem'
    rcases Items.insert_eq_some.mp hitem' with ⟨-, rfl⟩ | ⟨-, hold⟩
    · exact hinit
    · exact h.init_le hold

theorem Kept.rewrite {sect : Sect} {others : Items} {soff stop freeSpace : ℕ}
    {key : Str} {val : List Byte} {lip frp : ℕ} (h : Kept sect others)
    (entity : Entity) (hnone : others soff = none)
    (hkey : entity.keySize = key.cnt) (hval : entity.valSize = val.length)
    (hinit : entity.initRecSz ≤ 8192)
    (hlow : 32 ≤ soff) (hmod : soff % 80 = 32) (hsoff : soff + 80 ≤ lip)
    (hlip : sect.head.lstItmPtr ≤ lip) (haligned : lip % 80 = 32)
    (hlipLe : lip ≤ soff + 80 ∨ lip = sect.head.lstItmPtr)
    (hborders : lip ≤ frp) (hstop : stop ≤ 8192)
    (hroom : soff + 80 + (key.cnt + val.length) ≤ stop)
    (hfit : key.cnt + val.length = 0 ∨
      frp + (key.cnt + val.length) ≤ stop)
    (hfrp : frp = sect.head.fstRecPtr ∨
      sect.head.fstRecPtr ≤ stop ∧ frp + (key.cnt + val.length) = stop)
    (hinside : ∀ {soff' item'}, others soff' = some item' →
      item'.record ≠ [] → frp ≤ item'.start)
    (hapart : ∀ {soff' item'}, others soff' = some item' →
      item'.record ≠ [] → key.cnt + val.length = 0 ∨
        item'.stop ≤ stop - key.cnt - val.length ∨ stop ≤ item'.start) :
    ∃ item : Item,
      item.entity = entity.placed
        (sect.pointed soff stop freeSpace).head key val ∧
      item.record = val ++ key.val ∧
      Kept (sect.rewritten soff stop freeSpace key val entity lip frp)
        (others.insert soff item) := by
  have hcnt : key.val.length = key.cnt := rfl
  have hfrpLe := h.frp_le
  obtain ⟨pointed, hpointed⟩ : ∃ pointed,
      pointed = sect.pointed soff stop freeSpace := ⟨_, rfl⟩
  have hlipPointed : pointed.head.lstItmPtr = soff := by
    rw [hpointed]
    rfl
  have hfrpPointed : pointed.head.fstRecPtr = stop := by
    rw [hpointed]
    rfl
  have hoffset : pointed.head.fileOffset = sect.head.fileOffset := by
    rw [hpointed]
    rfl
  have hfile : pointed.file = sect.file := by
    rw [hpointed]
    rfl
  let item := writtenItem pointed.head key val entity hkey hval
    (by omega) (by omega)
  have hentity : item.entity = entity.placed pointed.head key val := rfl
  have hrecord : item.record = val ++ key.val := rfl
  have hlength : item.record.length = val.length + key.cnt := by
    rw [hrecord, List.length_append]
    rfl
  have hstart : item.start = stop - key.cnt - val.length := by
    rw [← hfrpPointed]
    rfl
  have hstopItem : item.stop = stop := by
    rw [Item.stop_sub_start, hstart, hlength]
    omega
  obtain ⟨after, hafter⟩ : ∃ after : Sect, after =
      sect.rewritten soff stop freeSpace key val entity lip frp := ⟨_, rfl⟩
  have hfileAfter : after.file =
      (writtenSect pointed key val item.entity).file := by
    rw [hafter, hentity, hpointed]
    rfl
  have hheadAfter : after.head = { sect.head with
      lstItmPtr := lip
      fstRecPtr := frp
      freeSpace := frp - lip } := by
    rw [hafter]
    rfl
  have hwithin : pointed.Within
      (writtenSect pointed key val item.entity) True :=
    writtenSect_within (by omega) (by omega) (by omega)
  have hsize : sect.file.size ≤ after.file.size := by
    rw [hfileAfter, ← hfile]
    exact hwithin.size_le
  rw [← hpointed, ← hafter]
  refine ⟨item, hentity, hrecord, h.store hnone ?_ hlow hmod ?_ ?_ ?_ ?_ ?_
    ?_ ?_ ?_ ?_ ?_ ?_ ?_ ?_ ?_ ?_ ?_⟩
  · rw [hheadAfter]
  · rw [hheadAfter]
    exact hsoff
  · rw [hheadAfter]
    exact hlip
  · rw [hheadAfter]
    exact haligned
  · rw [hheadAfter]
    exact hborders
  · rw [hheadAfter]
    simp only
    omega
  · rw [hheadAfter]
  · intro hne
    have hpos := List.length_pos_of_ne_nil hne
    rw [hheadAfter, hstart]
    simp only
    omega
  · omega
  · rw [hentity]
    exact hinit
  · intro soff' item' hitem' hne
    rw [hheadAfter]
    exact hinside hitem' hne
  · intro soff' item' hitem' hne
    rw [hstart, hstopItem, hlength, Nat.add_comm]
    exact hapart hitem' hne
  · rw [hfileAfter, ← hoffset, ← hlipPointed]
    exact writtenSect_slot (by omega)
  · rw [hfileAfter, ← hoffset, hstart, hlength, hrecord, ← hfrpPointed]
    exact writtenSect_record (by omega) (by omega)
  · intro position hlow' hhigh hslot' hrecord'
    rw [hfileAfter, ← hoffset, ← hfile]
    exact writtenSect_cell (by omega) hlow' (by omega) (by omega)
  · have hslots := h.size_slots
    have hslot : pointed.head.fileOffset + pointed.head.lstItmPtr + 80 ≤
        (writtenSect pointed key val item.entity).file.size :=
      writtenSect_size_slot
    rw [hheadAfter]
    rw [← hfileAfter, hoffset, hlipPointed] at hslot
    simp only
    omega
  · intro hlt
    rw [hheadAfter] at hlt
    simp only at hlt
    by_cases hold : sect.head.fstRecPtr < 8192
    · exact (h.size_records hold).trans hsize
    · have hne : val ++ key.val ≠ [] := by
        intro hnil
        rw [hrecord, hnil, List.length_nil] at hlength
        omega
      have hend : pointed.head.fileOffset + pointed.head.fstRecPtr ≤
          (writtenSect pointed key val item.entity).file.size :=
        writtenSect_size_record (by omega) hne
      rw [← hfileAfter, hoffset, hfrpPointed] at hend
      omega

theorem Sect.writtenSect_eq_rewritten {sect : Sect} {key : Str}
    {val : List Byte} {entity : Entity}
    (hfree : sect.head.freeSpace =
      sect.head.fstRecPtr - sect.head.lstItmPtr) :
    writtenSect sect key val (entity.placed sect.head key val) =
      sect.rewritten sect.head.lstItmPtr sect.head.fstRecPtr
        sect.head.freeSpace key val entity (sect.head.lstItmPtr + 80)
        (sect.head.fstRecPtr - key.cnt - val.length) := by
  have hhead : ((sect.head.lower key.cnt).lower val.length).raise 80 =
      { sect.head with
        lstItmPtr := sect.head.lstItmPtr + 80
        fstRecPtr := sect.head.fstRecPtr - key.cnt - val.length
        freeSpace := sect.head.fstRecPtr - key.cnt - val.length -
          (sect.head.lstItmPtr + 80) } := by
    simp only [SectHead.raise, SectHead.lower, hfree, SectHead.mk.injEq,
      and_true]
    omega
  rw [Sect.rewritten, ← hhead]
  rfl

/-! ## Erasing an item -/

theorem Kept.frame {sect sect' : Sect} {items : Items} (h : Kept sect items)
    (hhead : sect'.head = sect.head)
    (hcell : ∀ position, 32 ≤ position →
      sect'.file.cell (sect.head.fileOffset + position) =
        sect.file.cell (sect.head.fileOffset + position))
    (hsize : sect.file.size ≤ sect'.file.size) : Kept sect' items where
  toHeld := h.toHeld.frame hhead hcell hsize
  apart := h.apart
  below := h.below
  init_le := h.init_le

theorem Kept.quiet {sect sect' : Sect} {items : Items} (h : Kept sect items)
    (hquiet : sect.Quiet sect') : Kept sect' items :=
  h.frame hquiet.head (fun _ _ => congrFun hquiet.cell _) hquiet.size.ge

theorem Kept.synced {sect : Sect} {items : Items} (h : Kept sect items) :
    Kept (sect.withHead sect.head) items :=
  h.frame (Sect.withHead_head sect sect.head)
    (fun _ hposition => sect.cell_synced hposition)
    (Storage.size_le_write _ _ _)

theorem Kept.erase {sect : Sect} {items : Items} (h : Kept sect items)
    (soff : ℕ) : Kept sect (items.erase soff) where
  lip_ge := h.lip_ge
  lip_le := h.lip_le
  frp_le := h.frp_le
  aligned := h.aligned
  free := h.free
  slot := fun hitem => h.slot (Items.erase_eq_some.mp hitem).2
  entity := fun hitem => h.entity (Items.erase_eq_some.mp hitem).2
  record := fun hitem => h.record (Items.erase_eq_some.mp hitem).2
  inside := fun hitem => h.inside (Items.erase_eq_some.mp hitem).2
  size_slots := h.size_slots
  size_records := h.size_records
  apart := fun hne hitem hitem' => h.apart hne
    (Items.erase_eq_some.mp hitem).2 (Items.erase_eq_some.mp hitem').2
  below := fun hitem => h.below (Items.erase_eq_some.mp hitem).2
  init_le := fun hitem => h.init_le (Items.erase_eq_some.mp hitem).2

/-- Deleting an inner item keeps the others, when the scan stops in front of
their records. -/
theorem Kept.delete_inner {sect : Sect} {items : Items} {soff : ℕ}
    {item : Item} (h : Kept sect items) (hfull : sect.Full items)
    (hitem : items soff = some item)
    (hnotLast : soff + 80 ≠ sect.head.lstItmPtr)
    (hscan : ∀ {soff' item'}, soff' ≠ soff → items soff' = some item' →
      item'.record ≠ [] → sect.scanStopWithout soff ≤ item'.start) :
    ∃ sect', sectExtDelete soff sect = .ok item.entity sect' ∧
      Kept sect' (items.erase soff) ∧
      sect'.head.lstItmPtr = sect.head.lstItmPtr ∧
      sect'.head.fstRecPtr = sect.scanStopWithout soff := by
  have hslot := h.slot hitem
  have haligned := h.aligned
  have hlipGe := h.lip_ge
  have hlipLe := h.lip_le
  have hfrpLe := h.frp_le
  have hfree := h.free
  have hspan := item.stop_sub_start
  have hscanGe := sect.scanStopWithout_ge soff
  have hscanLe := sect.scanStopWithout_le soff hfrpLe
  obtain ⟨last, hlast⟩ : ∃ last, items (sect.head.lstItmPtr - 80) =
      some last := hfull _ (by omega) (by omega) (by omega)
  obtain ⟨wiped, sect', hdelete, hwiped, hoffset, hlip, hfrp, hsum, hcell,
    hsize⟩ := h.toHeld.delete_inner hitem hlast hnotLast
  have hkeep : ∀ {offset length}, 32 ≤ offset →
      (offset + length ≤ soff ∨ soff + 80 ≤ offset) →
      (item.record.length = 0 ∨ offset + length ≤ item.start ∨
        item.stop ≤ offset) →
      sect'.file.bytes (sect.head.fileOffset + offset) length =
        sect.file.bytes (sect.head.fileOffset + offset) length := by
    intro offset length hlow hslot' hrecord'
    apply Storage.bytes_congr
    intro index hindex hindex'
    have hsplit : index =
        sect.head.fileOffset + (index - sect.head.fileOffset) := by
      omega
    rw [hsplit, hcell _ (by omega)]
    exact hwiped.keep _ (by omega) (by omega) (by omega)
  have hinside : item.record.length = 0 ∨
      sect.head.fstRecPtr ≤ item.start := by
    by_cases hne : item.record = []
    · exact Or.inl (by rw [hne, List.length_nil])
    · exact Or.inr (h.inside hitem hne)
  refine ⟨sect', hdelete, ⟨⟨?_, ?_, ?_, ?_, ?_, ?_, ?_, ?_, ?_, ?_, ?_⟩,
    (h.erase soff).apart, (h.erase soff).below, (h.erase soff).init_le⟩,
    hlip, hfrp⟩
  · rw [hlip]
    exact hlipGe
  · rw [hlip, hfrp]
    exact hlipLe.trans hscanGe
  · rw [hfrp]
    exact hscanLe
  · rw [hlip]
    exact haligned
  · omega
  · rw [hlip]
    exact (h.erase soff).slot
  · intro soff' item' hitem'
    obtain ⟨hne, hold⟩ := Items.erase_eq_some.mp hitem'
    have hslot' := h.slot hold
    rw [hoffset, hkeep hslot'.1 (by omega) (by omega)]
    exact h.entity hold
  · intro soff' item' hitem'
    obtain ⟨hne, hold⟩ := Items.erase_eq_some.mp hitem'
    rw [hoffset]
    by_cases hnil : item'.record = []
    · simp [hnil]
    · have hin := h.inside hold hnil
      have hspan' := item'.stop_sub_start
      have hapart : item.record.length = 0 ∨
          item'.start + item'.record.length ≤ item.start ∨
            item.stop ≤ item'.start := by
        by_cases hnil' : item.record = []
        · exact Or.inl (by rw [hnil', List.length_nil])
        · exact Or.inr (h.apart hne hold hitem hnil hnil')
      rw [hkeep (by omega) (by omega) hapart]
      exact h.record hold
  · intro soff' item' hitem' hnil
    obtain ⟨hne, hold⟩ := Items.erase_eq_some.mp hitem'
    rw [hfrp]
    exact hscan hne hold hnil
  · rw [hoffset, hlip]
    exact h.size_slots.trans hsize
  · intro hlt
    rw [hoffset]
    exact (h.size_records (by omega)).trans hsize

end NosqlDbms
