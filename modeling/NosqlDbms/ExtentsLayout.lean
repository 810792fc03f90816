import NosqlDbms.Extents
import Mathlib.Tactic

/-!
# The layout of an extents section

`Layout sect items` says that the section holds exactly the entities `items`,
a partial map from slots.  The slots of live items are spelled in the file,
all other slots below the item border are zero, the records lie in the order
of their slots, and the record border is the start of the lowest record.

`Loose` is the part of the layout that survives while a deletion has cleared
an item and not yet moved the borders back.
-/

namespace NosqlDbms

/-- An entity together with its record, a value followed by a key. -/
structure Item where
  entity : Entity
  record : List Byte
  length_record : record.length = entity.valSize + entity.keySize
  keyPtr_eq : entity.keyPtr = entity.valPtr + entity.valSize
  valPtr_ge : sizeofSectHeadEntity + sizeofEntity ≤ entity.valPtr
  keyPtr_le : entity.keyPtr + entity.keySize ≤ SECTION_SIZE

namespace Item

@[ext] theorem ext {first second : Item}
    (hentity : first.entity = second.entity)
    (hrecord : first.record = second.record) : first = second := by
  cases first
  cases second
  cases hentity
  cases hrecord
  rfl

def start (item : Item) : ℕ := item.entity.valPtr

def stop (item : Item) : ℕ := item.entity.valPtr + item.record.length

theorem stop_eq (item : Item) :
    item.stop = item.entity.keyPtr + item.entity.keySize := by
  have hlength := item.length_record
  have hkey := item.keyPtr_eq
  unfold stop
  omega

theorem stop_le (item : Item) : item.stop ≤ SECTION_SIZE := by
  rw [item.stop_eq]
  exact item.keyPtr_le

theorem start_ge (item : Item) : 112 ≤ item.start := item.valPtr_ge

theorem stop_sub_start (item : Item) :
    item.stop = item.start + item.record.length := rfl

theorem recSz (item : Item) :
    entityRecSz item.entity = item.record.length := by
  rw [item.length_record, entityRecSz, Nat.add_comm]

theorem bytes_ne_zero (item : Item) :
    item.entity.bytes ≠ List.replicate sizeofEntity 0 := by
  intro hzero
  have hclear : item.entity = entityClear := by
    apply Entity.bytes_inj
    rw [hzero, Entity.bytes_entityClear]
  have hge := item.start_ge
  rw [start, hclear] at hge
  simp [entityClear] at hge

theorem isZeroed_bytes (item : Item) :
    isZeroed item.entity.bytes = false := by
  rw [Bool.eq_false_iff]
  intro hzero
  rw [isZeroed_iff, Entity.length_bytes] at hzero
  exact item.bytes_ne_zero hzero

end Item

/-- The items of a section, by slot. -/
abbrev Items : Type := ℕ → Option Item

def Items.erase (items : Items) (soff : ℕ) : Items :=
  Function.update items soff none

def Items.insert (items : Items) (soff : ℕ) (item : Item) : Items :=
  Function.update items soff (some item)

/-- The item of the slot owns the lowest record of all. -/
def Items.IsBorder (items : Items) (soff : ℕ) (item : Item) : Prop :=
  items soff = some item ∧ item.record ≠ [] ∧
    ∀ soff' item', soff < soff' → items soff' = some item' →
      item'.record = []

/-- The lowest record does not begin with a zero byte, so the scan for the
record border stops in front of it. -/
def Items.BorderSafe (items : Items) : Prop :=
  ∀ soff item, items.IsBorder soff item → item.record.head? ≠ some 0

def Items.HasRecord (items : Items) : Prop :=
  ∃ soff item, items soff = some item ∧ item.record ≠ []

structure Loose (sect : Sect) (items : Items) : Prop where
  lip_ge : 32 ≤ sect.head.lstItmPtr
  lip_le : sect.head.lstItmPtr ≤ sect.head.fstRecPtr
  frp_le : sect.head.fstRecPtr ≤ 8192
  aligned : sect.head.lstItmPtr % 80 = 32
  free : sect.head.freeSpace =
    sect.head.fstRecPtr - sect.head.lstItmPtr
  slot : ∀ {soff item}, items soff = some item →
    32 ≤ soff ∧ soff + 80 ≤ sect.head.lstItmPtr ∧ soff % 80 = 32
  entity : ∀ {soff item}, items soff = some item →
    sect.file.bytes (sect.head.fileOffset + soff) 80 = item.entity.bytes
  record : ∀ {soff item}, items soff = some item →
    sect.file.bytes (sect.head.fileOffset + item.start)
      item.record.length = item.record
  cleared : ∀ {soff}, 32 ≤ soff → soff + 80 ≤ sect.head.lstItmPtr →
    soff % 80 = 32 → items soff = none →
    sect.file.bytes (sect.head.fileOffset + soff) 80 =
      List.replicate 80 0
  inside : ∀ {soff item}, items soff = some item → item.record ≠ [] →
    sect.head.fstRecPtr ≤ item.start
  apart : ∀ {soff item soff' item'}, soff < soff' →
    items soff = some item → items soff' = some item' →
    item.record ≠ [] → item'.record ≠ [] → item'.stop ≤ item.start
  gap : ∀ {position}, sect.head.fstRecPtr ≤ position → position < 8192 →
    (∀ soff item, items soff = some item →
      ¬ (item.start ≤ position ∧ position < item.stop)) →
    sect.file.cell (sect.head.fileOffset + position) = 0
  size_slots : sect.head.fileOffset + sect.head.lstItmPtr ≤ sect.file.size
  size_records : sect.head.fstRecPtr < 8192 →
    sect.head.fileOffset + 8192 ≤ sect.file.size

/-- What reading the items needs: each is where its entity says, below or
above the borders; the records may lie in any order. -/
structure Held (sect : Sect) (items : Items) : Prop where
  lip_ge : 32 ≤ sect.head.lstItmPtr
  lip_le : sect.head.lstItmPtr ≤ sect.head.fstRecPtr
  frp_le : sect.head.fstRecPtr ≤ 8192
  aligned : sect.head.lstItmPtr % 80 = 32
  free : sect.head.freeSpace =
    sect.head.fstRecPtr - sect.head.lstItmPtr
  slot : ∀ {soff item}, items soff = some item →
    32 ≤ soff ∧ soff + 80 ≤ sect.head.lstItmPtr ∧ soff % 80 = 32
  entity : ∀ {soff item}, items soff = some item →
    sect.file.bytes (sect.head.fileOffset + soff) 80 = item.entity.bytes
  record : ∀ {soff item}, items soff = some item →
    sect.file.bytes (sect.head.fileOffset + item.start)
      item.record.length = item.record
  inside : ∀ {soff item}, items soff = some item → item.record ≠ [] →
    sect.head.fstRecPtr ≤ item.start
  size_slots : sect.head.fileOffset + sect.head.lstItmPtr ≤ sect.file.size
  size_records : sect.head.fstRecPtr < 8192 →
    sect.head.fileOffset + 8192 ≤ sect.file.size

theorem Loose.held {sect : Sect} {items : Items} (h : Loose sect items) :
    Held sect items where
  lip_ge := h.lip_ge
  lip_le := h.lip_le
  frp_le := h.frp_le
  aligned := h.aligned
  free := h.free
  slot := h.slot
  entity := h.entity
  record := h.record
  inside := h.inside
  size_slots := h.size_slots
  size_records := h.size_records

structure Layout (sect : Sect) (items : Items) : Prop
    extends Loose sect items where
  border : sect.head.lstItmPtr = 32 ∨
    ∃ item, items (sect.head.lstItmPtr - 80) = some item
  tight : sect.head.fstRecPtr = 8192 ∨
    ∃ soff item, items soff = some item ∧ item.record ≠ [] ∧
      item.start = sect.head.fstRecPtr

/-! ## Lookups in an updated map -/

theorem Items.erase_self (items : Items) (soff : ℕ) :
    items.erase soff soff = none := Function.update_self ..

theorem Items.erase_of_ne {items : Items} {soff soff' : ℕ}
    (hne : soff' ≠ soff) : items.erase soff soff' = items soff' :=
  Function.update_of_ne hne ..

theorem Items.insert_self (items : Items) (soff : ℕ) (item : Item) :
    items.insert soff item soff = some item := Function.update_self ..

theorem Items.insert_of_ne {items : Items} {soff soff' : ℕ} {item : Item}
    (hne : soff' ≠ soff) : items.insert soff item soff' = items soff' :=
  Function.update_of_ne hne ..

theorem Items.erase_eq_some {items : Items} {soff soff' : ℕ} {item : Item} :
    items.erase soff soff' = some item ↔
      soff' ≠ soff ∧ items soff' = some item := by
  by_cases heq : soff' = soff
  · simp [heq, Items.erase_self]
  · simp [heq, Items.erase_of_ne heq]

theorem Items.insert_eq_some {items : Items} {soff soff' : ℕ}
    {item item' : Item} :
    items.insert soff item soff' = some item' ↔
      (soff' = soff ∧ item' = item) ∨
        (soff' ≠ soff ∧ items soff' = some item') := by
  by_cases heq : soff' = soff
  · subst soff'
    simp [Items.insert_self, eq_comm]
  · simp [heq, Items.insert_of_ne heq]

/-! ## Frames -/

theorem Held.frame {sect sect' : Sect} {items : Items} (h : Held sect items)
    (hhead : sect'.head = sect.head)
    (hcell : ∀ position, 32 ≤ position →
      sect'.file.cell (sect.head.fileOffset + position) =
        sect.file.cell (sect.head.fileOffset + position))
    (hsize : sect.file.size ≤ sect'.file.size) : Held sect' items := by
  have hbytes : ∀ {offset length}, 32 ≤ offset →
      sect'.file.bytes (sect.head.fileOffset + offset) length =
        sect.file.bytes (sect.head.fileOffset + offset) length := by
    intro offset length hlow
    apply Storage.bytes_congr
    intro index hindex hindex'
    have hsplit : index =
        sect.head.fileOffset + (index - sect.head.fileOffset) := by
      omega
    rw [hsplit]
    exact hcell _ (by omega)
  constructor
  · rw [hhead]
    exact h.lip_ge
  · rw [hhead]
    exact h.lip_le
  · rw [hhead]
    exact h.frp_le
  · rw [hhead]
    exact h.aligned
  · rw [hhead]
    exact h.free
  · rw [hhead]
    exact h.slot
  · intro soff item hitem
    have hslot := h.slot hitem
    rw [hhead, hbytes hslot.1]
    exact h.entity hitem
  · intro soff item hitem
    have hstart := item.start_ge
    rw [hhead, hbytes (by omega)]
    exact h.record hitem
  · rw [hhead]
    exact h.inside
  · rw [hhead]
    exact h.size_slots.trans hsize
  · intro hlt
    rw [hhead] at hlt ⊢
    exact (h.size_records hlt).trans hsize

theorem Loose.frame {sect sect' : Sect} {items : Items}
    (h : Loose sect items) (hhead : sect'.head = sect.head)
    (hcell : ∀ position, 32 ≤ position → position < 8192 →
      sect'.file.cell (sect.head.fileOffset + position) =
        sect.file.cell (sect.head.fileOffset + position))
    (hsize : sect.file.size ≤ sect'.file.size) : Loose sect' items := by
  have hbytes : ∀ {offset length}, 32 ≤ offset → offset + length ≤ 8192 →
      sect'.file.bytes (sect.head.fileOffset + offset) length =
        sect.file.bytes (sect.head.fileOffset + offset) length := by
    intro offset length hlow hhigh
    apply Storage.bytes_congr
    intro index hindex hindex'
    have hsplit : index =
        sect.head.fileOffset + (index - sect.head.fileOffset) := by
      omega
    rw [hsplit]
    exact hcell _ (by omega) (by omega)
  have hlip := h.lip_le
  have hfrp := h.frp_le
  constructor
  · simpa [hhead] using h.lip_ge
  · simpa [hhead] using h.lip_le
  · simpa [hhead] using h.frp_le
  · simpa [hhead] using h.aligned
  · simpa [hhead] using h.free
  · intro soff item hitem
    simpa [hhead] using h.slot hitem
  · intro soff item hitem
    have hslot := h.slot hitem
    rw [hhead, hbytes hslot.1 (by omega)]
    exact h.entity hitem
  · intro soff item hitem
    have hstart := item.start_ge
    have hstop : item.start + item.record.length ≤ 8192 := item.stop_le
    rw [hhead, hbytes (by omega) hstop]
    exact h.record hitem
  · intro soff hlow hhigh hmod hnone
    rw [hhead] at hhigh ⊢
    rw [hbytes hlow (by omega)]
    exact h.cleared hlow hhigh hmod hnone
  · intro soff item hitem hne
    simpa [hhead] using h.inside hitem hne
  · exact h.apart
  · intro position hlow hhigh hfree
    rw [hhead] at hlow ⊢
    have hlip' := h.lip_ge
    rw [hcell position (by omega) hhigh]
    exact h.gap hlow hhigh hfree
  · rw [hhead]
    exact h.size_slots.trans hsize
  · intro hlt
    rw [hhead] at hlt ⊢
    exact (h.size_records hlt).trans hsize

theorem Layout.frame {sect sect' : Sect} {items : Items}
    (h : Layout sect items) (hhead : sect'.head = sect.head)
    (hcell : ∀ position, 32 ≤ position → position < 8192 →
      sect'.file.cell (sect.head.fileOffset + position) =
        sect.file.cell (sect.head.fileOffset + position))
    (hsize : sect.file.size ≤ sect'.file.size) : Layout sect' items where
  toLoose := h.toLoose.frame hhead hcell hsize
  border := by simpa [hhead] using h.border
  tight := by simpa [hhead] using h.tight

theorem Loose.synced {sect : Sect} {items : Items}
    (h : Loose sect items) : Loose (sect.withHead sect.head) items :=
  h.frame (Sect.withHead_head sect sect.head)
    (fun _ hposition _ => sect.cell_synced hposition)
    (Storage.size_le_write _ _ _)

theorem Layout.synced {sect : Sect} {items : Items}
    (h : Layout sect items) : Layout (sect.withHead sect.head) items :=
  h.frame (Sect.withHead_head sect sect.head)
    (fun _ hposition _ => sect.cell_synced hposition)
    (Storage.size_le_write _ _ _)

theorem Loose.border_lt {sect : Sect} {items : Items} {soff : ℕ}
    {item : Item} (h : Loose sect items) (hitem : items soff = some item) :
    soff + 80 ≤ 8192 := by
  have hslot := h.slot hitem
  have hlip := h.lip_le
  have hfrp := h.frp_le
  omega

/-! ## Adding an item -/

theorem Layout.insert {sect sect' : Sect} {items : Items} {item : Item}
    (h : Layout sect items)
    (hroom : sect.head.lstItmPtr + 80 + item.record.length ≤
      sect.head.fstRecPtr)
    (hstop : item.stop = sect.head.fstRecPtr)
    (hoffset : sect'.head.fileOffset = sect.head.fileOffset)
    (hlip : sect'.head.lstItmPtr = sect.head.lstItmPtr + 80)
    (hfrp : sect'.head.fstRecPtr = item.start)
    (hfree : sect'.head.freeSpace =
      sect'.head.fstRecPtr - sect'.head.lstItmPtr)
    (hslot : sect'.file.bytes
      (sect.head.fileOffset + sect.head.lstItmPtr) 80 = item.entity.bytes)
    (hrecord : sect'.file.bytes (sect.head.fileOffset + item.start)
      item.record.length = item.record)
    (hkeep : ∀ position, 32 ≤ position → position < 8192 →
      (position < sect.head.lstItmPtr ∨
        sect.head.fstRecPtr ≤ position) →
      sect'.file.cell (sect.head.fileOffset + position) =
        sect.file.cell (sect.head.fileOffset + position))
    (hsize : sect.file.size ≤ sect'.file.size)
    (hslots : sect.head.fileOffset + sect'.head.lstItmPtr ≤
      sect'.file.size)
    (hrecords : item.record ≠ [] →
      sect.head.fileOffset + item.stop ≤ sect'.file.size) :
    Layout sect' (items.insert sect.head.lstItmPtr item) := by
  have hlipGe := h.lip_ge
  have hlipLe := h.lip_le
  have hfrpLe := h.frp_le
  have hspan : item.stop = item.start + item.record.length := rfl
  have hbytes : ∀ {offset length}, 32 ≤ offset → offset + length ≤ 8192 →
      (offset + length ≤ sect.head.lstItmPtr ∨
        sect.head.fstRecPtr ≤ offset) →
      sect'.file.bytes (sect.head.fileOffset + offset) length =
        sect.file.bytes (sect.head.fileOffset + offset) length := by
    intro offset length hlow hhigh hside
    apply Storage.bytes_congr
    intro index hindex hindex'
    have hsplit : index =
        sect.head.fileOffset + (index - sect.head.fileOffset) := by
      omega
    rw [hsplit]
    exact hkeep _ (by omega) (by omega) (by omega)
  have hnew : ∀ {soff item'}, items soff = some item' →
      soff ≠ sect.head.lstItmPtr := by
    intro soff item' hitem'
    have hslot' := h.slot hitem'
    omega
  constructor
  · constructor
    · omega
    · omega
    · omega
    · have haligned := h.aligned
      omega
    · exact hfree
    · intro soff item' hitem'
      rcases Items.insert_eq_some.mp hitem' with ⟨rfl, -⟩ | ⟨-, hold⟩
      · exact ⟨hlipGe, by omega, h.aligned⟩
      · have hslot' := h.slot hold
        exact ⟨hslot'.1, by omega, hslot'.2.2⟩
    · intro soff item' hitem'
      rw [hoffset]
      rcases Items.insert_eq_some.mp hitem' with ⟨rfl, rfl⟩ | ⟨-, hold⟩
      · exact hslot
      · have hslot' := h.slot hold
        rw [hbytes hslot'.1 (by omega) (Or.inl hslot'.2.1)]
        exact h.entity hold
    · intro soff item' hitem'
      rw [hoffset]
      rcases Items.insert_eq_some.mp hitem' with ⟨-, rfl⟩ | ⟨-, hold⟩
      · exact hrecord
      · by_cases hne : item'.record = []
        · simp [hne]
        · have hin := h.inside hold hne
          have hle : item'.start + item'.record.length ≤ 8192 :=
            item'.stop_le
          rw [hbytes (by omega) hle (Or.inr hin)]
          exact h.record hold
    · intro soff hlow hhigh hmod hnone
      have hne : soff ≠ sect.head.lstItmPtr := by
        rintro rfl
        rw [Items.insert_self] at hnone
        cases hnone
      rw [Items.insert_of_ne hne] at hnone
      have haligned := h.aligned
      rw [hoffset, hbytes hlow (by omega) (Or.inl (by omega))]
      exact h.cleared hlow (by omega) hmod hnone
    · intro soff item' hitem' hne
      rcases Items.insert_eq_some.mp hitem' with ⟨-, rfl⟩ | ⟨-, hold⟩
      · exact hfrp.le
      · have hin := h.inside hold hne
        omega
    · intro soff item₁ soff' item₂ hlt h₁ h₂ hne₁ hne₂
      rcases Items.insert_eq_some.mp h₁ with ⟨rfl, rfl⟩ | ⟨-, hold₁⟩
      · rcases Items.insert_eq_some.mp h₂ with ⟨rfl, -⟩ | ⟨-, hold₂⟩
        · exact absurd hlt (lt_irrefl _)
        · have hslot' := h.slot hold₂
          omega
      · rcases Items.insert_eq_some.mp h₂ with ⟨-, rfl⟩ | ⟨-, hold₂⟩
        · have hin := h.inside hold₁ hne₁
          omega
        · exact h.apart hlt hold₁ hold₂ hne₁ hne₂
    · intro position hlow hhigh hfreePosition
      have habove : sect.head.fstRecPtr ≤ position := by
        by_contra hbelow
        exact hfreePosition _ item (Items.insert_self _ _ _)
          ⟨by omega, by omega⟩
      rw [hoffset, hkeep position (by omega) hhigh (Or.inr habove)]
      apply h.gap habove hhigh
      intro soff item' hold
      apply hfreePosition soff item'
      rw [Items.insert_of_ne (hnew hold)]
      exact hold
    · rw [hoffset]
      exact hslots
    · intro hlt
      rw [hoffset]
      by_cases hold : sect.head.fstRecPtr < 8192
      · exact (h.size_records hold).trans hsize
      · have hne : item.record ≠ [] := by
          intro hnil
          rw [hnil, List.length_nil] at hspan
          omega
        have hrecords' := hrecords hne
        omega
  · right
    refine ⟨item, ?_⟩
    rw [hlip, Nat.add_sub_cancel, Items.insert_self]
  · by_cases hne : item.record = []
    · have hsame : sect'.head.fstRecPtr = sect.head.fstRecPtr := by
        rw [hne, List.length_nil] at hspan
        omega
      rcases h.tight with htop | ⟨soff, item', hold, hne', hstart⟩
      · left
        omega
      · right
        refine ⟨soff, item', ?_, hne', by omega⟩
        rw [Items.insert_of_ne (hnew hold)]
        exact hold
    · right
      exact ⟨_, item, Items.insert_self _ _ _, hne, hfrp.symm⟩

theorem Layout.replace {sect sect' : Sect} {items : Items} {soff : ℕ}
    {old new : Item} (h : Layout sect items)
    (hold : items soff = some old)
    (hstart : new.start = old.start) (hrecord : new.record = old.record)
    (hhead : sect'.head = sect.head)
    (hslot : sect'.file.bytes (sect.head.fileOffset + soff) 80 =
      new.entity.bytes)
    (hkeep : ∀ position, 32 ≤ position → position < 8192 →
      (position < soff ∨ soff + 80 ≤ position) →
      sect'.file.cell (sect.head.fileOffset + position) =
        sect.file.cell (sect.head.fileOffset + position))
    (hsize : sect.file.size ≤ sect'.file.size) :
    Layout sect' (items.insert soff new) := by
  have hstop : new.stop = old.stop := by
    have hnew : new.stop = new.start + new.record.length := rfl
    have hold' : old.stop = old.start + old.record.length := rfl
    rw [hnew, hold', hstart, hrecord]
  have hslotOld := h.slot hold
  have hlipLe := h.lip_le
  have hfrpLe := h.frp_le
  have hback : ∀ {soff' item'}, items.insert soff new soff' = some item' →
      ∃ item, items soff' = some item ∧ item.start = item'.start ∧
        item.record = item'.record ∧ item.stop = item'.stop := by
    intro soff' item' hitem'
    rcases Items.insert_eq_some.mp hitem' with ⟨rfl, rfl⟩ | ⟨-, hsame⟩
    · exact ⟨old, hold, hstart.symm, hrecord.symm, hstop.symm⟩
    · exact ⟨item', hsame, rfl, rfl, rfl⟩
  have hforth : ∀ {soff' item}, items soff' = some item →
      ∃ item', items.insert soff new soff' = some item' ∧
        item'.start = item.start ∧ item'.record = item.record ∧
        item'.stop = item.stop := by
    intro soff' item hitem
    by_cases heq : soff' = soff
    · subst soff'
      rw [hold, Option.some.injEq] at hitem
      subst item
      exact ⟨new, Items.insert_self _ _ _, hstart, hrecord, hstop⟩
    · refine ⟨item, ?_, rfl, rfl, rfl⟩
      rw [Items.insert_of_ne heq]
      exact hitem
  have hbytes : ∀ {offset length}, 32 ≤ offset → offset + length ≤ 8192 →
      (offset + length ≤ soff ∨ soff + 80 ≤ offset) →
      sect'.file.bytes (sect.head.fileOffset + offset) length =
        sect.file.bytes (sect.head.fileOffset + offset) length := by
    intro offset length hlow hhigh hside
    apply Storage.bytes_congr
    intro index hindex hindex'
    have hsplit : index =
        sect.head.fileOffset + (index - sect.head.fileOffset) := by
      omega
    rw [hsplit]
    exact hkeep _ (by omega) (by omega) (by omega)
  constructor
  · constructor
    · simpa [hhead] using h.lip_ge
    · simpa [hhead] using h.lip_le
    · simpa [hhead] using h.frp_le
    · simpa [hhead] using h.aligned
    · simpa [hhead] using h.free
    · intro soff' item' hitem'
      obtain ⟨item, hitem, -, -, -⟩ := hback hitem'
      simpa [hhead] using h.slot hitem
    · intro soff' item' hitem'
      rw [hhead]
      rcases Items.insert_eq_some.mp hitem' with ⟨rfl, rfl⟩ | ⟨hne, hsame⟩
      · exact hslot
      · have hslot' := h.slot hsame
        rw [hbytes hslot'.1 (by omega) (by omega)]
        exact h.entity hsame
    · intro soff' item' hitem'
      obtain ⟨item, hitem, hstart', hrecord', -⟩ := hback hitem'
      rw [hhead, ← hstart', ← hrecord']
      by_cases hne : item.record = []
      · simp [hne]
      · have hin := h.inside hitem hne
        have hle : item.start + item.record.length ≤ 8192 := item.stop_le
        rw [hbytes (by omega) hle (Or.inr (by omega))]
        exact h.record hitem
    · intro soff' hlow hhigh hmod hnone
      rw [hhead] at hhigh ⊢
      have hne : soff' ≠ soff := by
        rintro rfl
        rw [Items.insert_self] at hnone
        cases hnone
      rw [Items.insert_of_ne hne] at hnone
      rw [hbytes hlow (by omega) (by omega)]
      exact h.cleared hlow hhigh hmod hnone
    · intro soff' item' hitem' hne
      obtain ⟨item, hitem, hstart', hrecord', -⟩ := hback hitem'
      rw [hhead, ← hstart']
      exact h.inside hitem (by rwa [hrecord'])
    · intro soff₁ item₁ soff₂ item₂ hlt h₁ h₂ hne₁ hne₂
      obtain ⟨item₁', h₁', hstart₁, hrecord₁, -⟩ := hback h₁
      obtain ⟨item₂', h₂', -, hrecord₂, hstop₂⟩ := hback h₂
      rw [← hstart₁, ← hstop₂]
      exact h.apart hlt h₁' h₂' (by rwa [hrecord₁]) (by rwa [hrecord₂])
    · intro position hlow hhigh hfree
      rw [hhead] at hlow ⊢
      rw [hkeep position (by have := h.lip_ge; omega) hhigh
        (Or.inr (by omega))]
      apply h.gap hlow hhigh
      intro soff' item hitem
      obtain ⟨item', hitem', hstart', -, hstop'⟩ := hforth hitem
      rw [← hstart', ← hstop']
      exact hfree soff' item' hitem'
    · rw [hhead]
      exact h.size_slots.trans hsize
    · intro hlt
      rw [hhead] at hlt ⊢
      exact (h.size_records hlt).trans hsize
  · rw [hhead]
    rcases h.border with hnone | ⟨item, hitem⟩
    · exact Or.inl hnone
    · obtain ⟨item', hitem', -⟩ := hforth hitem
      exact Or.inr ⟨item', hitem'⟩
  · rw [hhead]
    rcases h.tight with htop | ⟨soff', item, hitem, hne, hstart'⟩
    · exact Or.inl htop
    · obtain ⟨item', hitem', hstart'', hrecord'', -⟩ := hforth hitem
      exact Or.inr ⟨soff', item', hitem', by rwa [hrecord''],
        hstart''.trans hstart'⟩

end NosqlDbms
