import NosqlDbms.ExtentsCompress
import Mathlib.Tactic

/-!
# Deleting from an extents section

A deletion moves the borders past the last item if that is the one to go,
clears record and slot, and then compresses both borders.
-/

namespace NosqlDbms

/-! ## Clearing an item -/

theorem Layout.clear {sect sect' : Sect} {items : Items} {soff : ℕ}
    {item : Item} (h : Layout sect items) (hitem : items soff = some item)
    (hoffset : sect'.head.fileOffset = sect.head.fileOffset)
    (hborder : (sect'.head.lstItmPtr = sect.head.lstItmPtr ∧
        sect'.head.fstRecPtr = sect.head.fstRecPtr) ∨
      (sect.head.lstItmPtr = soff + 80 ∧ sect'.head.lstItmPtr = soff ∧
        sect'.head.fstRecPtr =
          sect.head.fstRecPtr + item.record.length))
    (hfree : sect'.head.freeSpace =
      sect'.head.fstRecPtr - sect'.head.lstItmPtr)
    (hslot : sect'.file.bytes (sect.head.fileOffset + soff) 80 =
      List.replicate 80 0)
    (hrecord : ∀ position, item.start ≤ position → position < item.stop →
      sect'.file.cell (sect.head.fileOffset + position) = 0)
    (hkeep : ∀ position, 32 ≤ position → position < 8192 →
      (position < soff ∨ soff + 80 ≤ position) →
      (position < item.start ∨ item.stop ≤ position) →
      sect'.file.cell (sect.head.fileOffset + position) =
        sect.file.cell (sect.head.fileOffset + position))
    (hsize : sect.file.size ≤ sect'.file.size) :
    Loose sect' (items.erase soff) := by
  have hlipGe := h.lip_ge
  have hlipLe := h.lip_le
  have hfrpLe := h.frp_le
  have haligned := h.aligned
  have hslotItem := h.slot hitem
  have hspan := item.stop_sub_start
  have hstopLe := item.stop_le
  simp only [SECTION_SIZE] at hstopLe
  have hinItem := h.inside hitem
  have hnil : ¬ item.record = [] → 0 < item.record.length :=
    List.length_pos_of_ne_nil
  -- The last slot owns the lowest record, if it owns one at all.
  have hlast : sect.head.lstItmPtr = soff + 80 → item.record ≠ [] →
      item.start = sect.head.fstRecPtr := by
    intro hlip hne
    have hin := hinItem hne
    have hpos := hnil hne
    rcases h.tight with htop | ⟨soff', item', hitem', hne', hstart'⟩
    · omega
    · have hslot' := h.slot hitem'
      rcases Nat.lt_or_ge soff' soff with hlt | hge
      · have hapart := h.apart hlt hitem' hitem hne' hne
        omega
      · have heq : soff' = soff := by omega
        subst soff'
        rw [hitem, Option.some.injEq] at hitem'
        subst item'
        exact hstart'
  have hfrp : sect.head.fstRecPtr ≤ sect'.head.fstRecPtr := by omega
  have hfrpLe' : sect'.head.fstRecPtr ≤ 8192 := by
    by_cases hne : item.record = []
    · rw [hne, List.length_nil] at hborder
      omega
    · have hin := hinItem hne
      rcases hborder with ⟨-, hsame⟩ | ⟨hlip, -, hmoved⟩
      · omega
      · have hstart := hlast hlip hne
        omega
  have hlipLe' : sect'.head.lstItmPtr ≤ sect'.head.fstRecPtr := by
    omega
  have hbytes : ∀ {offset length}, 32 ≤ offset → offset + length ≤ 8192 →
      (offset + length ≤ soff ∨ soff + 80 ≤ offset) →
      (offset + length ≤ item.start ∨ item.stop ≤ offset ∨
        item.stop = item.start) →
      sect'.file.bytes (sect.head.fileOffset + offset) length =
        sect.file.bytes (sect.head.fileOffset + offset) length := by
    intro offset length hlow hhigh hslot' hrecord'
    apply Storage.bytes_congr
    intro index hindex hindex'
    have hsplit : index =
        sect.head.fileOffset + (index - sect.head.fileOffset) := by
      omega
    rw [hsplit]
    exact hkeep _ (by omega) (by omega) (by omega) (by omega)
  have hbelow : sect.head.lstItmPtr ≤ item.start ∨
      item.stop = item.start := by
    by_cases hne : item.record = []
    · right
      rw [hspan, hne, List.length_nil, Nat.add_zero]
    · left
      have hin := hinItem hne
      omega
  constructor
  · omega
  · exact hlipLe'
  · exact hfrpLe'
  · omega
  · exact hfree
  · intro soff' item' hitem'
    obtain ⟨hne, hold⟩ := Items.erase_eq_some.mp hitem'
    have hslot' := h.slot hold
    refine ⟨hslot'.1, ?_, hslot'.2.2⟩
    omega
  · intro soff' item' hitem'
    obtain ⟨hne, hold⟩ := Items.erase_eq_some.mp hitem'
    have hslot' := h.slot hold
    rw [hoffset, hbytes hslot'.1 (by omega) (by omega) (by omega)]
    exact h.entity hold
  · intro soff' item' hitem'
    obtain ⟨hne, hold⟩ := Items.erase_eq_some.mp hitem'
    rw [hoffset]
    by_cases hne' : item'.record = []
    · simp [hne']
    · have hin := h.inside hold hne'
      have hle : item'.start + item'.record.length ≤ 8192 :=
        item'.stop_le
      have hspan' := item'.stop_sub_start
      have hdisjoint : item'.start + item'.record.length ≤ item.start ∨
          item.stop ≤ item'.start ∨ item.stop = item.start := by
        by_cases hempty : item.record = []
        · rw [hempty, List.length_nil] at hspan
          omega
        · rcases Nat.lt_or_gt_of_ne hne with hlt | hgt
          · have hapart := h.apart hlt hold hitem hne' hempty
            omega
          · have hapart := h.apart hgt hitem hold hempty hne'
            omega
      rw [hbytes (by omega) hle (by omega) hdisjoint]
      exact h.record hold
  · intro soff' hlow hhigh hmod hnone
    rw [hoffset]
    by_cases hsame : soff' = soff
    · rw [hsame]
      exact hslot
    · rw [Items.erase_of_ne hsame] at hnone
      rw [hbytes hlow (by omega) (by omega) (by omega)]
      exact h.cleared hlow (by omega) hmod hnone
  · intro soff' item' hitem' hne'
    obtain ⟨hne, hold⟩ := Items.erase_eq_some.mp hitem'
    have hin := h.inside hold hne'
    rcases hborder with ⟨-, hsame⟩ | ⟨hlip, -, hmoved⟩
    · omega
    · by_cases hempty : item.record = []
      · rw [hempty, List.length_nil] at hmoved
        omega
      · have hslot' := h.slot hold
        have hapart := h.apart (by omega) hold hitem hne' hempty
        have hstart := hlast hlip hempty
        omega
  · intro soff₁ item₁ soff₂ item₂ hlt h₁ h₂ hne₁ hne₂
    exact h.apart hlt (Items.erase_eq_some.mp h₁).2
      (Items.erase_eq_some.mp h₂).2 hne₁ hne₂
  · intro position hlow hhigh hout
    rw [hoffset]
    by_cases hin : item.start ≤ position ∧ position < item.stop
    · exact hrecord position hin.1 hin.2
    · rw [hkeep position (by omega) hhigh (by omega) (by omega)]
      apply h.gap (by omega) hhigh
      intro soff' item' hold
      by_cases hsame : soff' = soff
      · subst soff'
        rw [hitem, Option.some.injEq] at hold
        subst item'
        exact hin
      · exact hout soff' item' (by rwa [Items.erase_of_ne hsame])
  · rw [hoffset]
    have hsizeSlots := h.size_slots
    omega
  · intro hlt
    rw [hoffset]
    exact (h.size_records (by omega)).trans hsize

/-! ## Deleting a slot -/

theorem sectHeadShiftLip_neg {sect : Sect} {size : ℕ}
    (hlip : size ≤ sect.head.lstItmPtr)
    (hlipLt : sect.head.lstItmPtr < 2 ^ 64)
    (hfree : sect.head.freeSpace + size < 2 ^ 64) :
    sectHeadShiftLip (sizeNeg size) sect =
      .ok () (sect.withHead { sect.head with
        freeSpace := sect.head.freeSpace + size
        lstItmPtr := sect.head.lstItmPtr - size }) := by
  rw [← sizeAdd_sizeNeg hlip hlipLt, ← sizeSub_sizeNeg hfree]
  rfl

theorem sectHeadShiftFrp_of_lt {sect : Sect} {size : ℕ}
    (hfrp : sect.head.fstRecPtr + size < 2 ^ 64)
    (hfree : sect.head.freeSpace + size < 2 ^ 64) :
    sectHeadShiftFrp size sect =
      .ok () (sect.withHead { sect.head with
        freeSpace := sect.head.freeSpace + size
        fstRecPtr := sect.head.fstRecPtr + size }) := by
  rw [← sizeAdd_of_lt hfrp, ← sizeAdd_of_lt hfree]
  rfl

theorem sectExtShiftLast_spec {sect : Sect} {items : Items} {soff : ℕ}
    {entity : Entity} {recSz : ℕ} (h : Held sect items)
    (hlow : 32 ≤ soff) (hhigh : soff + 80 ≤ sect.head.lstItmPtr)
    (hentity : entityRecSz entity = recSz) (hrecSz : recSz ≤ 8192) :
    ∃ sect', sectExtShiftLast soff entity sect = .ok () sect' ∧
      sect'.head.fileOffset = sect.head.fileOffset ∧
      ((sect'.head.lstItmPtr = sect.head.lstItmPtr ∧
          sect'.head.fstRecPtr = sect.head.fstRecPtr) ∨
        (sect.head.lstItmPtr = soff + 80 ∧ sect'.head.lstItmPtr = soff ∧
          sect'.head.fstRecPtr = sect.head.fstRecPtr + recSz)) ∧
      sect'.head.freeSpace =
        sect'.head.fstRecPtr - sect'.head.lstItmPtr ∧
      (∀ position, 32 ≤ position →
        sect'.file.cell (sect.head.fileOffset + position) =
          sect.file.cell (sect.head.fileOffset + position)) ∧
      sect.file.size ≤ sect'.file.size ∧
      ∀ reads, sect.Within sect' reads := by
  have hlipLe := h.lip_le
  have hfrpLe := h.frp_le
  have hfree := h.free
  have hadd : sizeAdd soff sizeofEntity = soff + 80 :=
    sizeAdd_of_lt (by simp only [sizeofEntity]; omega)
  rw [sectExtShiftLast, Prog.bind_apply, Sect.getHead_apply]
  simp only [hadd, hentity]
  by_cases hlast : soff + 80 = sect.head.lstItmPtr
  · rw [if_pos hlast]
    obtain ⟨lip, hlip⟩ : ∃ lip, lip = sect.withHead { sect.head with
        freeSpace := sect.head.freeSpace + 80
        lstItmPtr := sect.head.lstItmPtr - 80 } := ⟨_, rfl⟩
    have hshift : sectHeadShiftLip (sizeNeg sizeofEntity) sect =
        .ok () lip := by
      rw [hlip]
      exact sectHeadShiftLip_neg (by simp only [sizeofEntity]; omega)
        (by omega) (by simp only [sizeofEntity]; omega)
    have hfreeLip : lip.head.freeSpace = sect.head.freeSpace + 80 := by
      rw [hlip, Sect.withHead_head]
    have hlipLip : lip.head.lstItmPtr = sect.head.lstItmPtr - 80 := by
      rw [hlip, Sect.withHead_head]
    have hfrpLip : lip.head.fstRecPtr = sect.head.fstRecPtr := by
      rw [hlip, Sect.withHead_head]
    have hoffLip : lip.head.fileOffset = sect.head.fileOffset := by
      rw [hlip, Sect.withHead_head]
    obtain ⟨frp, hfrp⟩ : ∃ frp, frp = lip.withHead { lip.head with
        freeSpace := lip.head.freeSpace + recSz
        fstRecPtr := lip.head.fstRecPtr + recSz } := ⟨_, rfl⟩
    have hshift' : sectHeadShiftFrp recSz lip = .ok () frp := by
      rw [hfrp]
      exact sectHeadShiftFrp_of_lt (by omega) (by omega)
    refine ⟨frp, ?_, ?_, Or.inr ⟨hlast.symm, ?_, ?_⟩, ?_, ?_, ?_, ?_⟩
    · rw [Prog.bind_of_ok hshift, hshift']
    · rw [hfrp, Sect.withHead_head, hoffLip]
    · rw [hfrp, Sect.withHead_head, hlipLip]
      omega
    · rw [hfrp, Sect.withHead_head, hfrpLip]
    · rw [hfrp, Sect.withHead_head]
      simp only
      rw [hfreeLip, hlipLip, hfrpLip]
      omega
    · intro position hposition
      rw [hfrp, Sect.withHead_file, Storage.cell_write_of_out, hlip,
        Sect.withHead_file, Storage.cell_write_of_out]
      · right
        rw [SectHead.length_bytes]
        simp only [sizeofSectHeadEntity]
        omega
      · right
        rw [SectHead.length_bytes]
        simp only [sizeofSectHeadEntity]
        omega
    · rw [hfrp, Sect.withHead_file, hlip, Sect.withHead_file]
      exact (Storage.size_le_write _ _ _).trans
        (Storage.size_le_write _ _ _)
    · intro reads
      have hfirst : sect.Within lip reads := by
        rw [hlip]
        exact .sync rfl
      have hsecond : lip.Within frp reads := by
        rw [hfrp]
        exact .sync rfl
      exact hfirst.trans_moved hoffLip hsecond
  · rw [if_neg hlast]
    exact ⟨sect, rfl, rfl, Or.inl ⟨rfl, rfl⟩, hfree, fun _ _ => rfl, le_rfl,
      fun _ => Storage.Within.refl⟩

theorem Storage.cell_put_zeros (file : Storage) {offset length index : ℕ}
    (hlow : offset ≤ index) (hhigh : index < offset + length) :
    (file.put offset (List.replicate length 0)).cell index = 0 := by
  have hne : List.replicate length (0 : Byte) ≠ [] := by
    intro hnil
    have hlength := congrArg List.length hnil
    rw [List.length_replicate, List.length_nil] at hlength
    omega
  rw [Storage.put, if_neg hne]
  obtain ⟨rest, rfl⟩ := Nat.exists_eq_add_of_le hlow
  have hrest : rest < (List.replicate length (0 : Byte)).length := by
    rw [List.length_replicate]
    omega
  rw [Storage.cell_write_of_in hrest, List.getElem_replicate]

/-- Slot and record are zero and the borders are not compressed yet. -/
structure Sect.Wiped (sect wiped : Sect) (soff : ℕ) (item : Item) : Prop where
  fileOffset : wiped.head.fileOffset = sect.head.fileOffset
  border : (wiped.head.lstItmPtr = sect.head.lstItmPtr ∧
      wiped.head.fstRecPtr = sect.head.fstRecPtr) ∨
    (sect.head.lstItmPtr = soff + 80 ∧ wiped.head.lstItmPtr = soff ∧
      wiped.head.fstRecPtr = sect.head.fstRecPtr + item.record.length)
  slot : wiped.file.bytes (sect.head.fileOffset + soff) 80 =
    List.replicate 80 0
  record : ∀ position, item.start ≤ position → position < item.stop →
    wiped.file.cell (sect.head.fileOffset + position) = 0
  keep : ∀ position, 32 ≤ position →
    (position < soff ∨ soff + 80 ≤ position) →
    (position < item.start ∨ item.stop ≤ position) →
    wiped.file.cell (sect.head.fileOffset + position) =
      sect.file.cell (sect.head.fileOffset + position)
  within : ∀ reads, sect.Within wiped reads

theorem Item.sizeSub_keyPtr (item : Item) :
    sizeSub item.entity.keyPtr item.entity.valSize = item.start := by
  have hkeyPtr := item.keyPtr_eq
  have hkeyLe := item.keyPtr_le
  simp only [SECTION_SIZE] at hkeyLe
  rw [sizeSub_of_le (by omega) (by omega), hkeyPtr, Item.start]
  omega

theorem Held.wipe {sect : Sect} {items : Items} {soff : ℕ} {item : Item}
    (h : Held sect items) (hitem : items soff = some item) :
    ∃ wiped, sect.Wiped wiped soff item ∧
      wiped.head.freeSpace =
        wiped.head.fstRecPtr - wiped.head.lstItmPtr ∧
      sect.file.size ≤ wiped.file.size ∧
      ∀ {lip frp}, sectHeadCmprsLip 80 wiped = .ok () lip →
        sectHeadCmprsFrp lip = .ok () frp →
        sectExtDelete soff sect =
          .ok item.entity (frp.withHead frp.head) := by
  have hslot := h.slot hitem
  have hlipLe := h.lip_le
  have hfrpLe := h.frp_le
  have hspan := item.stop_sub_start
  have hstart := item.start_ge
  have hstop := item.stop_le
  simp only [SECTION_SIZE] at hstop
  have hrecSz := item.recSz
  obtain ⟨read, hrdItm, hquiet, hwithinRead⟩ := h.rdItm hitem
  obtain ⟨moved, hmove, hoffset, hborder, hfree, hcell, hsize, hwithin⟩ :=
    sectExtShiftLast_spec (h.quiet hquiet) hslot.1
      (by rw [hquiet.head]; exact hslot.2.1) hrecSz (by omega)
  rw [hquiet.head] at hoffset hborder
  obtain ⟨zeros, hzeros⟩ : ∃ zeros : List Byte,
      zeros = List.replicate (entityRecSz item.entity) 0 := ⟨_, rfl⟩
  have hzerosLength : zeros.length = item.record.length := by
    rw [hzeros, List.length_replicate, hrecSz]
  have hzerosCell : ∀ file : Storage, ∀ {offset index : ℕ},
      offset ≤ index → index < offset + item.record.length →
      (file.put offset zeros).cell index = 0 := by
    intro file offset index hlow hhigh
    rw [hzeros, hrecSz]
    exact Storage.cell_put_zeros file hlow hhigh
  have hclearLength : entityClear.bytes.length = 80 :=
    entityClear.length_bytes
  obtain ⟨wiped, hwiped⟩ : ∃ wiped,
      wiped = moved.putAt item.start zeros := ⟨_, rfl⟩
  have hwipe : sectHeadWrite (sizeSub item.entity.keyPtr
      item.entity.valSize) zeros moved = .ok () wiped := by
    rw [item.sizeSub_keyPtr, hwiped]
    exact sectHeadWrite_of_lt _ (by omega)
  obtain ⟨cleared, hcleared⟩ : ∃ cleared,
      cleared = wiped.putAt soff entityClear.bytes := ⟨_, rfl⟩
  have hclear : sectExtWrtItm soff entityClear wiped =
      .ok () cleared := by
    rw [hcleared]
    exact sectHeadWrite_of_lt _ (by omega)
  have hfileCleared : cleared.file =
      (moved.file.put (sect.head.fileOffset + item.start) zeros).put
        (sect.head.fileOffset + soff) entityClear.bytes := by
    rw [hcleared, hwiped, Sect.putAt_file, Sect.putAt_head,
      Sect.putAt_file, hoffset]
  have hheadCleared : cleared.head = moved.head := by
    rw [hcleared, hwiped, Sect.putAt_head, Sect.putAt_head]
  have hdisjoint : item.record.length = 0 ∨ soff + 80 ≤ item.start := by
    by_cases hne : item.record = []
    · left
      rw [hne, List.length_nil]
    · right
      have hin := h.inside hitem hne
      omega
  refine ⟨cleared, ⟨?_, ?_, ?_, ?_, ?_, ?_⟩, ?_, ?_, ?_⟩
  · rw [hheadCleared, hoffset]
  · rw [hheadCleared]
    exact hborder
  · rw [hfileCleared, ← hclearLength, Storage.bytes_put_same, hclearLength]
    exact Entity.bytes_entityClear
  · intro position hlow hhigh
    rw [hfileCleared, Storage.cell_put_of_out (by omega)]
    exact hzerosCell moved.file (by omega) (by omega)
  · intro position hlow hslot' hrecord'
    rw [hfileCleared, Storage.cell_put_of_out (by omega),
      Storage.cell_put_of_out (by omega), ← hquiet.head,
      hcell position hlow, hquiet.cell, hquiet.head]
  · intro reads
    have hwithinMoved : sect.Within moved reads :=
      (hwithinRead reads).trans hquiet.head (hwithin reads)
    refine Storage.Within.trans hwithinMoved ?_
    rw [hfileCleared]
    refine Storage.Within.trans (Storage.Within.put ?_ ?_)
      (Storage.Within.put ?_ ?_) <;> omega
  · rw [hheadCleared]
    exact hfree
  · rw [hfileCleared, ← hquiet.size]
    exact (hsize.trans (Storage.size_le_put _ _ _)).trans
      (Storage.size_le_put _ _ _)
  · intro lip frp hcmprsLip hcmprsFrp
    rw [hzeros] at hwipe
    have hcmprs : sectHeadCmprsLip sizeofEntity cleared = .ok () lip :=
      hcmprsLip
    rw [sectExtDelete, Prog.bind_of_ok hrdItm, Prog.bind_of_ok hmove,
      Prog.bind_of_ok hwipe, Prog.bind_of_ok hclear,
      Prog.bind_of_ok hcmprs, Prog.bind_of_ok hcmprsFrp,
      Prog.bind_of_ok (sectHeadSync_apply frp), Prog.pure_apply]

theorem Layout.wipe {sect : Sect} {items : Items} {soff : ℕ} {item : Item}
    (h : Layout sect items) (hitem : items soff = some item) :
    ∃ wiped, Loose wiped (items.erase soff) ∧
      sect.Wiped wiped soff item ∧
      ∀ {lip frp}, sectHeadCmprsLip 80 wiped = .ok () lip →
        sectHeadCmprsFrp lip = .ok () frp →
        sectExtDelete soff sect =
          .ok item.entity (frp.withHead frp.head) := by
  obtain ⟨wiped, hwiped, hfree, hsize, hdelete⟩ :=
    h.toLoose.held.wipe hitem
  refine ⟨wiped, ?_, hwiped, hdelete⟩
  exact h.clear hitem hwiped.fileOffset hwiped.border hfree hwiped.slot
    hwiped.record (fun position hlow _ => hwiped.keep position hlow) hsize

/-- Deleting a live slot removes its item, provided the lowest record that is
left does not begin with a zero. -/
theorem Layout.delete {sect : Sect} {items : Items} {soff : ℕ} {item : Item}
    (h : Layout sect items) (hitem : items soff = some item)
    (hsafe : (items.erase soff).BorderSafe) :
    ∃ sect', sectExtDelete soff sect = .ok item.entity sect' ∧
      Layout sect' (items.erase soff) ∧
      sect'.head.fileOffset = sect.head.fileOffset ∧
      ∀ reads : Prop, (reads → (items.erase soff).HasRecord) →
        sect.Within sect' reads := by
  obtain ⟨wiped, hloose, hwiped, hdelete⟩ := h.wipe hitem
  obtain ⟨lip, frp, hcmprsLip, hcmprsFrp, hlayout, hoffset, hin⟩ :=
    hloose.compress hsafe
  have hoffset' : frp.head.fileOffset = sect.head.fileOffset := by
    rw [hoffset, hwiped.fileOffset]
  refine ⟨frp.withHead frp.head, hdelete hcmprsLip hcmprsFrp,
    hlayout.synced, hoffset', ?_⟩
  intro reads hreads
  exact ((hwiped.within reads).trans_moved hwiped.fileOffset
    (hin reads hreads)).trans_moved hoffset' (.sync rfl)

theorem Sect.Within.putAt {sect : Sect} {soff : ℕ} {data : List Byte}
    {reads : Prop} (hfit : soff + data.length ≤ 8192) :
    sect.Within (sect.putAt soff data) reads := by
  unfold Sect.Within
  rw [Sect.putAt_file]
  apply Storage.Within.put <;> omega

end NosqlDbms
