import NosqlDbms.ExtentsUpdate
import Mathlib.Tactic

/-!
# Refused updates

An update that returns `FAILED` on a section filled by writes has changed
nothing, but for one case: an inner record is deleted to be moved, and then the
write is refused, because it asks for the size of a slot on top of what the
update had asked for.
-/

namespace NosqlDbms

/-! ## The scan without a condition -/

/-- The first position from `position` on with a cell that is not zero, at
most `fuel` positions further. -/
def nextNonzero (cell : ℕ → Byte) : ℕ → ℕ → ℕ
  | 0, position => position
  | fuel + 1, position =>
      if cell position = 0 then nextNonzero cell fuel (position + 1)
      else position

theorem le_nextNonzero (cell : ℕ → Byte) (fuel position : ℕ) :
    position ≤ nextNonzero cell fuel position := by
  induction fuel generalizing position with
  | zero => exact le_rfl
  | succ fuel ih =>
      rw [nextNonzero]
      split
      · exact (Nat.le_succ position).trans (ih (position + 1))
      · exact le_rfl

theorem nextNonzero_le (cell : ℕ → Byte) (fuel position : ℕ) :
    nextNonzero cell fuel position ≤ position + fuel := by
  induction fuel generalizing position with
  | zero => exact le_rfl
  | succ fuel ih =>
      rw [nextNonzero]
      split
      · have hle := ih (position + 1)
        omega
      · omega

theorem nextNonzero_congr {cell cell' : ℕ → Byte} {fuel position : ℕ}
    (hcell : ∀ index, position ≤ index → index < position + fuel →
      cell index = cell' index) :
    nextNonzero cell fuel position = nextNonzero cell' fuel position := by
  induction fuel generalizing position with
  | zero => rfl
  | succ fuel ih =>
      rw [nextNonzero, nextNonzero, hcell position le_rfl (by omega),
        ih (fun index hlow hhigh => hcell index (by omega) (by omega))]

/-- Where `sect_head_cmprs_frp` moves the record border. -/
def Sect.scanStop (sect : Sect) : ℕ :=
  nextNonzero (fun position =>
    sect.file.cell (sect.head.fileOffset + position))
    (8192 - sect.head.fstRecPtr) sect.head.fstRecPtr

theorem cmprsFrpLoop_scan (fuel : ℕ) {sect : Sect} (chr : Option Byte)
    (hle : sect.head.fstRecPtr ≤ 8192)
    (hfree : sect.head.freeSpace ≤ sect.head.fstRecPtr)
    (hsize : sect.head.fstRecPtr < 8192 →
      sect.head.fileOffset + 8192 ≤ sect.file.size)
    (hfuel : 8192 < sect.head.fstRecPtr + fuel) :
    ∃ sect', cmprsFrpLoop fuel chr sect = .ok () sect' ∧
      sect.Moved sect' ∧
      sect'.head.lstItmPtr = sect.head.lstItmPtr ∧
      sect'.head.fstRecPtr = sect.scanStop ∧
      sect'.head.freeSpace + sect.head.fstRecPtr =
        sect.head.freeSpace + sect'.head.fstRecPtr := by
  induction fuel generalizing sect chr with
  | zero => omega
  | succ fuel ih =>
      by_cases htop : sect.head.fstRecPtr = 8192
      · obtain ⟨data, sect', hread, hquiet, -⟩ :=
          sectHeadRead_status sect.head.fstRecPtr 1 sect
        refine ⟨sect', cmprsFrpLoop_top htop hread, .of_quiet hquiet,
          by rw [hquiet.head], ?_, by rw [hquiet.head]⟩
        rw [hquiet.head, Sect.scanStop, htop]
        rfl
      · have hlt : sect.head.fstRecPtr < 8192 := by omega
        have hend := hsize hlt
        obtain ⟨sect₁, hread, hquiet, -⟩ :=
          sectHeadRead_quiet sect sect.head.fstRecPtr 1 (by omega)
            (fun _ => by omega)
        have hread' := Prog.status_of_ok hread
        rw [Storage.bytes_one] at hread'
        obtain ⟨rest, hrest⟩ : ∃ rest,
            8192 - sect.head.fstRecPtr = rest + 1 :=
          ⟨8192 - sect.head.fstRecPtr - 1, by omega⟩
        by_cases hzero : sect.file.cell
            (sect.head.fileOffset + sect.head.fstRecPtr) = 0
        · rw [hzero] at hread'
          obtain ⟨next, hnext⟩ : ∃ next : Sect, next =
              { sect₁ with head := { sect.head with
                  fstRecPtr := sizeAdd sect.head.fstRecPtr 1
                  freeSpace := sizeAdd sect.head.freeSpace 1 } } :=
            ⟨_, rfl⟩
          have hmoved : sect.Moved next := by
            rw [hnext]
            exact ⟨rfl, rfl, hquiet.cell, hquiet.size⟩
          have hfrp : next.head.fstRecPtr = sect.head.fstRecPtr + 1 := by
            rw [hnext]
            exact sizeAdd_of_lt (by omega)
          have hfree' : next.head.freeSpace = sect.head.freeSpace + 1 := by
            rw [hnext]
            exact sizeAdd_of_lt (by omega)
          have hlip : next.head.lstItmPtr = sect.head.lstItmPtr := by
            rw [hnext]
          have hstop : next.scanStop = sect.scanStop := by
            rw [Sect.scanStop, Sect.scanStop, hrest, nextNonzero,
              if_pos hzero, hmoved.cell, hmoved.fileOffset, hfrp]
            congr 1
            omega
          obtain ⟨sect', hloop, hmoved', hlip', hfrp', hsum⟩ :=
            @ih next (some 0) (by omega) (by omega)
              (fun _ => by rw [hmoved.fileOffset, hmoved.size]; exact hend)
              (by omega)
          refine ⟨sect', ?_, hmoved.trans hmoved', hlip'.trans hlip,
            hfrp'.trans hstop, by omega⟩
          rw [cmprsFrpLoop_zero htop hread' hnext]
          exact hloop
        · refine ⟨sect₁, cmprsFrpLoop_record hread' hzero,
            .of_quiet hquiet, by rw [hquiet.head], ?_,
            by rw [hquiet.head]⟩
          rw [hquiet.head, Sect.scanStop, hrest, nextNonzero,
            if_neg hzero]

theorem sectHeadCmprsLip_live {sect : Sect} {item : Item}
    (hge : 112 ≤ sect.head.lstItmPtr) (hle : sect.head.lstItmPtr ≤ 8192)
    (hsize : sect.head.fileOffset + sect.head.lstItmPtr ≤ sect.file.size)
    (hbytes : sect.file.bytes
      (sect.head.fileOffset + (sect.head.lstItmPtr - 80)) 80 =
        item.entity.bytes) :
    ∃ read, sectHeadCmprsLip 80 sect = .ok () (read.withHead read.head) ∧
      sect.Quiet read := by
  have hsub : sizeSub sect.head.lstItmPtr 80 =
      sect.head.lstItmPtr - 80 := sizeSub_of_le (by omega) (by omega)
  obtain ⟨read, hread, hquiet, -⟩ :=
    sectHeadRead_quiet sect (sect.head.lstItmPtr - 80) 80
      (by omega) (fun _ => by omega)
  rw [hbytes, ← hsub] at hread
  exact ⟨read, sectHeadCmprsLip_of_loop (Prog.status_of_ok hread)
    (cmprsLipLoop_live item.isZeroed_bytes), hquiet⟩

instance (entity : Entity) (position : ℕ) :
    Decidable (entity.Covers position) :=
  inferInstanceAs (Decidable (_ ∧ _))

/-- Where the scan stops once the record of the slot is zero. -/
def Sect.scanStopWithout (sect : Sect) (soff : ℕ) : ℕ :=
  nextNonzero (fun position =>
    if (sect.entityAt soff).Covers position then 0
    else sect.file.cell (sect.head.fileOffset + position))
    (8192 - sect.head.fstRecPtr) sect.head.fstRecPtr

theorem Sect.scanStopWithout_ge (sect : Sect) (soff : ℕ) :
    sect.head.fstRecPtr ≤ sect.scanStopWithout soff :=
  le_nextNonzero _ _ _

theorem Sect.scanStopWithout_le {sect : Sect} (soff : ℕ)
    (hfrp : sect.head.fstRecPtr ≤ 8192) :
    sect.scanStopWithout soff ≤ 8192 := by
  have hle := nextNonzero_le (fun position =>
    if (sect.entityAt soff).Covers position then 0
    else sect.file.cell (sect.head.fileOffset + position))
    (8192 - sect.head.fstRecPtr) sect.head.fstRecPtr
  rw [Sect.scanStopWithout]
  omega

/-- Deleting an item that is not the last one clears it and moves the record
border to where the scan stops. -/
theorem Held.delete_inner {sect : Sect} {items : Items} {soff : ℕ}
    {item last : Item} (h : Held sect items)
    (hitem : items soff = some item)
    (hlast : items (sect.head.lstItmPtr - 80) = some last)
    (hnotLast : soff + 80 ≠ sect.head.lstItmPtr) :
    ∃ wiped sect', sectExtDelete soff sect = .ok item.entity sect' ∧
      sect.Wiped wiped soff item ∧
      sect'.head.fileOffset = sect.head.fileOffset ∧
      sect'.head.lstItmPtr = sect.head.lstItmPtr ∧
      sect'.head.fstRecPtr = sect.scanStopWithout soff ∧
      sect'.head.freeSpace + sect.head.fstRecPtr =
        sect.head.freeSpace + sect'.head.fstRecPtr ∧
      (∀ position, 32 ≤ position →
        sect'.file.cell (sect.head.fileOffset + position) =
          wiped.file.cell (sect.head.fileOffset + position)) ∧
      sect.file.size ≤ sect'.file.size := by
  have hslot := h.slot hitem
  have hslotLast := h.slot hlast
  have hlipGe := h.lip_ge
  have hlipLe := h.lip_le
  have hfrpLe := h.frp_le
  have hfree := h.free
  obtain ⟨wiped, hwiped, hfreeWiped, hsize, hdelete⟩ := h.wipe hitem
  have hborder : wiped.head.lstItmPtr = sect.head.lstItmPtr ∧
      wiped.head.fstRecPtr = sect.head.fstRecPtr := by
    rcases hwiped.border with hsame | ⟨hmoved, -⟩
    · exact hsame
    · omega
  have hslots := h.size_slots
  have hrecords := h.size_records
  have hbytes : wiped.file.bytes
      (wiped.head.fileOffset + (wiped.head.lstItmPtr - 80)) 80 =
        last.entity.bytes := by
    rw [hwiped.fileOffset, hborder.1, ← h.entity hlast]
    apply Storage.bytes_congr
    intro index hlow hhigh
    have hsplit : index =
        sect.head.fileOffset + (index - sect.head.fileOffset) := by
      omega
    have haligned := h.aligned
    have hspan := item.stop_sub_start
    rw [hsplit]
    apply hwiped.keep _ (by omega) (by omega)
    by_cases hne : item.record = []
    · rw [hspan, hne, List.length_nil]
      omega
    · have hin := h.inside hitem hne
      omega
  obtain ⟨read, hcmprsLip, hquiet⟩ := @sectHeadCmprsLip_live wiped last
    (by omega) (by omega)
    (by rw [hwiped.fileOffset, hborder.1]; exact hslots.trans hsize) hbytes
  obtain ⟨synced, hsynced⟩ : ∃ synced, synced = read.withHead read.head :=
    ⟨_, rfl⟩
  rw [← hsynced] at hcmprsLip
  have hheadSynced : synced.head = wiped.head := by
    rw [hsynced, Sect.withHead_head, hquiet.head]
  have hcellSynced : ∀ position, 32 ≤ position →
      synced.file.cell (sect.head.fileOffset + position) =
        wiped.file.cell (sect.head.fileOffset + position) := by
    intro position hposition
    rw [hsynced, Sect.withHead_file, hquiet.head, hwiped.fileOffset,
      Storage.cell_write_of_out, hquiet.cell]
    right
    rw [SectHead.length_bytes]
    simp only [sizeofSectHeadEntity]
    omega
  have hsizeSynced : wiped.file.size ≤ synced.file.size := by
    rw [hsynced, Sect.withHead_file, ← hquiet.size]
    exact Storage.size_le_write _ _ _
  obtain ⟨frp, hscan, hmoved, hlip, hfrp, hsum⟩ :=
    @cmprsFrpLoop_scan (sizeSub SECTION_SIZE synced.head.fstRecPtr + 1)
      synced none
      (by rw [hheadSynced, hborder.2]; exact hfrpLe)
      (by rw [hheadSynced, hfreeWiped]; omega)
      (by
        rw [hheadSynced, hborder.2, hwiped.fileOffset]
        intro hlt
        exact ((hrecords hlt).trans hsize).trans hsizeSynced)
      (by
        have hsub : sizeSub SECTION_SIZE sect.head.fstRecPtr =
            8192 - sect.head.fstRecPtr :=
          sizeSub_of_le hfrpLe (by simp only [SECTION_SIZE]; omega)
        rw [hheadSynced, hborder.2, hsub]
        omega)
  have hcmprsFrp : sectHeadCmprsFrp synced =
      .ok () (frp.withHead frp.head) := by
    rw [sectHeadCmprsFrp, Prog.bind_of_ok (Sect.getHead_apply _),
      Prog.bind_of_ok hscan, sectHeadSync_apply]
  have hoffset : frp.head.fileOffset = sect.head.fileOffset := by
    rw [hmoved.fileOffset, hheadSynced, hwiped.fileOffset]
  have hkeep : ∀ position, 32 ≤ position →
      ((frp.withHead frp.head).withHead frp.head).file.cell
          (sect.head.fileOffset + position) =
        wiped.file.cell (sect.head.fileOffset + position) := by
    intro position hposition
    have hlength := frp.head.length_bytes
    simp only [sizeofSectHeadEntity] at hlength
    rw [Sect.withHead_file, Storage.cell_write_of_out (by omega),
      Sect.withHead_file, Storage.cell_write_of_out (by omega),
      hmoved.cell]
    exact hcellSynced position hposition
  refine ⟨wiped, _, hdelete hcmprsLip hcmprsFrp, hwiped, ?_, ?_, ?_, ?_,
    ?_, ?_⟩
  · rw [Sect.withHead_head, Sect.withHead_head, hoffset]
  · rw [Sect.withHead_head, Sect.withHead_head, hlip, hheadSynced,
      hborder.1]
  · rw [Sect.withHead_head, Sect.withHead_head, hfrp, Sect.scanStop,
      Sect.scanStopWithout, hheadSynced, hborder.2, hwiped.fileOffset]
    apply nextNonzero_congr
    intro index hlow hhigh
    rw [hcellSynced index (by omega), h.entityAt hitem]
    by_cases hcover : item.entity.Covers index
    · have hin := (item.covers_iff index).mp hcover
      rw [if_pos hcover, hwiped.record index hin.1 hin.2]
    · have hout := mt (item.covers_iff index).mpr hcover
      rw [if_neg hcover, hwiped.keep index (by omega) (by omega)
        (by omega)]
  · rw [Sect.withHead_head, Sect.withHead_head]
    rw [hheadSynced, hfreeWiped, hborder.1, hborder.2, ← hfree] at hsum
    exact hsum
  · exact hkeep
  · have hfrpSize := hmoved.size
    rw [Sect.withHead_file, Sect.withHead_file]
    exact ((hsize.trans hsizeSynced).trans hfrpSize.ge).trans
      ((Storage.size_le_write _ _ _).trans (Storage.size_le_write _ _ _))

/-! ## Sections filled by writes -/

structure Filled (sect : Sect) (items : Items) : Prop
    extends Layout sect items where
  full : ∀ {soff}, 32 ≤ soff → soff + 80 ≤ sect.head.lstItmPtr →
    soff % 80 = 32 → ∃ item, items soff = some item
  start_ge : ∀ {soff item}, items soff = some item →
    sect.head.fstRecPtr ≤ item.start
  last : ∀ {soff item}, items soff = some item →
    soff + 80 = sect.head.lstItmPtr → item.start = sect.head.fstRecPtr
  init : ∀ {soff item}, items soff = some item →
    item.entity.initRecSz = item.record.length

def ExtentsCall.IsWrite : ExtentsCall → Prop
  | .write .. => True
  | .delete _ => False

theorem Filled.write {sect : Sect} {items : Items} (h : Filled sect items)
    (key : Str) (value : JsonValue) (dad bro son typePtr : ℕ)
    (hfree : 80 + key.cnt + jsonValSize value ≤ sect.head.freeSpace) :
    ∃ item sect', sectExtWrite key (jsonValPtr value)
        (entityInit key value dad bro son typePtr) sect =
          .ok (sect.head.lstItmPtr, item.entity) sect' ∧
      Filled sect' (items.insert sect.head.lstItmPtr item) ∧
      item.record = jsonValPtr value ++ key.val ∧
      sect'.head = ((sect.head.lower key.cnt).lower
        (jsonValSize value)).raise 80 := by
  have hlength : (jsonValPtr value).length = jsonValSize value :=
    length_jsonValPtr value
  obtain ⟨item, sect', hwrite, hentity, hrecord, hlayout, -, hhead⟩ :=
    h.toLayout.write (entityInit key value dad bro son typePtr) rfl
      hlength.symm (by rw [hlength]; exact hfree)
  have hlipEq : sect'.head.lstItmPtr = sect.head.lstItmPtr + 80 := by
    rw [hhead]
    rfl
  have hfrpEq : sect'.head.fstRecPtr =
      sect.head.fstRecPtr - key.cnt - (jsonValPtr value).length := by
    rw [hhead]
    rfl
  have hstart : item.start = sect'.head.fstRecPtr := by
    rw [Item.start, hentity, hfrpEq]
    rfl
  refine ⟨item, sect', hwrite, { hlayout with
    full := ?_, start_ge := ?_, last := ?_, init := ?_ }, hrecord,
    by rw [hhead, hlength]⟩
  · intro soff hlow hhigh hmod
    by_cases heq : soff = sect.head.lstItmPtr
    · exact ⟨item, by rw [heq, Items.insert_self]⟩
    · have haligned := h.aligned
      rw [Items.insert_of_ne heq]
      exact h.full hlow (by omega) hmod
  · intro soff item' hitem'
    rcases Items.insert_eq_some.mp hitem' with ⟨-, rfl⟩ | ⟨-, hold⟩
    · exact hstart.ge
    · have hge := h.start_ge hold
      omega
  · intro soff item' hitem' hlast
    rcases Items.insert_eq_some.mp hitem' with ⟨-, rfl⟩ | ⟨-, hold⟩
    · exact hstart
    · have hslot := h.slot hold
      omega
  · intro soff item' hitem'
    rcases Items.insert_eq_some.mp hitem' with ⟨-, rfl⟩ | ⟨-, hold⟩
    · rw [hentity, hrecord, List.length_append, hlength, Nat.add_comm]
      rfl
    · exact h.init hold

theorem ExtentsRun.filled {offset : ℕ} {file₀ : Storage}
    {state : ExtentsState}
    (run : ExtentsRun offset file₀ (fun _ call => call.IsWrite) state) :
    ∃ items, Filled state.sect items ∧
      ∀ soff ∈ state.live, ∃ item, items soff = some item := by
  apply run.invariant
  · rintro state ⟨hlive, hctor⟩
    have hinv : ExtentsInv offset file₀ True state _ := .init hlive hctor
    refine ⟨_, { hinv.layout with
      full := ?_, start_ge := ?_, last := ?_, init := ?_ }, ?_⟩
    · intro soff hlow hhigh
      rcases hinv.layout.border with hlip | ⟨item, hitem⟩
      · omega
      · cases hitem
    · intro soff item hitem
      cases hitem
    · intro soff item hitem
      cases hitem
    · intro soff item hitem
      cases hitem
    · intro soff hmem
      rw [hlive] at hmem
      cases hmem
  · rintro state call state' ⟨items, hfilled, hlive⟩ hwrite hstep
    cases call with
    | delete soff => cases hwrite
    | write key value dad bro son typePtr =>
        have hlength : (jsonValPtr value).length = jsonValSize value :=
          length_jsonValPtr value
        rcases Nat.lt_or_ge state.sect.head.freeSpace
          (80 + key.cnt + jsonValSize value) with hlt | hge
        · rw [extentsStep, sectExtWrite_refused (by rw [hlength]; exact hlt),
            Option.some.injEq] at hstep
          subst hstep
          exact ⟨items, hfilled, hlive⟩
        · obtain ⟨item, sect', hcall, hfilled', -, -⟩ :=
            hfilled.write key value dad bro son typePtr hge
          rw [extentsStep, hcall, Option.some.injEq] at hstep
          subst hstep
          refine ⟨_, hfilled', ?_⟩
          intro soff hmem
          by_cases heq : soff = state.sect.head.lstItmPtr
          · exact ⟨item, by rw [heq, Items.insert_self]⟩
          · rw [Items.insert_of_ne heq]
            exact hlive soff (by simpa [heq] using hmem)

/-! ## One update of a filled section -/

/-- An inner record of the slot is to grow to `recSz` bytes; the free space
holds them, but not a slot as well. -/
def Sect.LosesOnUpdate (sect : Sect) (soff recSz : ℕ) : Prop :=
  (sect.entityAt soff).keyPtr - (sect.entityAt soff).valSize ≠
      sect.head.fstRecPtr ∧
    (sect.entityAt soff).initRecSz < recSz ∧
    recSz ≤ sect.head.freeSpace ∧
    sect.head.freeSpace +
        (sect.scanStopWithout soff - sect.head.fstRecPtr) <
      sizeofEntity + recSz

structure Sect.Unchanged (sect sect' : Sect) : Prop where
  lstItmPtr : sect'.head.lstItmPtr = sect.head.lstItmPtr
  fstRecPtr : sect'.head.fstRecPtr = sect.head.fstRecPtr
  freeSpace : sect'.head.freeSpace = sect.head.freeSpace
  cell : ∀ position, sizeofSectHeadEntity ≤ position →
    position < SECTION_SIZE →
    sect'.file.cell (sect.head.fileOffset + position) =
      sect.file.cell (sect.head.fileOffset + position)

theorem Sect.Quiet.unchanged {sect sect' : Sect} (h : sect.Quiet sect') :
    sect.Unchanged sect' where
  lstItmPtr := by rw [h.head]
  fstRecPtr := by rw [h.head]
  freeSpace := by rw [h.head]
  cell := fun _ _ _ => by rw [h.cell]

section Update

variable {sect : Sect} {items : Items} {soff : ℕ} {item : Item}

theorem Filled.delete_inner (h : Filled sect items)
    (hitem : items soff = some item)
    (hinner : item.start ≠ sect.head.fstRecPtr) :
    ∃ sect', sectExtDelete soff sect = .ok item.entity sect' ∧
      sect'.head.lstItmPtr = sect.head.lstItmPtr ∧
      sect'.head.fstRecPtr = sect.scanStopWithout soff ∧
      sect'.head.freeSpace + sect.head.fstRecPtr =
        sect.head.freeSpace + sect'.head.fstRecPtr := by
  have hslot := h.slot hitem
  have haligned := h.aligned
  have hnotLast : soff + 80 ≠ sect.head.lstItmPtr :=
    fun hlast => hinner (h.last hitem hlast)
  obtain ⟨last, hlast⟩ : ∃ last, items (sect.head.lstItmPtr - 80) =
      some last := h.full (by omega) (by omega) (by omega)
  obtain ⟨wiped, sect', hdelete, -, -, hlip, hfrp, hsum, -, -⟩ :=
    h.toLayout.toLoose.held.delete_inner hitem hlast hnotLast
  exact ⟨sect', hdelete, hlip, hfrp, hsum⟩

theorem Filled.update_move (h : Filled sect items)
    (hitem : items soff = some item) (key : Str) (val : List Byte)
    (entity : Entity) (hinner : item.start ≠ sect.head.fstRecPtr) :
    (80 + (key.cnt + val.length) ≤ sect.head.freeSpace +
        (sect.scanStopWithout soff - sect.head.fstRecPtr) →
      ∃ sect', sectExtUpdateMove soff key val entity sect =
        .ok () sect') ∧
    (¬ 80 + (key.cnt + val.length) ≤ sect.head.freeSpace +
        (sect.scanStopWithout soff - sect.head.fstRecPtr) →
      ∃ sect', sectExtUpdateMove soff key val entity sect =
        .failed sect' ∧ sect'.head.lstItmPtr = soff) := by
  have hslot := h.slot hitem
  have hlipLe := h.lip_le
  have hfrpLe := h.frp_le
  have hfree := h.free
  obtain ⟨deleted, hdelete, hlip, hfrp, hsum⟩ := h.delete_inner hitem hinner
  have hstopLe := sect.scanStopWithout_le soff hfrpLe
  have hstopGe := sect.scanStopWithout_ge soff
  constructor
  · intro hroom
    exact ⟨_, sectExtUpdateMove_eq hdelete (by omega) (by omega) (by omega)
      (by omega)⟩
  · intro hroom
    have hrefused : sectExtWrite key val entity
        (deleted.pointed soff deleted.head.fstRecPtr
          deleted.head.freeSpace) =
        .failed (deleted.pointed soff deleted.head.fstRecPtr
          deleted.head.freeSpace) := by
      apply sectExtWrite_refused
      simp only [Sect.pointed]
      omega
    have hset : Sect.setHead { deleted.head with lstItmPtr := soff } deleted =
        .ok () (deleted.pointed soff deleted.head.fstRecPtr
          deleted.head.freeSpace) := rfl
    refine ⟨deleted.pointed soff deleted.head.fstRecPtr
      deleted.head.freeSpace, ?_, rfl⟩
    rw [sectExtUpdateMove, Prog.bind_of_ok (Prog.status_of_ok hdelete),
      Prog.bind_of_ok (Sect.getHead_apply deleted), Prog.bind_of_ok hset,
      Prog.bind_of_failed hrefused]

theorem Filled.update (h : Filled sect items)
    (hitem : items soff = some item) (key : Str) (val : List Byte)
    (entity : Entity) (hinit : entity.initRecSz = key.cnt + val.length)
    (hrecSz : entityRecSz entity = key.cnt + val.length) :
    (¬ sect.LosesOnUpdate soff (key.cnt + val.length) →
      ∀ sect', sectExtUpdate soff key val entity sect = .failed sect' →
        sect.Unchanged sect') ∧
    (sect.LosesOnUpdate soff (key.cnt + val.length) →
      ∃ sect', sectExtUpdate soff key val entity sect = .failed sect' ∧
        sect'.head.lstItmPtr = soff) := by
  have hslot := h.slot hitem
  have hlipLe := h.lip_le
  have hfrpLe := h.frp_le
  have hfree := h.free
  have hspan := item.stop_sub_start
  have hstopLe : item.stop ≤ 8192 := item.stop_le
  have hstartGe := h.start_ge hitem
  have hold := h.init hitem
  have hkeyPtr := item.keyPtr_eq
  have hentityAt := h.toLayout.toLoose.entityAt hitem
  have hstartEq : (sect.entityAt soff).keyPtr -
      (sect.entityAt soff).valSize = item.start := by
    rw [hentityAt, hkeyPtr, Item.start]
    omega
  obtain ⟨read, hread, hquiet, -⟩ := h.toLayout.toLoose.held.rdItm hitem
  have hfilled : Filled read items :=
    { h.toLayout.quiet hquiet with
      full := by rw [hquiet.head]; exact h.full
      start_ge := by rw [hquiet.head]; exact h.start_ge
      last := by rw [hquiet.head]; exact h.last
      init := h.init }
  have hadd : sizeAdd sect.head.freeSpace item.entity.initRecSz =
      sect.head.freeSpace + item.entity.initRecSz :=
    sizeAdd_of_lt (by omega)
  by_cases hstart : item.start = sect.head.fstRecPtr
  · refine ⟨fun _ => ?_, fun hloses => absurd hstart ?_⟩
    · intro sect' hfailed
      by_cases hroom : max entity.initRecSz item.entity.initRecSz ≤
          sizeAdd sect.head.freeSpace item.entity.initRecSz
      · rw [sectExtUpdate_border hread hquiet.head hstart hroom,
          @sectExtUpdateBorder_eq read soff item.stop] at hfailed
        · cases hfailed
        · rw [hquiet.head, hold, ← hstart]
          exact sizeAdd_of_lt (by omega)
        · exact hstopLe
        · omega
        · rw [hquiet.head]
          omega
      · rw [sectExtUpdate_border_refused hread hquiet.head hstart hroom]
          at hfailed
        injection hfailed with hsect
        exact hsect ▸ hquiet.unchanged
    · rw [← hstartEq]
      exact hloses.1
  · by_cases hgrows : item.entity.initRecSz < entity.initRecSz
    · by_cases hroom : entityRecSz entity ≤ sect.head.freeSpace
      · rw [sectExtUpdate_move hread hquiet.head hstart hgrows hroom]
        have hscan : read.scanStopWithout soff = sect.scanStopWithout soff := by
          rw [Sect.scanStopWithout, Sect.scanStopWithout, hquiet.head,
            hquiet.cell,
            (h.toLayout.quiet hquiet).toLoose.entityAt hitem, hentityAt]
        have hmove := hfilled.update_move hitem key val
          (entity.promoted item.entity) (by rw [hquiet.head]; exact hstart)
        rw [hscan, hquiet.head] at hmove
        constructor
        · intro hkeeps sect' hfailed
          have hfits : 80 + (key.cnt + val.length) ≤ sect.head.freeSpace +
              (sect.scanStopWithout soff - sect.head.fstRecPtr) := by
            by_contra hlt
            apply hkeeps
            refine ⟨by rw [hstartEq]; exact hstart,
              by rw [hentityAt, ← hinit]; exact hgrows,
              by rw [← hrecSz]; exact hroom, ?_⟩
            simp only [sizeofEntity]
            omega
          obtain ⟨sect'', hok⟩ := hmove.1 hfits
          rw [hok] at hfailed
          cases hfailed
        · rintro ⟨-, -, -, hlt⟩
          simp only [sizeofEntity] at hlt
          exact hmove.2 (by omega)
      · rw [sectExtUpdate_move_refused hread hquiet.head hstart hgrows
          hroom]
        refine ⟨fun _ sect' hfailed => ?_, fun hloses => ?_⟩
        · injection hfailed with hsect
          exact hsect ▸ hquiet.unchanged
        · rw [hrecSz] at hroom
          exact absurd hloses.2.2.1 hroom
    · rw [sectExtUpdate_gap hread hquiet.head hstart hgrows,
        @sectExtUpdateGap_eq read soff item.stop]
      · constructor
        · intro _ sect' hfailed
          cases hfailed
        intro hloses
        have hlt := hloses.2.1
        rw [hentityAt, ← hinit] at hlt
        exact absurd hlt hgrows
      · rw [item.stop_eq]
        have hkeyLe := item.stop_eq
        exact sizeAdd_of_lt (by omega)
      · exact hstopLe
      · omega
      · rw [hquiet.head]
        exact hlipLe
      · rw [hquiet.head]
        omega

end Update

/-- A refused update of a section filled by writes changes nothing, unless an
inner record is to be moved into a free space that holds it but not a slot as
well; then the old record is lost. -/
theorem sectExtUpdate_failed_iff {offset : ℕ} {file₀ : Storage}
    {state : ExtentsState}
    (run : ExtentsRun offset file₀ (fun _ call => call.IsWrite) state)
    {soff : ℕ} (hsoff : soff ∈ state.live) (key : Str) (value : JsonValue)
    (dad bro son typePtr : ℕ) :
    (∀ sect', sectExtUpdate soff key (jsonValPtr value)
        (entityInit key value dad bro son typePtr) state.sect =
          .failed sect' → state.sect.Unchanged sect') ↔
      ¬ state.sect.LosesOnUpdate soff (key.cnt + jsonValSize value) := by
  have hlength : (jsonValPtr value).length = jsonValSize value :=
    length_jsonValPtr value
  obtain ⟨items, hfilled, hlive⟩ := run.filled
  obtain ⟨item, hitem⟩ := hlive soff hsoff
  have hslot := hfilled.slot hitem
  obtain ⟨hkeeps, hloses⟩ := hfilled.update hitem key
    (jsonValPtr value) (entityInit key value dad bro son typePtr)
    (by rw [hlength]; rfl) (by rw [hlength]; rfl)
  rw [hlength] at hkeeps hloses
  refine ⟨fun hunchanged hlose => ?_, fun hlose => hkeeps hlose⟩
  obtain ⟨sect', hfailed, hlip⟩ := hloses hlose
  have hsame := (hunchanged sect' hfailed).lstItmPtr
  omega

/-! ## Two updates of one section -/

def longKey (size : ℕ) : Str := stringCtor (List.replicate size 98)

theorem cnt_longKey (size : ℕ) : (longKey size).cnt = size := by
  rw [longKey, cnt_stringCtor, List.length_replicate]

theorem head_longKey (size : ℕ) :
    (longKey (size + 1)).val.head? = some 98 := by
  rw [longKey, List.replicate_succ, stringCtor]
  rfl

theorem exists_two_records : ∃ (state : ExtentsState) (items : Items)
    (first : Item), ExtentsRun 8 Storage.empty
      (fun _ call => call.IsWrite) state ∧ 32 ∈ state.live ∧
      Filled state.sect items ∧ items 32 = some first ∧
      first.entity.initRecSz = 9 ∧ first.start = 8183 ∧
      state.sect.head.freeSpace = 91 ∧
      state.sect.head.lstItmPtr = 192 ∧
      state.sect.head.fstRecPtr = 283 ∧
      state.sect.scanStopWithout 32 = 283 := by
  have hrun₀ := freshExtents_run (fun _ call => call.IsWrite)
  obtain ⟨items, hfilled, -⟩ := hrun₀.filled
  obtain ⟨first, sect₁, hfirst, hfilled₁, hrecord₁, hhead₁⟩ :=
    hfilled.write (stringCtor [97]) (.int32 1) 0 0 0 0 (by decide)
  have hcnt₁ : (stringCtor [97]).cnt = 1 := rfl
  have hlip₀ : freshExtents.sect.head.lstItmPtr = 32 := rfl
  have hfree₁ : sect₁.head.freeSpace = 8071 := by
    rw [hhead₁]
    rfl
  have hlip₁ : sect₁.head.lstItmPtr = 112 := by
    rw [hhead₁]
    rfl
  have hfrp₁ : sect₁.head.fstRecPtr = 8183 := by
    rw [hhead₁]
    rfl
  rw [hlip₀] at hfirst hfilled₁
  have hitem₁ : items.insert 32 first 32 = some first :=
    Items.insert_self _ _ _
  have hcnt₂ := cnt_longKey 7900
  obtain ⟨second, sect₂, hsecond, hfilled₂, hrecord₂, hhead₂⟩ :=
    hfilled₁.write (longKey 7900) .object 0 0 0 0
      (by rw [hcnt₂, hfree₁]; decide)
  have hfree₂ : sect₂.head.freeSpace = 91 := by
    rw [hhead₂, SectHead.raise, SectHead.lower, SectHead.lower, hcnt₂]
    simp only [hfree₁, jsonValSize]
  have hlip₂ : sect₂.head.lstItmPtr = 192 := by
    rw [hhead₂, SectHead.raise, SectHead.lower, SectHead.lower]
    simp only [hlip₁]
  have hfrp₂ : sect₂.head.fstRecPtr = 283 := by
    rw [hhead₂, SectHead.raise, SectHead.lower, SectHead.lower, hcnt₂]
    simp only [hfrp₁, jsonValSize]
  rw [hlip₁] at hsecond hfilled₂
  have hitem₂ : (items.insert 32 first).insert 112 second 112 =
      some second := Items.insert_self _ _ _
  have hitem : (items.insert 32 first).insert 112 second 32 =
      some first := by
    rw [Items.insert_of_ne (by decide)]
    exact hitem₁
  have hstart₁ : first.start = 8183 := by
    rw [hfilled₁.last hitem₁ (by rw [hlip₁]), hfrp₁]
  have hstart₂ : second.start = 283 := by
    rw [hfilled₂.last hitem₂ (by rw [hlip₂]), hfrp₂]
  have hbyte : sect₂.file.cell (sect₂.head.fileOffset + 283) = 98 := by
    have hbytes : second.record = (longKey 7900).val := by
      rw [hrecord₂]
      rfl
    have hne : second.record ≠ [] := by
      intro hnil
      have hhead := head_longKey 7899
      rw [← hbytes, hnil] at hhead
      cases hhead
    have hhead := hfilled₂.toLayout.toLoose.head_record hitem₂ hne
    rw [hbytes, head_longKey 7899, hstart₂, Option.some.injEq] at hhead
    exact hhead.symm
  have hrecSz : first.entity.initRecSz = 9 := by
    rw [hfilled₁.init hitem₁, hrecord₁]
    rfl
  refine ⟨⟨sect₂, [112, 32]⟩, _, first, ?_, by simp, hfilled₂, hitem,
    hrecSz, hstart₁, hfree₂, hlip₂, hfrp₂, ?_⟩
  · have hstep₁ : extentsStep (.write (stringCtor [97]) (.int32 1) 0 0 0 0)
        freshExtents = some ⟨sect₁, [32]⟩ := by
      simp only [extentsStep, hfirst]
      rfl
    have hstep₂ : extentsStep (.write (longKey 7900) .object 0 0 0 0)
        ⟨sect₁, [32]⟩ = some ⟨sect₂, [112, 32]⟩ := by
      simp only [extentsStep, hsecond]
    exact .step (.step hrun₀ (by trivial) hstep₁) (by trivial) hstep₂
  · rw [Sect.scanStopWithout, hfrp₂,
      hfilled₂.toLayout.toLoose.entityAt hitem]
    have hout : ¬ first.entity.Covers 283 := by
      rw [first.covers_iff, hstart₁]
      omega
    rw [show 8192 - 283 = 7908 + 1 from rfl, nextNonzero, if_neg hout,
      hbyte, if_neg (by decide)]

/-- A record of a hundred bytes is refused at once. -/
theorem sectExtUpdate_failed_iff_two : ∃ state : ExtentsState,
    ∀ sect', sectExtUpdate 32 (longKey 100) (jsonValPtr .object)
      (entityInit (longKey 100) .object 0 0 0 0) state.sect =
        .failed sect' → state.sect.Unchanged sect' := by
  obtain ⟨state, items, first, run, hlive, -, -, -, -, hfree, -⟩ :=
    exists_two_records
  refine ⟨state, (sectExtUpdate_failed_iff run hlive (longKey 100) .object
    0 0 0 0).mpr ?_⟩
  rintro ⟨-, -, hroom, -⟩
  rw [hfree, cnt_longKey, jsonValSize] at hroom
  omega

/-- A record of twenty bytes fits the free space of 91 bytes, but not
together with a slot: the old record is deleted and the call fails. -/
theorem sectExtUpdate_failed_changes : ¬ ∀ (offset : ℕ) (file₀ : Storage)
    (state : ExtentsState),
    ExtentsRun offset file₀ (fun _ call => call.IsWrite) state →
    ∀ soff ∈ state.live, ∀ (key : Str) (value : JsonValue)
      (dad bro son typePtr : ℕ) (sect' : Sect),
      sectExtUpdate soff key (jsonValPtr value)
        (entityInit key value dad bro son typePtr) state.sect =
          .failed sect' → state.sect.Unchanged sect' := by
  intro hall
  obtain ⟨state, items, first, run, hlive, hfilled, hitem, hinit, hstart,
    hfree, hlip, hfrp, hscan⟩ := exists_two_records
  have hcnt := cnt_longKey 20
  have hentityAt := hfilled.toLayout.toLoose.entityAt hitem
  have hkeyPtr := first.keyPtr_eq
  have hloses : state.sect.LosesOnUpdate 32 ((longKey 20).cnt + 0) := by
    rw [Sect.LosesOnUpdate, hentityAt, hinit, hfree, hfrp, hscan, hcnt]
    rw [Item.start] at hstart
    simp only [sizeofEntity]
    omega
  obtain ⟨-, hfails⟩ := hfilled.update hitem (longKey 20) []
    (entityInit (longKey 20) .object 0 0 0 0) rfl rfl
  obtain ⟨sect', hfailed, hlip'⟩ := hfails hloses
  have hsame := (hall 8 Storage.empty state run 32 hlive (longKey 20)
    .object 0 0 0 0 sect' hfailed).lstItmPtr
  omega

end NosqlDbms
