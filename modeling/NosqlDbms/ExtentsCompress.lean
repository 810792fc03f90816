import NosqlDbms.ExtentsWrite
import Mathlib.Tactic

/-!
# Compressing the borders of a section

Both borders move over zeros.  The item border stops below the last live slot,
because a live entity is never all zeros.  The record border stops at the
lowest record exactly when that record does not begin with a zero byte; each
single step of the scan preserves `Loose` under that condition.
-/

namespace NosqlDbms

/-- Only the borders and the log change. -/
structure Sect.Moved (sect sect' : Sect) : Prop where
  nextPtr : sect'.head.nextPtr = sect.head.nextPtr
  fileOffset : sect'.head.fileOffset = sect.head.fileOffset
  cell : sect'.file.cell = sect.file.cell
  size : sect'.file.size = sect.file.size

namespace Sect.Moved

theorem refl {sect : Sect} : sect.Moved sect := ⟨rfl, rfl, rfl, rfl⟩

theorem trans {sect sect' sect'' : Sect} (h : sect.Moved sect')
    (h' : sect'.Moved sect'') : sect.Moved sect'' where
  nextPtr := h'.nextPtr.trans h.nextPtr
  fileOffset := h'.fileOffset.trans h.fileOffset
  cell := h'.cell.trans h.cell
  size := h'.size.trans h.size

theorem of_quiet {sect sect' : Sect} (h : sect.Quiet sect') :
    sect.Moved sect' where
  nextPtr := by rw [h.head]
  fileOffset := by rw [h.head]
  cell := h.cell
  size := h.size

end Sect.Moved

theorem Sect.Within.trans_moved {sect sect' sect'' : Sect} {reads : Prop}
    (h : sect.Within sect' reads)
    (hoffset : sect'.head.fileOffset = sect.head.fileOffset)
    (h' : sect'.Within sect'' reads) : sect.Within sect'' reads := by
  unfold Sect.Within at h h' ⊢
  rw [hoffset] at h'
  exact Storage.Within.trans h h'

def Items.HasItem (items : Items) : Prop :=
  ∃ soff item, items soff = some item

theorem Items.HasRecord.hasItem {items : Items} (h : items.HasRecord) :
    items.HasItem := by
  obtain ⟨soff, item, hitem, -⟩ := h
  exact ⟨soff, item, hitem⟩

/-! ## The item border -/

section CmprsLip

variable {itmSize fuel : ℕ} {sect sect' : Sect}

theorem cmprsLipLoop_bottom {data : Option (List Byte)}
    (hlip : sect.head.lstItmPtr = 32) :
    cmprsLipLoop itmSize (fuel + 1) data sect = .ok () sect := by
  have htest : sect.head.lstItmPtr = sizeofSectHeadEntity := hlip
  simp only [cmprsLipLoop, Prog.bind_apply, Sect.getHead_apply,
    if_pos htest, Prog.pure_apply]

theorem cmprsLipLoop_live {data : List Byte}
    (hdata : isZeroed data = false) :
    cmprsLipLoop itmSize (fuel + 1) (some data) sect = .ok () sect := by
  simp only [cmprsLipLoop, Prog.bind_apply, Sect.getHead_apply, hdata]
  split <;> rfl

theorem cmprsLipLoop_zero {next : Sect} {zeros : List Byte}
    {data : Option (List Byte)} (hlip : sect.head.lstItmPtr ≠ 32)
    (hzeros : isZeroed zeros = true)
    (hnext : next = { sect with head := { sect.head with
      lstItmPtr := sizeSub sect.head.lstItmPtr itmSize
      freeSpace := sizeAdd sect.head.freeSpace itmSize } })
    (hread : (sectHeadRead (sizeSub next.head.lstItmPtr itmSize)
      itmSize).status next = .ok data sect') :
    cmprsLipLoop itmSize (fuel + 1) (some zeros) sect =
      cmprsLipLoop itmSize fuel data sect' := by
  have htest : ¬ sect.head.lstItmPtr = sizeofSectHeadEntity := hlip
  subst hnext
  simp only at hread
  simp only [cmprsLipLoop, Prog.bind_apply, Sect.getHead_apply,
    if_neg htest, hzeros, if_true, Sect.setHead_apply, hread]

theorem sectHeadCmprsLip_of_loop {lip : Sect} {data : Option (List Byte)}
    (hread : (sectHeadRead (sizeSub sect.head.lstItmPtr itmSize)
      itmSize).status sect = .ok data sect')
    (hloop : cmprsLipLoop itmSize (sect.head.lstItmPtr + 1) data sect' =
      .ok () lip) :
    sectHeadCmprsLip itmSize sect = .ok () (lip.withHead lip.head) := by
  simp only [sectHeadCmprsLip, Prog.bind_apply, Sect.getHead_apply,
    hread, hloop, sectHeadSync_apply]

end CmprsLip

theorem Loose.retract {sect : Sect} {items : Items} (h : Loose sect items)
    (hlip : sect.head.lstItmPtr ≠ 32)
    (hnone : items (sect.head.lstItmPtr - 80) = none) :
    Loose { sect with
      head := { sect.head with
        lstItmPtr := sizeSub sect.head.lstItmPtr 80
        freeSpace := sizeAdd sect.head.freeSpace 80 } } items := by
  have hlipGe := h.lip_ge
  have hlipLe := h.lip_le
  have hfrpLe := h.frp_le
  have haligned := h.aligned
  have hfree := h.free
  have hlip' : sizeSub sect.head.lstItmPtr 80 =
      sect.head.lstItmPtr - 80 := sizeSub_of_le (by omega) (by omega)
  have hfree' : sizeAdd sect.head.freeSpace 80 =
      sect.head.freeSpace + 80 := sizeAdd_of_lt (by omega)
  rw [hlip', hfree']
  constructor
  · simp only
    omega
  · simp only
    omega
  · exact hfrpLe
  · simp only
    omega
  · simp only
    omega
  · intro soff item hitem
    have hslot := h.slot hitem
    have hne : soff ≠ sect.head.lstItmPtr - 80 := by
      rintro rfl
      rw [hnone] at hitem
      cases hitem
    refine ⟨hslot.1, ?_, hslot.2.2⟩
    simp only
    omega
  · exact h.entity
  · exact h.record
  · intro soff hlow hhigh hmod hsoff
    simp only at hhigh
    exact h.cleared hlow (by omega) hmod hsoff
  · exact h.inside
  · exact h.apart
  · exact h.gap
  · have hsize := h.size_slots
    simp only
    omega
  · exact h.size_records

/-- The read below the item border succeeds unless that border is the lowest
one; there it wraps. -/
theorem Loose.read_below {sect : Sect} {items : Items}
    (h : Loose sect items) :
    ∃ data sect', (sectHeadRead (sizeSub sect.head.lstItmPtr 80) 80).status
        sect = .ok data sect' ∧ sect.Quiet sect' ∧
      (∀ reads : Prop, (reads → items.HasItem) →
        sect.Within sect' reads) ∧
      (sect'.head.lstItmPtr ≠ 32 → data = some (sect'.file.bytes
        (sect'.head.fileOffset + (sect'.head.lstItmPtr - 80)) 80)) := by
  have hge := h.lip_ge
  have hlipLe := h.lip_le
  have hfrpLe := h.frp_le
  have haligned := h.aligned
  have hsize := h.size_slots
  by_cases hlast : sect.head.lstItmPtr = 32
  · obtain ⟨data, sect', hread, hquiet, recent, hlog, hrecent⟩ :=
      sectHeadRead_status (sizeSub sect.head.lstItmPtr 80) 80 sect
    refine ⟨data, sect', hread, hquiet, ?_, ?_⟩
    · intro reads hreads
      refine ⟨fun index _ => congrFun hquiet.cell index, hquiet.size.ge,
        by rw [hquiet.size]; exact le_max_left _ _, recent, hlog, ?_⟩
      intro access hmem
      obtain ⟨offset, -, rfl⟩ := hrecent access hmem
      intro hr
      obtain ⟨soff, item, hitem⟩ := hreads hr
      have hin := h.slot hitem
      omega
    · intro hne
      rw [hquiet.head] at hne
      exact absurd hlast hne
  · have hsub : sizeSub sect.head.lstItmPtr 80 =
        sect.head.lstItmPtr - 80 := sizeSub_of_le (by omega) (by omega)
    obtain ⟨sect', hread, hquiet, hwithin⟩ :=
      sectHeadRead_quiet sect (sect.head.lstItmPtr - 80) 80
        (by omega) (fun _ => by omega)
    refine ⟨some (sect.file.bytes (sect.head.fileOffset +
      (sect.head.lstItmPtr - 80)) 80), sect', ?_, hquiet,
      fun reads _ => hwithin reads, fun _ => ?_⟩
    · rw [hsub]
      exact Prog.status_of_ok hread
    · rw [hquiet.head, hquiet.bytes]

theorem cmprsLipLoop_spec {items : Items} (fuel : ℕ) {sect : Sect}
    {data : Option (List Byte)} (h : Loose sect items)
    (hfuel : sect.head.lstItmPtr < 80 * fuel + 32)
    (hdata : sect.head.lstItmPtr ≠ 32 → data = some (sect.file.bytes
      (sect.head.fileOffset + (sect.head.lstItmPtr - 80)) 80)) :
    ∃ sect', cmprsLipLoop 80 fuel data sect = .ok () sect' ∧
      Loose sect' items ∧ sect.Moved sect' ∧
      sect'.head.fstRecPtr = sect.head.fstRecPtr ∧
      (sect'.head.lstItmPtr = 32 ∨
        ∃ item, items (sect'.head.lstItmPtr - 80) = some item) ∧
      ∀ reads : Prop, (reads → items.HasItem) →
        sect.Within sect' reads := by
  induction fuel generalizing sect data with
  | zero =>
      have hge := h.lip_ge
      omega
  | succ fuel ih =>
      by_cases hlip : sect.head.lstItmPtr = 32
      · exact ⟨sect, cmprsLipLoop_bottom hlip, h, .refl, rfl, Or.inl hlip,
          fun _ _ => Storage.Within.refl⟩
      · have hge := h.lip_ge
        have haligned := h.aligned
        have hlipLe := h.lip_le
        have hfrpLe := h.frp_le
        rw [hdata hlip]
        cases hslot : items (sect.head.lstItmPtr - 80) with
        | some item =>
            have hne : isZeroed (sect.file.bytes (sect.head.fileOffset +
                (sect.head.lstItmPtr - 80)) 80) = false := by
              rw [h.entity hslot]
              exact item.isZeroed_bytes
            exact ⟨sect, cmprsLipLoop_live hne, h, .refl, rfl,
              Or.inr ⟨item, hslot⟩, fun _ _ => Storage.Within.refl⟩
        | none =>
            have hzero : isZeroed (sect.file.bytes
                (sect.head.fileOffset + (sect.head.lstItmPtr - 80)) 80) =
                  true := by
              rw [isZeroed_iff, Storage.length_bytes]
              exact h.cleared (by omega) (by omega) (by omega) hslot
            have hloose := h.retract hlip hslot
            obtain ⟨next, hnext⟩ : ∃ next : Sect, next =
                { sect with head := { sect.head with
                    lstItmPtr := sizeSub sect.head.lstItmPtr 80
                    freeSpace := sizeAdd sect.head.freeSpace 80 } } :=
              ⟨_, rfl⟩
            rw [← hnext] at hloose
            have hlipNext : next.head.lstItmPtr =
                sect.head.lstItmPtr - 80 := by
              rw [hnext]
              exact sizeSub_of_le (by omega) (by omega)
            have hmovedNext : sect.Moved next := by
              rw [hnext]
              exact ⟨rfl, rfl, rfl, rfl⟩
            obtain ⟨data', sect₁, hread, hquiet, hwithin, hdata'⟩ :=
              hloose.read_below
            obtain ⟨sect', hloop, hloose', hmoved', hfrp', hborder', hin'⟩ :=
              ih (hloose.quiet hquiet)
                (by rw [hquiet.head, hlipNext]; omega) hdata'
            have hmoved₁ : sect.Moved sect₁ :=
              hmovedNext.trans (.of_quiet hquiet)
            refine ⟨sect', ?_, hloose', hmoved₁.trans hmoved', ?_, hborder',
              ?_⟩
            · rw [cmprsLipLoop_zero hlip hzero hnext hread]
              exact hloop
            · rw [hfrp', hquiet.head, hnext]
            · intro reads hreads
              have hwithinNext : sect.Within next reads := by
                rw [hnext]
                exact Storage.Within.refl
              exact (hwithinNext.trans_moved hmovedNext.fileOffset
                (hwithin reads hreads)).trans_moved hmoved₁.fileOffset
                  (hin' reads hreads)

/-! ## The record border -/

theorem Loose.isBorder {sect : Sect} {items : Items} {soff : ℕ}
    {item : Item} (h : Loose sect items) (hitem : items soff = some item)
    (hne : item.record ≠ [])
    (hstart : item.start = sect.head.fstRecPtr) :
    items.IsBorder soff item := by
  refine ⟨hitem, hne, ?_⟩
  intro soff' item' hlt hitem'
  by_contra hne'
  have hbelow := h.apart hlt hitem hitem' hne hne'
  have hin := h.inside hitem' hne'
  have hpos := List.length_pos_iff.mpr hne'
  have hstop := item'.stop_sub_start
  omega

theorem Loose.head_record {sect : Sect} {items : Items} {soff : ℕ}
    {item : Item} (h : Loose sect items) (hitem : items soff = some item)
    (hne : item.record ≠ []) :
    item.record.head? =
      some (sect.file.cell (sect.head.fileOffset + item.start)) := by
  have hrecord := h.record hitem
  have hpos := List.length_pos_iff.mpr hne
  obtain ⟨rest, hlength⟩ : ∃ rest, item.record.length = 1 + rest :=
    ⟨item.record.length - 1, by omega⟩
  rw [hlength, Storage.bytes_add, Storage.bytes_one] at hrecord
  rw [← hrecord]
  rfl

theorem Loose.frp_lt {sect : Sect} {items : Items} (h : Loose sect items)
    (hrecord : items.HasRecord) : sect.head.fstRecPtr < 8192 := by
  obtain ⟨soff, item, hitem, hne⟩ := hrecord
  have hin := h.inside hitem hne
  have hpos := List.length_pos_iff.mpr hne
  have hstop := item.stop_le
  have hspan := item.stop_sub_start
  simp only [SECTION_SIZE] at hstop
  omega

theorem Loose.advance {sect : Sect} {items : Items} (h : Loose sect items)
    (hsafe : items.BorderSafe) (hfrp : sect.head.fstRecPtr < 8192)
    (hzero : sect.file.cell
      (sect.head.fileOffset + sect.head.fstRecPtr) = 0) :
    Loose { sect with
      head := { sect.head with
        fstRecPtr := sizeAdd sect.head.fstRecPtr 1
        freeSpace := sizeAdd sect.head.freeSpace 1 } } items := by
  have hlipLe := h.lip_le
  have hfree := h.free
  have hfrp' : sizeAdd sect.head.fstRecPtr 1 = sect.head.fstRecPtr + 1 :=
    sizeAdd_of_lt (by omega)
  have hfree' : sizeAdd sect.head.freeSpace 1 = sect.head.freeSpace + 1 :=
    sizeAdd_of_lt (by omega)
  rw [hfrp', hfree']
  constructor
  · exact h.lip_ge
  · simp only
    omega
  · simp only
    omega
  · exact h.aligned
  · simp only
    omega
  · exact h.slot
  · exact h.entity
  · exact h.record
  · exact h.cleared
  · intro soff item hitem hne
    have hin := h.inside hitem hne
    have hstart : item.start ≠ sect.head.fstRecPtr := by
      intro hstart
      apply hsafe soff item (h.isBorder hitem hne hstart)
      rw [h.head_record hitem hne, hstart, hzero]
    simp only
    omega
  · exact h.apart
  · intro position hlow hhigh hout
    simp only at hlow
    exact h.gap (by omega) hhigh hout
  · exact h.size_slots
  · intro _
    exact h.size_records hfrp

theorem Loose.exists_start {sect : Sect} {items : Items}
    (h : Loose sect items) (hfrp : sect.head.fstRecPtr < 8192)
    (hne : sect.file.cell
      (sect.head.fileOffset + sect.head.fstRecPtr) ≠ 0) :
    ∃ soff item, items soff = some item ∧ item.record ≠ [] ∧
      item.start = sect.head.fstRecPtr := by
  by_contra hnone
  apply hne
  apply h.gap le_rfl hfrp
  rintro soff item hitem ⟨hlow, hhigh⟩
  have hspan := item.stop_sub_start
  have hrecord : item.record ≠ [] := by
    intro hnil
    rw [hnil, List.length_nil] at hspan
    omega
  have hin := h.inside hitem hrecord
  exact hnone ⟨soff, item, hitem, hrecord, by omega⟩

section CmprsFrp

variable {fuel : ℕ} {sect sect' : Sect} {chr : Option Byte}

theorem cmprsFrpLoop_top {data : Option (List Byte)}
    (hfrp : sect.head.fstRecPtr = 8192)
    (hread : (sectHeadRead sect.head.fstRecPtr 1).status sect =
      .ok data sect') :
    cmprsFrpLoop (fuel + 1) chr sect = .ok () sect' := by
  have htest : sect.head.fstRecPtr = SECTION_SIZE := hfrp
  simp only [cmprsFrpLoop, Prog.bind_apply, Sect.getHead_apply, hread,
    if_pos htest, Prog.pure_apply]

theorem cmprsFrpLoop_record {value : Byte}
    (hread : (sectHeadRead sect.head.fstRecPtr 1).status sect =
      .ok (some [value]) sect') (hvalue : value ≠ 0) :
    cmprsFrpLoop (fuel + 1) chr sect = .ok () sect' := by
  simp only [cmprsFrpLoop, Prog.bind_apply, Sect.getHead_apply, hread]
  split
  · rfl
  · simp only [Option.bind_some, List.head?_cons, Option.some_or,
      if_pos hvalue, Prog.pure_apply]

theorem cmprsFrpLoop_zero {next : Sect}
    (hfrp : sect.head.fstRecPtr ≠ 8192)
    (hread : (sectHeadRead sect.head.fstRecPtr 1).status sect =
      .ok (some [0]) sect')
    (hnext : next = { sect' with head := { sect.head with
      fstRecPtr := sizeAdd sect.head.fstRecPtr 1
      freeSpace := sizeAdd sect.head.freeSpace 1 } }) :
    cmprsFrpLoop (fuel + 1) chr sect =
      cmprsFrpLoop fuel (some 0) next := by
  have htest : ¬ sect.head.fstRecPtr = SECTION_SIZE := hfrp
  have hzero : ¬ (0 : Byte) ≠ 0 := by simp
  subst hnext
  simp only [cmprsFrpLoop, Prog.bind_apply, Sect.getHead_apply, hread,
    if_neg htest, Option.bind_some, List.head?_cons, Option.some_or,
    if_neg hzero, Sect.setHead_apply]

end CmprsFrp

theorem cmprsFrpLoop_spec {items : Items} (fuel : ℕ) {sect : Sect}
    (chr : Option Byte) (h : Loose sect items) (hsafe : items.BorderSafe)
    (hfuel : 8192 < sect.head.fstRecPtr + fuel) :
    ∃ sect', cmprsFrpLoop fuel chr sect = .ok () sect' ∧
      Loose sect' items ∧ sect.Moved sect' ∧
      sect'.head.lstItmPtr = sect.head.lstItmPtr ∧
      (sect'.head.fstRecPtr = 8192 ∨
        ∃ soff item, items soff = some item ∧ item.record ≠ [] ∧
          item.start = sect'.head.fstRecPtr) ∧
      ∀ reads : Prop, (reads → items.HasRecord) →
        sect.Within sect' reads := by
  induction fuel generalizing sect chr with
  | zero =>
      have hfrp := h.frp_le
      omega
  | succ fuel ih =>
      have hle := h.frp_le
      by_cases htop : sect.head.fstRecPtr = 8192
      · obtain ⟨data, sect', hread, hquiet, recent, hlog, hrecent⟩ :=
          sectHeadRead_status sect.head.fstRecPtr 1 sect
        refine ⟨sect', cmprsFrpLoop_top htop hread, h.quiet hquiet,
          .of_quiet hquiet, by rw [hquiet.head],
          Or.inl (by rw [hquiet.head, htop]), ?_⟩
        intro reads hreads
        refine ⟨fun index _ => congrFun hquiet.cell index,
          hquiet.size.ge, by rw [hquiet.size]; exact le_max_left _ _,
          recent, hlog, ?_⟩
        intro access hmem
        obtain ⟨offset, -, rfl⟩ := hrecent access hmem
        intro hr
        have hlt := h.frp_lt (hreads hr)
        omega
      · have hlt : sect.head.fstRecPtr < 8192 := by omega
        have hsize := h.size_records hlt
        obtain ⟨sect₁, hread, hquiet, hwithin⟩ :=
          sectHeadRead_quiet sect sect.head.fstRecPtr 1 (by omega)
            (fun _ => by omega)
        have hread' := Prog.status_of_ok hread
        rw [Storage.bytes_one] at hread'
        by_cases hzero : sect.file.cell
            (sect.head.fileOffset + sect.head.fstRecPtr) = 0
        · rw [hzero] at hread'
          obtain ⟨next, hnext⟩ : ∃ next : Sect, next =
              { sect₁ with head := { sect.head with
                  fstRecPtr := sizeAdd sect.head.fstRecPtr 1
                  freeSpace := sizeAdd sect.head.freeSpace 1 } } :=
            ⟨_, rfl⟩
          have hloose : Loose next items := by
            have hadvance := (h.quiet hquiet).advance hsafe
              (by rw [hquiet.head]; exact hlt)
              (by rw [hquiet.head, hquiet.cell]; exact hzero)
            rw [hquiet.head] at hadvance
            rw [hnext]
            exact hadvance
          have hmoved : sect.Moved next := by
            rw [hnext]
            exact ⟨rfl, rfl, hquiet.cell, hquiet.size⟩
          have hwithin' : ∀ reads, sect.Within next reads := by
            intro reads
            rw [hnext]
            exact hwithin reads
          have hfrp : next.head.fstRecPtr = sect.head.fstRecPtr + 1 := by
            rw [hnext]
            exact sizeAdd_of_lt (by omega)
          obtain ⟨sect', hloop, hloose', hmoved', hlip', htight', hin'⟩ :=
            ih (some 0) hloose (by omega)
          refine ⟨sect', ?_, hloose', hmoved.trans hmoved', ?_, htight', ?_⟩
          · rw [cmprsFrpLoop_zero htop hread' hnext]
            exact hloop
          · rw [hlip', hnext]
          · intro reads hreads
            exact (hwithin' reads).trans_moved hmoved.fileOffset
              (hin' reads hreads)
        · refine ⟨sect₁, cmprsFrpLoop_record hread' hzero,
            h.quiet hquiet, .of_quiet hquiet, by rw [hquiet.head],
            Or.inr ?_, fun reads _ => hwithin reads⟩
          rw [hquiet.head]
          exact h.exists_start hlt hzero

/-! ## Both borders -/

/-- Compressing both borders completes a layout. -/
theorem Loose.compress {sect : Sect} {items : Items} (h : Loose sect items)
    (hsafe : items.BorderSafe) :
    ∃ sect₁ sect₂, sectHeadCmprsLip 80 sect = .ok () sect₁ ∧
      sectHeadCmprsFrp sect₁ = .ok () sect₂ ∧
      Layout sect₂ items ∧
      sect₂.head.fileOffset = sect.head.fileOffset ∧
      ∀ reads : Prop, (reads → items.HasRecord) →
        sect.Within sect₂ reads := by
  obtain ⟨data, read, hread, hquiet, hwithin, hdata⟩ := h.read_below
  obtain ⟨lip, hlip, hloose, hmoved, -, hborder, hin⟩ :=
    cmprsLipLoop_spec (sect.head.lstItmPtr + 1)
      (h.quiet hquiet) (by rw [hquiet.head]; omega) hdata
  have hcmprsLip : sectHeadCmprsLip 80 sect =
      .ok () (lip.withHead lip.head) :=
    sectHeadCmprsLip_of_loop hread hlip
  have hsynced := hloose.synced
  have hfrpLe := hloose.frp_le
  obtain ⟨frp, hfrp, hloose', hmoved', hlip', htight, hin'⟩ :=
    cmprsFrpLoop_spec (sizeSub SECTION_SIZE lip.head.fstRecPtr + 1)
      none hsynced hsafe (by
        have hsub : sizeSub SECTION_SIZE lip.head.fstRecPtr =
            8192 - lip.head.fstRecPtr :=
          sizeSub_of_le hfrpLe (by simp only [SECTION_SIZE]; omega)
        rw [hsub, Sect.withHead_head]
        omega)
  have hcmprsFrp : sectHeadCmprsFrp (lip.withHead lip.head) =
      .ok () (frp.withHead frp.head) := by
    simp only [sectHeadCmprsFrp, Prog.bind_apply, Sect.getHead_apply,
      Sect.withHead_head, hfrp, sectHeadSync_apply]
  have hlayout : Layout frp items :=
    { hloose' with
      border := by rw [hlip', Sect.withHead_head]; exact hborder
      tight := htight }
  have hoffset : lip.head.fileOffset = sect.head.fileOffset := by
    rw [hmoved.fileOffset, hquiet.head]
  have hoffset' : frp.head.fileOffset = sect.head.fileOffset := by
    rw [hmoved'.fileOffset, Sect.withHead_head, hoffset]
  refine ⟨_, _, hcmprsLip, hcmprsFrp, hlayout.synced, hoffset', ?_⟩
  intro reads hreads
  have hwithin₁ : sect.Within lip reads :=
    (hwithin reads (fun hr => (hreads hr).hasItem)).trans hquiet.head
      (hin reads (fun hr => (hreads hr).hasItem))
  have hwithin₂ : sect.Within (lip.withHead lip.head) reads :=
    hwithin₁.trans_moved hoffset (.sync rfl)
  have hwithin₃ : sect.Within frp reads :=
    hwithin₂.trans_moved hoffset (hin' reads hreads)
  exact hwithin₃.trans_moved hoffset' (.sync rfl)

end NosqlDbms
