import NosqlDbms.ExtentsUpdate
import NosqlDbms.TypesWrite
import Mathlib.Tactic

/-!
# Operations that end with a sync

An operation on a section stays in its own part of the file and, when its last
step is `sect_head_sync`, leaves the header in the file equal to that in
memory.  What an operation needs for that concerns the borders and the place
of the item it is called on, not the contents of the section.
-/

namespace NosqlDbms

/-- The header in the file is that in memory. -/
def Sect.Synced (sect : Sect) : Prop :=
  sect.file.bytes sect.head.fileOffset sizeofSectHeadEntity =
    sect.head.bytes

/-- The free space lies between the borders, and the items fill whole slots. -/
structure SectHead.Balanced (itmSize : ℕ) (head : SectHead) : Prop where
  free_lt : head.freeSpace < 2 ^ 64
  free : (head.freeSpace + head.lstItmPtr) % 2 ^ 64 = head.fstRecPtr
  aligned : ∃ count, head.lstItmPtr = 32 + itmSize * count

/-- The borders lie in the section, one above the other. -/
structure SectHead.Bordered (head : SectHead) : Prop where
  lip_ge : sizeofSectHeadEntity ≤ head.lstItmPtr
  lip_le : head.lstItmPtr ≤ head.fstRecPtr
  frp_le : head.fstRecPtr ≤ SECTION_SIZE

/-- `sect'` comes from `sect` by writes in its own part of the file. -/
structure Sect.Stays (sect sect' : Sect) : Prop where
  fileOffset : sect'.head.fileOffset = sect.head.fileOffset
  confined : Storage.Confined sect.head.fileOffset
    (sect.head.fileOffset + 8192) sect.file sect'.file

/-- The same, and the header is in the file. -/
structure Sect.Settled (itmSize : ℕ) (sect sect' : Sect) : Prop where
  stays : sect.Stays sect'
  synced : sect'.Synced
  balanced : sect'.head.Balanced itmSize

/-- `sect'` comes from `sect` by accesses to its own part of the file, and the
borders are in order. -/
structure Sect.Fills (itmSize : ℕ) (sect sect' : Sect) : Prop where
  fileOffset : sect'.head.fileOffset = sect.head.fileOffset
  within : ∀ reads, sect.Within sect' reads
  balanced : sect'.head.Balanced itmSize
  bordered : sect'.head.Bordered

theorem Sect.Fills.stays {itmSize : ℕ} {sect sect' : Sect}
    (h : sect.Fills itmSize sect') : sect.Stays sect' :=
  ⟨h.fileOffset, (h.within True).confined⟩

theorem SectHead.Balanced.free_eq {itmSize : ℕ} {head : SectHead}
    (h : head.Balanced itmSize) (hle : head.lstItmPtr ≤ head.fstRecPtr) :
    head.freeSpace = head.fstRecPtr - head.lstItmPtr := by
  have hlt := h.free_lt
  have hfree := h.free
  omega

theorem SectHead.Balanced.of_free_eq {itmSize : ℕ} {head : SectHead}
    (hle : head.lstItmPtr ≤ head.fstRecPtr)
    (hfrp : head.fstRecPtr < 2 ^ 64)
    (hfree : head.freeSpace = head.fstRecPtr - head.lstItmPtr)
    (haligned : ∃ count, head.lstItmPtr = 32 + itmSize * count) :
    head.Balanced itmSize where
  free_lt := by omega
  free := by
    rw [hfree, Nat.sub_add_cancel hle, Nat.mod_eq_of_lt hfrp]
  aligned := haligned

theorem SectHead.Balanced.of_sizeSub {itmSize : ℕ} {head : SectHead}
    (hfrp : head.fstRecPtr < 2 ^ 64)
    (hfree : head.freeSpace = sizeSub head.fstRecPtr head.lstItmPtr)
    (haligned : ∃ count, head.lstItmPtr = 32 + itmSize * count) :
    head.Balanced itmSize where
  free_lt := by
    rw [hfree, sizeSub]
    unfold sizeMax
    split <;> omega
  free := by
    rw [hfree, sizeSub]
    unfold sizeMax
    split <;> omega
  aligned := haligned

/-! ## Staying in the section -/

namespace Sect.Stays

variable {sect sect' sect'' : Sect}

theorem refl : sect.Stays sect := ⟨rfl, .refl⟩

theorem trans (h : sect.Stays sect') (h' : sect'.Stays sect'') :
    sect.Stays sect'' where
  fileOffset := h'.fileOffset.trans h.fileOffset
  confined := by
    have hnext := h'.confined
    rw [h.fileOffset] at hnext
    exact h.confined.trans hnext

theorem of_moved (h : sect.Moved sect') : sect.Stays sect' where
  fileOffset := h.fileOffset
  confined := ⟨fun index _ => congrFun h.cell index, h.size.ge⟩

theorem of_quiet (h : sect.Quiet sect') : sect.Stays sect' :=
  of_moved (.of_quiet h)

theorem of_file (h : sect.Stays sect')
    (hoffset : sect''.head.fileOffset = sect'.head.fileOffset)
    (hfile : sect''.file = sect'.file) : sect.Stays sect'' where
  fileOffset := hoffset.trans h.fileOffset
  confined := by
    rw [hfile]
    exact h.confined

theorem withHead {head : SectHead}
    (hoffset : head.fileOffset = sect.head.fileOffset) :
    sect.Stays (sect.withHead head) where
  fileOffset := hoffset
  confined := by
    rw [Sect.withHead_file, hoffset]
    apply Storage.Confined.write le_rfl
    rw [SectHead.length_bytes, sizeofSectHeadEntity]
    exact Nat.add_le_add_left (by norm_num) _

theorem putAt {soff : ℕ} {data : List Byte}
    (hfit : soff + data.length ≤ 8192) :
    sect.Stays (sect.putAt soff data) where
  fileOffset := rfl
  confined := by
    rw [Sect.putAt_file]
    apply Storage.Confined.put <;> omega

end Sect.Stays

theorem Sect.synced_withHead (sect : Sect) (head : SectHead) :
    (sect.withHead head).Synced := by
  rw [Sect.Synced, Sect.withHead_head, Sect.withHead_file,
    ← head.length_bytes]
  exact Storage.bytes_write_same _ _ _

theorem Sect.Settled.withHead {itmSize : ℕ} {sect last : Sect}
    {head : SectHead} (hstays : sect.Stays last)
    (hoffset : head.fileOffset = last.head.fileOffset)
    (hbalanced : head.Balanced itmSize) :
    sect.Settled itmSize (last.withHead head) where
  stays := hstays.trans (.withHead hoffset)
  synced := last.synced_withHead head
  balanced := hbalanced

theorem sectHeadRead_of_ok {sect sect' : Sect} {soff size : ℕ}
    {data : List Byte} (h : sectHeadRead soff size sect = .ok data sect') :
    sect.Quiet sect' := by
  obtain ⟨found, read, hstatus, hquiet, -⟩ :=
    sectHeadRead_status soff size sect
  rw [Prog.status_of_ok h] at hstatus
  injection hstatus with _ hsect
  rw [hsect]
  exact hquiet

theorem sectHeadRead_bytes {sect sect' : Sect} {soff size : ℕ}
    {data : List Byte} (hpos : 0 < size) (hsoff : soff < 2 ^ 63)
    (h : sectHeadRead soff size sect = .ok data sect') :
    data = sect.file.bytes (sect.head.fileOffset + soff) size := by
  by_cases hle : sect.head.fileOffset + soff + size ≤ sect.file.size
  · rw [sectHeadRead_of_le hpos hsoff hle] at h
    injection h with hdata _
    exact hdata.symm
  · rw [sectHeadRead_of_lt hpos hsoff (by omega)] at h
    cases h

/-! ## The scans of the borders -/

theorem cmprsLipLoop_ok {itmSize : ℕ} (fuel : ℕ) {sect sect' : Sect}
    {data : Option (List Byte)} (hsize : itmSize ≤ 8192)
    (hlip : sect.head.lstItmPtr ≤ 8192)
    (hbalanced : sect.head.Balanced itmSize)
    (h : cmprsLipLoop itmSize fuel data sect = .ok () sect') :
    sect.Moved sect' ∧ sect'.head.Balanced itmSize ∧
      sect'.head.lstItmPtr ≤ sect.head.lstItmPtr ∧
      sect'.head.fstRecPtr = sect.head.fstRecPtr := by
  induction fuel generalizing sect data with
  | zero => cases h
  | succ fuel ih =>
      by_cases hbottom : sect.head.lstItmPtr = 32
      · rw [cmprsLipLoop_bottom hbottom] at h
        injection h with _ hsect
        subst hsect
        exact ⟨.refl, hbalanced, le_rfl, rfl⟩
      · obtain ⟨count, hcount⟩ := hbalanced.aligned
        cases data with
        | none =>
            have htest : ¬ sect.head.lstItmPtr = sizeofSectHeadEntity :=
              hbottom
            simp only [cmprsLipLoop, Prog.bind_apply, Sect.getHead_apply,
              if_neg htest, Prog.stuck_apply] at h
            cases h
        | some zeros =>
            by_cases hzeros : isZeroed zeros = true
            · obtain ⟨next, hnext⟩ : ∃ next : Sect, next =
                  { sect with head := { sect.head with
                    lstItmPtr := sizeSub sect.head.lstItmPtr itmSize
                    freeSpace := sizeAdd sect.head.freeSpace itmSize } } :=
                ⟨_, rfl⟩
              have hmoved : sect.Moved next := by
                rw [hnext]
                exact ⟨rfl, rfl, rfl, rfl⟩
              obtain ⟨data, read, hread, hquiet, -⟩ := sectHeadRead_status
                (sizeSub next.head.lstItmPtr itmSize) itmSize next
              have hpos : count ≠ 0 := by
                intro hzero
                rw [hzero, Nat.mul_zero] at hcount
                exact hbottom hcount
              obtain ⟨earlier, rfl⟩ := Nat.exists_eq_succ_of_ne_zero hpos
              rw [Nat.mul_succ] at hcount
              have hlip' : next.head.lstItmPtr =
                  sect.head.lstItmPtr - itmSize := by
                rw [hnext]
                exact sizeSub_of_le (by omega) (by omega)
              have hfrp' : next.head.fstRecPtr = sect.head.fstRecPtr := by
                rw [hnext]
              have hfree' : next.head.freeSpace =
                  sizeAdd sect.head.freeSpace itmSize := by
                rw [hnext]
              have hbalanced' : next.head.Balanced itmSize := by
                have hfree := hbalanced.free
                have hlt := hbalanced.free_lt
                refine ⟨?_, ?_, earlier, ?_⟩
                · rw [hfree', sizeAdd]
                  exact Nat.mod_lt _ (by unfold sizeMax; omega)
                · rw [hfree', hlip', hfrp', sizeAdd, sizeMax]
                  omega
                · omega
              rw [cmprsLipLoop_zero hbottom hzeros hnext hread] at h
              obtain ⟨hmoved', hbalanced', hle, hfrp⟩ := ih
                (by rw [hquiet.head]; omega)
                (by rw [hquiet.head]; exact hbalanced') h
              rw [hquiet.head] at hle hfrp
              exact ⟨hmoved.trans ((Sect.Moved.of_quiet hquiet).trans
                hmoved'), hbalanced', by omega, hfrp.trans hfrp'⟩
            · rw [cmprsLipLoop_live
                (Bool.eq_false_iff.mpr hzeros)] at h
              injection h with _ hsect
              subst hsect
              exact ⟨.refl, hbalanced, le_rfl, rfl⟩

theorem cmprsFrpLoop_ok {itmSize : ℕ} (fuel : ℕ) {sect sect' : Sect}
    {chr : Option Byte} (hbalanced : sect.head.Balanced itmSize)
    (h : cmprsFrpLoop fuel chr sect = .ok () sect') :
    sect.Moved sect' ∧ sect'.head.Balanced itmSize ∧
      sect'.head.lstItmPtr = sect.head.lstItmPtr ∧
      (sect.head.fstRecPtr ≤ 8192 →
        sect.head.fstRecPtr ≤ sect'.head.fstRecPtr ∧
          sect'.head.fstRecPtr ≤ 8192) := by
  induction fuel generalizing sect chr with
  | zero => cases h
  | succ fuel ih =>
      obtain ⟨data, read, hread, hquiet, -⟩ :=
        sectHeadRead_status sect.head.fstRecPtr 1 sect
      have hstop : sect.Moved read ∧ read.head.Balanced itmSize ∧
          read.head.lstItmPtr = sect.head.lstItmPtr ∧
          (sect.head.fstRecPtr ≤ 8192 →
            sect.head.fstRecPtr ≤ read.head.fstRecPtr ∧
              read.head.fstRecPtr ≤ 8192) := by
        rw [hquiet.head]
        exact ⟨.of_quiet hquiet, hbalanced, rfl,
          fun hle => ⟨le_rfl, hle⟩⟩
      rw [cmprsFrpLoop, Prog.bind_of_ok (Sect.getHead_apply sect),
        Prog.bind_of_ok hread] at h
      by_cases htop : sect.head.fstRecPtr = SECTION_SIZE
      · rw [if_pos htop] at h
        injection h with _ hsect
        subst hsect
        exact hstop
      · rw [if_neg htop] at h
        cases hchr : (data.bind List.head?).or chr with
        | none =>
            rw [hchr] at h
            cases h
        | some value =>
            rw [hchr] at h
            simp only at h
            by_cases hvalue : value ≠ 0
            · rw [if_pos hvalue] at h
              injection h with _ hsect
              subst hsect
              exact hstop
            · obtain ⟨next, hnext⟩ : ∃ next : Sect, next =
                  { read with head := { sect.head with
                    fstRecPtr := sizeAdd sect.head.fstRecPtr 1
                    freeSpace := sizeAdd sect.head.freeSpace 1 } } :=
                ⟨_, rfl⟩
              have hset : Sect.setHead { sect.head with
                  fstRecPtr := sizeAdd sect.head.fstRecPtr 1
                  freeSpace := sizeAdd sect.head.freeSpace 1 } read =
                    .ok () next := by
                rw [hnext]
                rfl
              rw [if_neg hvalue, Prog.bind_of_ok hset] at h
              have hmoved : sect.Moved next := by
                rw [hnext]
                exact ⟨rfl, rfl, hquiet.cell, hquiet.size⟩
              have hlip' : next.head.lstItmPtr = sect.head.lstItmPtr := by
                rw [hnext]
              have hfrp' : next.head.fstRecPtr =
                  sizeAdd sect.head.fstRecPtr 1 := by
                rw [hnext]
              have hfree' : next.head.freeSpace =
                  sizeAdd sect.head.freeSpace 1 := by
                rw [hnext]
              have hbalanced' : next.head.Balanced itmSize := by
                have hfree := hbalanced.free
                have hlt := hbalanced.free_lt
                refine ⟨?_, ?_, ?_⟩
                · rw [hfree', sizeAdd, sizeMax]
                  omega
                · rw [hfree', hlip', hfrp', sizeAdd, sizeAdd, sizeMax]
                  omega
                · rw [hlip']
                  exact hbalanced.aligned
              obtain ⟨hmoved', hbalanced'', hlip, hfrp⟩ := ih hbalanced' h
              refine ⟨hmoved.trans hmoved', hbalanced'', hlip.trans hlip',
                fun hle => ?_⟩
              rw [SECTION_SIZE] at htop
              rw [hfrp', sizeAdd_of_lt (by omega)] at hfrp
              have hnextLe := hfrp (by omega)
              omega

theorem sectHeadCmprsLip_ok {itmSize : ℕ} {sect sect' : Sect}
    (hsize : itmSize ≤ 8192) (hlip : sect.head.lstItmPtr ≤ 8192)
    (hbalanced : sect.head.Balanced itmSize)
    (h : sectHeadCmprsLip itmSize sect = .ok () sect') :
    sect.Settled itmSize sect' ∧
      sect'.head.lstItmPtr ≤ sect.head.lstItmPtr ∧
      sect'.head.fstRecPtr = sect.head.fstRecPtr := by
  obtain ⟨data, read, hread, hquiet, -⟩ := sectHeadRead_status
    (sizeSub sect.head.lstItmPtr itmSize) itmSize sect
  rw [sectHeadCmprsLip, Prog.bind_of_ok (Sect.getHead_apply sect),
    Prog.bind_of_ok hread] at h
  obtain ⟨_, last, hloop, hsync⟩ := Prog.bind_eq_ok h
  obtain ⟨hmoved, hbalanced', hle, hfrp⟩ := cmprsLipLoop_ok _ hsize
    (by rw [hquiet.head]; exact hlip) (by rw [hquiet.head]; exact hbalanced)
    hloop
  rw [hquiet.head] at hle hfrp
  rw [sectHeadSync_apply] at hsync
  injection hsync with _ hsect
  rw [← hsect]
  exact ⟨.withHead (.of_moved ((Sect.Moved.of_quiet hquiet).trans hmoved))
    rfl hbalanced', hle, hfrp⟩

theorem sectHeadCmprsFrp_ok {itmSize : ℕ} {sect sect' : Sect}
    (hbalanced : sect.head.Balanced itmSize)
    (h : sectHeadCmprsFrp sect = .ok () sect') :
    sect.Settled itmSize sect' ∧
      sect'.head.lstItmPtr = sect.head.lstItmPtr ∧
      (sect.head.fstRecPtr ≤ 8192 →
        sect.head.fstRecPtr ≤ sect'.head.fstRecPtr ∧
          sect'.head.fstRecPtr ≤ 8192) := by
  rw [sectHeadCmprsFrp, Prog.bind_of_ok (Sect.getHead_apply sect)] at h
  obtain ⟨_, last, hloop, hsync⟩ := Prog.bind_eq_ok h
  obtain ⟨hmoved, hbalanced', hlip, hfrp⟩ :=
    cmprsFrpLoop_ok _ hbalanced hloop
  rw [sectHeadSync_apply] at hsync
  injection hsync with _ hsect
  rw [← hsect]
  exact ⟨.withHead (.of_moved hmoved) rfl hbalanced', hlip, hfrp⟩

theorem cmprsLipLoop_not_failed {itmSize : ℕ} (fuel : ℕ)
    {sect sect' : Sect} {data : Option (List Byte)} :
    cmprsLipLoop itmSize fuel data sect ≠ .failed sect' := by
  induction fuel generalizing sect data with
  | zero => exact nofun
  | succ fuel ih =>
      intro h
      rw [cmprsLipLoop, Prog.bind_of_ok (Sect.getHead_apply sect)] at h
      by_cases hbottom : sect.head.lstItmPtr = sizeofSectHeadEntity
      · rw [if_pos hbottom] at h
        cases h
      · rw [if_neg hbottom] at h
        cases data with
        | none => cases h
        | some zeros =>
            simp only at h
            split at h
            · rw [Prog.bind_of_ok (Sect.setHead_apply _ sect)] at h
              obtain ⟨data, read, hread, -⟩ := sectHeadRead_status
                (sizeSub (sizeSub sect.head.lstItmPtr itmSize) itmSize)
                itmSize { sect with head := { sect.head with
                  lstItmPtr := sizeSub sect.head.lstItmPtr itmSize
                  freeSpace := sizeAdd sect.head.freeSpace itmSize } }
              rw [Prog.bind_of_ok hread] at h
              exact ih h
            · cases h

theorem cmprsFrpLoop_not_failed (fuel : ℕ) {sect sect' : Sect}
    {chr : Option Byte} : cmprsFrpLoop fuel chr sect ≠ .failed sect' := by
  induction fuel generalizing sect chr with
  | zero => exact nofun
  | succ fuel ih =>
      intro h
      obtain ⟨data, read, hread, -⟩ :=
        sectHeadRead_status sect.head.fstRecPtr 1 sect
      rw [cmprsFrpLoop, Prog.bind_of_ok (Sect.getHead_apply sect),
        Prog.bind_of_ok hread] at h
      by_cases htop : sect.head.fstRecPtr = SECTION_SIZE
      · rw [if_pos htop] at h
        cases h
      · rw [if_neg htop] at h
        cases hchr : (data.bind List.head?).or chr with
        | none =>
            rw [hchr] at h
            cases h
        | some value =>
            rw [hchr] at h
            simp only at h
            split at h
            · cases h
            · rw [Prog.bind_of_ok (Sect.setHead_apply _ read)] at h
              exact ih h

theorem sectHeadCmprsLip_not_failed {itmSize : ℕ} {sect sect' : Sect} :
    sectHeadCmprsLip itmSize sect ≠ .failed sect' := by
  intro h
  obtain ⟨data, read, hread, -⟩ := sectHeadRead_status
    (sizeSub sect.head.lstItmPtr itmSize) itmSize sect
  rw [sectHeadCmprsLip, Prog.bind_of_ok (Sect.getHead_apply sect),
    Prog.bind_of_ok hread] at h
  rcases Prog.bind_eq_failed h with h | ⟨_, last, -, h⟩
  · exact cmprsLipLoop_not_failed _ h
  · cases h

theorem sectHeadCmprsFrp_not_failed {sect sect' : Sect} :
    sectHeadCmprsFrp sect ≠ .failed sect' := by
  intro h
  rw [sectHeadCmprsFrp, Prog.bind_of_ok (Sect.getHead_apply sect)] at h
  rcases Prog.bind_eq_failed h with h | ⟨_, last, -, h⟩
  · exact cmprsFrpLoop_not_failed _ h
  · cases h

/-! ## Extents sections -/

structure Entity.Inside (entity : Entity) : Prop where
  start : entity.valSize ≤ entity.keyPtr
  stop : entity.keyPtr + entity.keySize ≤ SECTION_SIZE

section Extents

variable {sect sect' : Sect} {soff : ℕ} {key : Str} {val : List Byte}
  {entity : Entity}

theorem writtenSect_stays
    (hlip : sect.head.lstItmPtr + 80 ≤ 8192)
    (hfit : key.cnt + val.length ≤ sect.head.fstRecPtr)
    (hfrp : sect.head.fstRecPtr ≤ 8192) :
    sect.Stays (writtenSect sect key val entity) where
  fileOffset := rfl
  confined := (@writtenSect_within sect key val entity hlip hfit hfrp
    True).confined

theorem sectExtWrite_fits {value : ℕ × Entity}
    (h : sectExtWrite key val entity sect = .ok value sect') :
    80 + key.cnt + val.length ≤ sect.head.freeSpace := by
  by_contra hfree
  rw [sectExtWrite_refused (by omega)] at h
  cases h

theorem sectExtWrite_fills {value : ℕ × Entity}
    (hbalanced : sect.head.Balanced 80) (hbordered : sect.head.Bordered)
    (h : sectExtWrite key val entity sect = .ok value sect') :
    sect.Fills 80 sect' ∧ sect'.Synced ∧
      value.1 = sect.head.lstItmPtr ∧ value.1 + 80 ≤ 8192 := by
  obtain ⟨hlipGe, hlipLe, hfrpLe⟩ := hbordered
  rw [sizeofSectHeadEntity] at hlipGe
  rw [SECTION_SIZE] at hfrpLe
  have hfree := hbalanced.free_eq hlipLe
  have hfits := sectExtWrite_fits h
  rw [sectExtWrite_eq (by omega) hfrpLe hfits] at h
  injection h with hvalue hsect
  rw [← hsect, ← hvalue]
  obtain ⟨count, hcount⟩ := hbalanced.aligned
  generalize entity.placed sect.head key val = entity
  have hfills : sect.Fills 80 (writtenSect sect key val entity) := by
    refine ⟨rfl, fun reads =>
      writtenSect_within (by omega) (by omega) hfrpLe, ?_, ?_⟩
    · rw [writtenSect_head]
      refine .of_free_eq ?_ ?_ ?_ ⟨count + 1, ?_⟩ <;>
        simp only [SectHead.raise, SectHead.lower] <;> omega
    · rw [writtenSect_head]
      refine ⟨?_, ?_, ?_⟩ <;>
        simp only [SectHead.raise, SectHead.lower, sizeofSectHeadEntity,
          SECTION_SIZE] <;> omega
  refine ⟨hfills, Sect.synced_withHead _ _, rfl, ?_⟩
  simp only
  omega

theorem sectExtWrite_settled {value : ℕ × Entity}
    (hbalanced : sect.head.Balanced 80) (hbordered : sect.head.Bordered)
    (h : sectExtWrite key val entity sect = .ok value sect') :
    sect.Settled 80 sect' := by
  obtain ⟨hfills, hsynced, -⟩ := sectExtWrite_fills hbalanced hbordered h
  exact ⟨hfills.stays, hsynced, hfills.balanced⟩

theorem sectExtRdItm_ok (hsoff : soff < 2 ^ 63)
    (h : sectExtRdItm soff sect = .ok entity sect') :
    sect.Quiet sect' ∧ entity = sect.entityAt soff := by
  obtain ⟨data, read, hread, hpure⟩ := Prog.bind_eq_ok h
  rw [Prog.pure_apply] at hpure
  injection hpure with hentity hsect
  subst hsect
  refine ⟨sectHeadRead_of_ok hread, ?_⟩
  rw [← hentity, sectHeadRead_bytes (by norm_num [sizeofEntity]) hsoff
    hread]
  rfl

theorem sectExtRdItm_again {read : Sect} (hsoff : soff < 2 ^ 63)
    (hquiet : sect.Quiet read)
    (h : sectExtRdItm soff sect = .ok entity sect') :
    ∃ again, sectExtRdItm soff read = .ok entity again := by
  obtain ⟨data, middle, hdata, hpure⟩ := Prog.bind_eq_ok h
  by_cases hle : sect.head.fileOffset + soff + 80 ≤ sect.file.size
  · have hdata' : data = read.file.bytes
        (read.head.fileOffset + soff) 80 := by
      rw [hquiet.head, hquiet.bytes]
      exact sectHeadRead_bytes (by norm_num [sizeofEntity]) hsoff hdata
    rw [Prog.pure_apply] at hpure
    injection hpure with hentity _
    rw [sectExtRdItm, Prog.bind_of_ok (sectHeadRead_of_le
      (by norm_num [sizeofEntity]) hsoff
      (by rw [hquiet.head, hquiet.size]; exact hle)), Prog.pure_apply,
      ← hentity, hdata']
    exact ⟨_, rfl⟩
  · rw [sectHeadRead_of_lt (by norm_num [sizeofEntity]) hsoff
      (by rw [sizeofEntity]; omega)] at hdata
    cases hdata

theorem sectExtRead_settled {value : Entity × Str × JsonValue}
    (hbalanced : sect.head.Balanced 80)
    (h : sectExtRead soff sect = .ok value sect') :
    sect.Settled 80 sect' := by
  obtain ⟨entity, item, hitem, h⟩ := Prog.bind_eq_ok h
  obtain ⟨data, read, hread, hpure⟩ := Prog.bind_eq_ok hitem
  rw [Prog.pure_apply] at hpure
  injection hpure with _ hsect
  subst hsect
  obtain ⟨key, keyed, hkey, h⟩ := Prog.bind_eq_ok h
  have hquiet := (sectHeadRead_of_ok hread).trans (sectHeadRead_of_ok hkey)
  cases htype : JsonType.ofCode? entity.type with
  | none =>
      rw [htype] at h
      cases h
  | some type =>
      rw [htype] at h
      -- Both ways to get the data end in the same call.
      have hlast : ∀ {readOut : JsonValue} {valued : Sect},
          sect.Quiet valued →
          (do
            sectHeadSync
            return (entity, stringCtor key, readOut) : Prog Sect _) valued =
              .ok value sect' → sect.Settled 80 sect' := by
        intro readOut valued hvalued h
        simp only [Prog.bind_apply, sectHeadSync_apply,
          Prog.pure_apply] at h
        injection h with _ hsect
        rw [← hsect]
        refine .withHead (.of_quiet hvalued) rfl ?_
        rw [hvalued.head]
        exact hbalanced
      simp only at h
      by_cases hobject : type = .object
      · rw [if_pos hobject, Prog.bind_of_ok (Prog.pure_apply _ _)] at h
        cases hvalue : readValue type [] with
        | none =>
            rw [hvalue] at h
            cases h
        | some readOut =>
            rw [hvalue] at h
            exact hlast hquiet h
      · rw [if_neg hobject] at h
        obtain ⟨data, valued, hdata, h⟩ := Prog.bind_eq_ok h
        cases hvalue : readValue type data with
        | none =>
            rw [hvalue] at h
            cases h
        | some readOut =>
            rw [hvalue] at h
            exact hlast (hquiet.trans (sectHeadRead_of_ok hdata)) h

theorem sectExtShiftLast_stays (hbalanced : sect.head.Balanced 80)
    (hbordered : sect.head.Bordered)
    (hsoff : soff + 80 ≤ sect.head.lstItmPtr)
    (hrecSz : entityRecSz entity ≤ 8192) :
    ∃ sect', sectExtShiftLast soff entity sect = .ok () sect' ∧
      sect.Stays sect' ∧ sect'.head.Balanced 80 ∧
      sect'.head.lstItmPtr ≤ sect.head.lstItmPtr ∧
      (sect'.head.fstRecPtr = sect.head.fstRecPtr ∨
        soff + 80 = sect.head.lstItmPtr ∧
          sect'.head.fstRecPtr =
            sect.head.fstRecPtr + entityRecSz entity) := by
  obtain ⟨hlipGe, hlipLe, hfrpLe⟩ := hbordered
  rw [SECTION_SIZE] at hfrpLe
  have hfree := hbalanced.free_eq hlipLe
  have hadd : sizeAdd soff sizeofEntity = soff + 80 :=
    sizeAdd_of_lt (by rw [sizeofEntity]; omega)
  rw [sectExtShiftLast, Prog.bind_of_ok (Sect.getHead_apply sect), hadd]
  by_cases hlast : soff + 80 = sect.head.lstItmPtr
  · rw [if_pos hlast]
    obtain ⟨lip, hlip⟩ : ∃ lip, lip = sect.withHead { sect.head with
        freeSpace := sect.head.freeSpace + 80
        lstItmPtr := sect.head.lstItmPtr - 80 } := ⟨_, rfl⟩
    have hshift : sectHeadShiftLip (sizeNeg sizeofEntity) sect =
        .ok () lip := by
      rw [hlip]
      exact sectHeadShiftLip_neg (by rw [sizeofEntity]; omega) (by omega)
        (by rw [sizeofEntity]; omega)
    have hfreeLip : lip.head.freeSpace = sect.head.freeSpace + 80 := by
      rw [hlip, Sect.withHead_head]
    have hlipLip : lip.head.lstItmPtr = sect.head.lstItmPtr - 80 := by
      rw [hlip, Sect.withHead_head]
    have hfrpLip : lip.head.fstRecPtr = sect.head.fstRecPtr := by
      rw [hlip, Sect.withHead_head]
    have hstays : sect.Stays lip := by
      rw [hlip]
      exact .withHead rfl
    obtain ⟨count, hcount⟩ := hbalanced.aligned
    have hpos : count ≠ 0 := by omega
    obtain ⟨earlier, rfl⟩ := Nat.exists_eq_succ_of_ne_zero hpos
    refine ⟨_, (Prog.bind_of_ok hshift).trans
      (sectHeadShiftFrp_of_lt (by omega) (by omega)),
      hstays.trans (.withHead rfl), .of_free_eq ?_ ?_ ?_ ⟨earlier, ?_⟩, ?_,
      Or.inr ⟨hlast, ?_⟩⟩ <;>
      rw [Sect.withHead_head] <;> simp only <;> omega
  · rw [if_neg hlast]
    exact ⟨sect, rfl, .refl, hbalanced, le_rfl, Or.inl rfl⟩

theorem sectExtDelete_wiped {read : Sect}
    (hbalanced : sect.head.Balanced 80) (hbordered : sect.head.Bordered)
    (hsoff : soff + 80 ≤ sect.head.lstItmPtr)
    (hinside : (sect.entityAt soff).Inside)
    (hread : sectExtRdItm soff sect = .ok entity read) :
    ∃ wiped, sectExtDelete soff sect = (do
        sectHeadCmprsLip sizeofEntity
        sectHeadCmprsFrp
        sectHeadSync
        return entity) wiped ∧
      sect.Stays wiped ∧ wiped.head.Balanced 80 ∧
      wiped.head.lstItmPtr ≤ sect.head.lstItmPtr ∧
      (wiped.head.fstRecPtr = sect.head.fstRecPtr ∨
        soff + 80 = sect.head.lstItmPtr ∧ wiped.head.fstRecPtr =
          sect.head.fstRecPtr + entityRecSz (sect.entityAt soff)) := by
  have hlipLe := hbordered.lip_le
  have hfrpLe : sect.head.fstRecPtr ≤ 8192 := hbordered.frp_le
  obtain ⟨hquiet, rfl⟩ := sectExtRdItm_ok (by omega) hread
  obtain ⟨hstart, hstop⟩ := hinside
  rw [SECTION_SIZE] at hstop
  have hrecSz : entityRecSz (sect.entityAt soff) =
      (sect.entityAt soff).keySize + (sect.entityAt soff).valSize := rfl
  have hhead := hquiet.head
  obtain ⟨shifted, hshift, hstays, hbalanced', hlip, hfrp⟩ :=
    @sectExtShiftLast_stays read soff (sect.entityAt soff)
      (by rw [hhead]; exact hbalanced) (by rw [hhead]; exact hbordered)
      (by rw [hhead]; exact hsoff) (by omega)
  rw [hhead] at hlip hfrp
  have hkey : sizeSub (sect.entityAt soff).keyPtr
      (sect.entityAt soff).valSize =
        (sect.entityAt soff).keyPtr - (sect.entityAt soff).valSize :=
    sizeSub_of_le hstart (by omega)
  obtain ⟨zeroed, hzeroed⟩ : ∃ zeroed, zeroed = shifted.putAt
      ((sect.entityAt soff).keyPtr - (sect.entityAt soff).valSize)
      (List.replicate (entityRecSz (sect.entityAt soff)) 0) := ⟨_, rfl⟩
  obtain ⟨wiped, hwiped⟩ : ∃ wiped, wiped =
      zeroed.putAt soff entityClear.bytes := ⟨_, rfl⟩
  have hheadWiped : wiped.head = shifted.head := by
    rw [hwiped, Sect.putAt_head, hzeroed, Sect.putAt_head]
  refine ⟨wiped, ?_, ?_, ?_, ?_, ?_⟩
  · rw [sectExtDelete, Prog.bind_of_ok hread, Prog.bind_of_ok hshift, hkey,
      Prog.bind_of_ok (sectHeadWrite_of_lt _ (by omega)), ← hzeroed,
      sectExtWrtItm, Prog.bind_of_ok (sectHeadWrite_of_lt _ (by omega)),
      ← hwiped]
  · have hzeroedStays : shifted.Stays zeroed := by
      rw [hzeroed]
      apply Sect.Stays.putAt
      rw [List.length_replicate]
      omega
    have hwipedStays : zeroed.Stays wiped := by
      rw [hwiped]
      apply Sect.Stays.putAt
      rw [Entity.length_bytes, sizeofEntity]
      omega
    exact (Sect.Stays.of_quiet hquiet).trans (hstays.trans
      (hzeroedStays.trans hwipedStays))
  · rw [hheadWiped]
    exact hbalanced'
  · rw [hheadWiped]
    exact hlip
  · rw [hheadWiped]
    exact hfrp

theorem sectExtDelete_settled {gone : Entity}
    (hbalanced : sect.head.Balanced 80) (hbordered : sect.head.Bordered)
    (hsoff : soff + 80 ≤ sect.head.lstItmPtr)
    (hinside : (sect.entityAt soff).Inside)
    (h : sectExtDelete soff sect = .ok gone sect') :
    sect.Settled 80 sect' ∧
      sect'.head.lstItmPtr ≤ sect.head.lstItmPtr ∧
      ((soff + 80 = sect.head.lstItmPtr → sect.head.fstRecPtr +
          entityRecSz (sect.entityAt soff) ≤ 8192) →
        sect.head.fstRecPtr ≤ sect'.head.fstRecPtr ∧
          sect'.head.fstRecPtr ≤ 8192) := by
  have hlipLe := hbordered.lip_le
  have hfrpLe : sect.head.fstRecPtr ≤ 8192 := hbordered.frp_le
  obtain ⟨entity, read, hread, -⟩ := Prog.bind_eq_ok h
  obtain ⟨wiped, hdelete, hstays, hbalanced', hlip, hfrp⟩ :=
    sectExtDelete_wiped hbalanced hbordered hsoff hinside hread
  rw [hdelete] at h
  obtain ⟨_, lip, hcmprsLip, h⟩ := Prog.bind_eq_ok h
  obtain ⟨hsettledLip, hlipLip, hfrpLip⟩ := sectHeadCmprsLip_ok
    (by norm_num [sizeofEntity]) (by omega) hbalanced' hcmprsLip
  obtain ⟨_, frp, hcmprsFrp, h⟩ := Prog.bind_eq_ok h
  obtain ⟨hsettledFrp, hlipFrp, hfrpFrp⟩ := sectHeadCmprsFrp_ok
    hsettledLip.balanced hcmprsFrp
  rw [Prog.bind_of_ok (sectHeadSync_apply frp), Prog.pure_apply] at h
  injection h with _ hsect
  rw [← hsect]
  rw [hfrpLip] at hfrpFrp
  refine ⟨.withHead (hstays.trans (hsettledLip.stays.trans
    hsettledFrp.stays)) rfl hsettledFrp.balanced, ?_, fun hlast => ?_⟩
  · rw [Sect.withHead_head]
    omega
  · rw [Sect.withHead_head]
    rcases hfrp with hsame | ⟨heq, hmoved⟩
    · omega
    · have hroom := hlast heq
      omega

theorem sectExtDelete_not_failed {read : Sect}
    (hbalanced : sect.head.Balanced 80) (hbordered : sect.head.Bordered)
    (hsoff : soff + 80 ≤ sect.head.lstItmPtr)
    (hinside : (sect.entityAt soff).Inside)
    (hread : sectExtRdItm soff sect = .ok entity read) :
    sectExtDelete soff sect ≠ .failed sect' := by
  obtain ⟨wiped, hdelete, -⟩ :=
    sectExtDelete_wiped hbalanced hbordered hsoff hinside hread
  rw [hdelete]
  intro h
  rcases Prog.bind_eq_failed h with h | ⟨_, lip, -, h⟩
  · exact sectHeadCmprsLip_not_failed h
  · rcases Prog.bind_eq_failed h with h | ⟨_, frp, -, h⟩
    · exact sectHeadCmprsFrp_not_failed h
    · rw [Prog.bind_of_ok (sectHeadSync_apply frp)] at h
      cases h

theorem sectExtWrite_ok {value : ℕ × Entity}
    (hlip : sect.head.lstItmPtr + 80 ≤ 8192)
    (hfrp : sect.head.fstRecPtr ≤ 8192)
    (hfree : sect.head.freeSpace ≤ sect.head.fstRecPtr)
    (h : sectExtWrite key val entity sect = .ok value sect') :
    sect.Stays sect' ∧ sect'.head.fstRecPtr ≤ 8192 := by
  have hfits := sectExtWrite_fits h
  rw [sectExtWrite_of_fit (by omega) (by omega) hfrp hfits (by omega)] at h
  injection h with _ hsect
  rw [← hsect]
  refine ⟨writtenSect_stays hlip (by omega) hfrp, ?_⟩
  rw [writtenSect_head, SectHead.raise, SectHead.lower, SectHead.lower]
  simp only
  omega

theorem updateEnd_settled {written : Sect} {lip : ℕ}
    (hstays : sect.Stays written) (hfrp : written.head.fstRecPtr ≤ 8192)
    (hlip : ∃ count, lip = 32 + 80 * count)
    (h : (do
      Sect.setHead { written.head with
        lstItmPtr := lip
        freeSpace := sizeSub written.head.fstRecPtr lip }
      sectHeadSync : Prog Sect Unit) written = .ok () sect') :
    sect.Settled 80 sect' := by
  obtain ⟨last, hlast⟩ : ∃ last : Sect, last = { written with
      head := { written.head with
        lstItmPtr := lip
        freeSpace := sizeSub written.head.fstRecPtr lip } } := ⟨_, rfl⟩
  rw [Prog.bind_of_ok (Sect.setHead_apply _ written), ← hlast,
    sectHeadSync_apply] at h
  injection h with _ hsect
  rw [← hsect]
  refine .withHead (hstays.of_file ?_ ?_) rfl ?_
  · rw [hlast]
  · rw [hlast]
  · rw [hlast]
    exact .of_sizeSub (by simp only; omega) rfl hlip

theorem sectExtUpdateBorder_settled {old : Entity}
    (hbalanced : sect.head.Balanced 80) (hbordered : sect.head.Bordered)
    (hsoff : soff + 80 ≤ sect.head.lstItmPtr)
    (hstop : sect.head.fstRecPtr + old.initRecSz ≤ 8192)
    (h : sectExtUpdateBorder soff key val entity old sect = .ok () sect') :
    sect.Settled 80 sect' := by
  have hlipLe := hbordered.lip_le
  have hadd : sizeAdd sect.head.fstRecPtr old.initRecSz =
      sect.head.fstRecPtr + old.initRecSz := sizeAdd_of_lt (by omega)
  have hsub : sizeSub (sect.head.fstRecPtr + old.initRecSz) soff =
      sect.head.fstRecPtr + old.initRecSz - soff :=
    sizeSub_of_le (by omega) (by omega)
  obtain ⟨stop, hstopEq⟩ : ∃ stop, stop =
      sect.head.fstRecPtr + old.initRecSz := ⟨_, rfl⟩
  rw [← hstopEq] at hadd hsub hstop
  obtain ⟨pointed, hpointed⟩ : ∃ pointed,
      pointed = sect.pointed soff stop (stop - soff) := ⟨_, rfl⟩
  have hset : Sect.setHead { sect.head with
      lstItmPtr := soff
      fstRecPtr := stop
      freeSpace := stop - soff } sect = .ok () pointed := by
    rw [hpointed]
    rfl
  have hlip : pointed.head.lstItmPtr = soff := by rw [hpointed]; rfl
  have hfrp : pointed.head.fstRecPtr = stop := by rw [hpointed]; rfl
  have hfree : pointed.head.freeSpace = stop - soff := by
    rw [hpointed]
    rfl
  have hstays : sect.Stays pointed :=
    Sect.Stays.refl.of_file (by rw [hpointed]; rfl) (by rw [hpointed]; rfl)
  rw [sectExtUpdateBorder, Prog.bind_of_ok (Sect.getHead_apply sect), hadd,
    hsub, Prog.bind_of_ok hset] at h
  obtain ⟨value, written, hwrite, h⟩ := Prog.bind_eq_ok h
  obtain ⟨hwritten, hfrp'⟩ := sectExtWrite_ok (by omega) (by omega)
    (by omega) hwrite
  rw [Prog.bind_of_ok (Sect.getHead_apply written)] at h
  exact updateEnd_settled (hstays.trans hwritten) hfrp'
    hbalanced.aligned h

theorem sectExtUpdateMove_settled {gone : Entity} {deleted : Sect}
    (hdelete : sectExtDelete soff sect = .ok gone deleted)
    (hsettled : sect.Settled 80 deleted)
    (hsoff : soff + 80 ≤ 8192)
    (hlip : deleted.head.lstItmPtr ≤ deleted.head.fstRecPtr)
    (hfrp : deleted.head.fstRecPtr ≤ 8192)
    (h : sectExtUpdateMove soff key val entity sect = .ok () sect') :
    sect.Settled 80 sect' := by
  have hfree := hsettled.balanced.free_eq hlip
  obtain ⟨pointed, hpointed⟩ : ∃ pointed : Sect, pointed = { deleted with
      head := { deleted.head with lstItmPtr := soff } } := ⟨_, rfl⟩
  have hset : Sect.setHead { deleted.head with lstItmPtr := soff } deleted =
      .ok () pointed := by
    rw [hpointed]
    rfl
  have hlip' : pointed.head.lstItmPtr = soff := by rw [hpointed]
  have hfrp' : pointed.head.fstRecPtr = deleted.head.fstRecPtr := by
    rw [hpointed]
  have hfree' : pointed.head.freeSpace = deleted.head.freeSpace := by
    rw [hpointed]
  have hstays : sect.Stays pointed :=
    hsettled.stays.of_file (by rw [hpointed]) (by rw [hpointed])
  rw [sectExtUpdateMove, Prog.bind_of_ok (Prog.status_of_ok hdelete),
    Prog.bind_of_ok (Sect.getHead_apply deleted), Prog.bind_of_ok hset] at h
  obtain ⟨value, written, hwrite, h⟩ := Prog.bind_eq_ok h
  obtain ⟨hwritten, hfrp''⟩ := sectExtWrite_ok (by omega) (by omega)
    (by omega) hwrite
  rw [Prog.bind_of_ok (Sect.getHead_apply written)] at h
  exact updateEnd_settled (hstays.trans hwritten) hfrp''
    hsettled.balanced.aligned h

/-- An update that does not rewrite the record in its own gap, and whose
record ends, with the bytes it may take over, in the section. -/
structure Sect.UpdateSyncs (sect : Sect) (soff : ℕ) (newEntity : Entity) :
    Prop where
  lowest : sizeSub (sect.entityAt soff).keyPtr
      (sect.entityAt soff).valSize = sect.head.fstRecPtr →
    sect.head.fstRecPtr + (sect.entityAt soff).initRecSz ≤ SECTION_SIZE
  grows : sizeSub (sect.entityAt soff).keyPtr
      (sect.entityAt soff).valSize ≠ sect.head.fstRecPtr →
    (sect.entityAt soff).initRecSz < newEntity.initRecSz
  last : sizeSub (sect.entityAt soff).keyPtr
      (sect.entityAt soff).valSize ≠ sect.head.fstRecPtr →
    soff + sizeofEntity = sect.head.lstItmPtr →
    sect.head.fstRecPtr + entityRecSz (sect.entityAt soff) ≤ SECTION_SIZE

theorem sectExtUpdate_settled
    (hbalanced : sect.head.Balanced 80) (hbordered : sect.head.Bordered)
    (hsoff : soff + 80 ≤ sect.head.lstItmPtr)
    (hinside : (sect.entityAt soff).Inside)
    (hsyncs : sect.UpdateSyncs soff entity)
    (h : sectExtUpdate soff key val entity sect = .ok () sect') :
    sect.Settled 80 sect' := by
  have hlipLe := hbordered.lip_le
  have hfrpLe : sect.head.fstRecPtr ≤ 8192 := hbordered.frp_le
  obtain ⟨old, read, hread, h⟩ := Prog.bind_eq_ok h
  obtain ⟨hquiet, rfl⟩ := sectExtRdItm_ok (by omega) hread
  have hhead := hquiet.head
  have hpass : ∀ {sect'}, read.Settled 80 sect' → sect.Settled 80 sect' :=
    fun hsettled => ⟨(Sect.Stays.of_quiet hquiet).trans hsettled.stays,
      hsettled.synced, hsettled.balanced⟩
  have hentity : read.entityAt soff = sect.entityAt soff := by
    rw [Sect.entityAt, Sect.entityAt, hhead, hquiet.bytes]
  rw [Prog.bind_of_ok (Sect.getHead_apply read), hhead,
    Entity.initRecSz_promoted] at h
  by_cases hborder : sizeSub (sect.entityAt soff).keyPtr
      (sect.entityAt soff).valSize = sect.head.fstRecPtr
  · rw [if_pos hborder] at h
    split at h
    · exact hpass (sectExtUpdateBorder_settled (by rw [hhead]; exact hbalanced)
        (by rw [hhead]; exact hbordered) (by rw [hhead]; exact hsoff)
        (by rw [hhead]; exact hsyncs.lowest hborder) h)
    · cases h
  · have hgrows := hsyncs.grows hborder
    rw [if_neg hborder, if_pos (by omega)] at h
    split at h
    · cases hdelete : sectExtDelete soff read with
      | ok gone deleted =>
          obtain ⟨hsettled, hlip, hfrp⟩ := sectExtDelete_settled
            (by rw [hhead]; exact hbalanced)
            (by rw [hhead]; exact hbordered) (by rw [hhead]; exact hsoff)
            (by rw [hentity]; exact hinside) hdelete
          rw [hhead] at hlip
          rw [hhead, hentity] at hfrp
          obtain ⟨hfrpGe, hfrpLe'⟩ := hfrp (hsyncs.last hborder)
          exact hpass (sectExtUpdateMove_settled hdelete hsettled (by omega)
            (by omega) hfrpLe' h)
      | failed deleted =>
          obtain ⟨again, hagain⟩ := sectExtRdItm_again (by omega) hquiet hread
          exact absurd hdelete (sectExtDelete_not_failed
            (by rw [hhead]; exact hbalanced)
            (by rw [hhead]; exact hbordered) (by rw [hhead]; exact hsoff)
            (by rw [hentity]; exact hinside) hagain)
      | stuck =>
          rw [sectExtUpdateMove, Prog.bind_apply, Prog.status,
            hdelete] at h
          cases h
    · cases h

end Extents

/-! ## Types sections -/

def Sect.typeEntityAt (sect : Sect) (soff : ℕ) : TypeEntity :=
  TypeEntity.ofBytes
    (sect.file.bytes (sect.head.fileOffset + soff) sizeofTypeEntity)

def Sect.lastAttrAt (sect : Sect) (soff : ℕ) : AttrEntity :=
  AttrEntity.ofBytes (sect.file.bytes (sect.head.fileOffset +
    lstAtrSoff soff (sect.typeEntityAt soff).attrCnt) sizeofAttrEntity)

structure Sect.TypeInside (sect : Sect) (soff : ℕ) : Prop where
  slots : soff + sizeofTypeEntity +
    sizeofAttrEntity * (sect.typeEntityAt soff).attrCnt ≤ SECTION_SIZE
  start : (sect.lastAttrAt soff).namePtr ≤
    (sect.typeEntityAt soff).namePtr + (sect.typeEntityAt soff).nameSize
  stop : (sect.typeEntityAt soff).namePtr +
    (sect.typeEntityAt soff).nameSize ≤ SECTION_SIZE

section Types

variable {sect sect' : Sect} {soff : ℕ}

theorem sectHeadShiftLip_synced {shift : ℕ}
    (h : sectHeadShiftLip shift sect = .ok () sect') : sect'.Synced := by
  rw [sectHeadShiftLip, Prog.bind_of_ok (Sect.getHead_apply sect),
    Prog.bind_of_ok (Sect.setHead_apply _ sect), sectHeadSync_apply] at h
  injection h with _ hsect
  rw [← hsect]
  exact Sect.synced_withHead _ _

theorem sectTypesWriteAttrs_synced {attrs : List Attr}
    (hsynced : sect.Synced)
    (h : sectTypesWriteAttrs attrs sect = .ok () sect') :
    sect'.Synced := by
  induction attrs generalizing sect with
  | nil =>
      injection h with _ hsect
      rw [← hsect]
      exact hsynced
  | cons attr rest ih =>
      obtain ⟨_, lowered, -, h⟩ := Prog.bind_eq_ok h
      rw [Prog.bind_of_ok (Sect.getHead_apply lowered)] at h
      obtain ⟨_, named, -, h⟩ := Prog.bind_eq_ok h
      obtain ⟨_, slotted, -, h⟩ := Prog.bind_eq_ok h
      obtain ⟨_, raised, hraised, h⟩ := Prog.bind_eq_ok h
      exact ih (sectHeadShiftLip_synced hraised) h

theorem sectTypesWrite_taken {type : DocType}
    (hbalanced : sect.head.Balanced 24) (hbordered : sect.head.Bordered)
    (hfits : ¬ sect.head.freeSpace < typePhSz type) :
    ∃ sect', sectTypesWrite type sect = .ok sect.head.lstItmPtr sect' ∧
      sect.Fills 24 sect' ∧ sect'.Synced := by
  have hlipGe : 32 ≤ sect.head.lstItmPtr := hbordered.lip_ge
  have hlipLe := hbordered.lip_le
  have hfrpLe : sect.head.fstRecPtr ≤ 8192 := hbordered.frp_le
  have hfree := hbalanced.free_eq hlipLe
  have hphSz := typePhSz_eq type
  have hrecSz := TypeEntry.typeRecSz_eq type
  obtain ⟨lowered, named, slotted, raised, hshift, hhead, hwrite,
    hwriteSlot, hshiftLip, hraised⟩ := @sectTypesNamed_spec sect type.name
      (TypeEntity.bytes ⟨type.name.cnt,
        sect.head.fstRecPtr - type.name.cnt, type.attrList.length⟩)
      (TypeEntity.length_bytes _) hlipGe (by omega) hfrpLe hfree
  have hfrpLowered : lowered.head.fstRecPtr =
      sect.head.fstRecPtr - type.name.cnt := by
    rw [hhead, SectHead.lower]
  have hlipRaised : raised.head.lstItmPtr = sect.head.lstItmPtr + 24 := by
    rw [hraised.head, SectHead.raise, SectHead.lower]
  have hfrpRaised : raised.head.fstRecPtr =
      sect.head.fstRecPtr - type.name.cnt := by
    rw [hraised.head, SectHead.raise, SectHead.lower]
  have hfreeRaised : raised.head.freeSpace =
      sect.head.freeSpace - type.name.cnt - 24 := by
    rw [hraised.head, SectHead.raise, SectHead.lower]
  have hoffRaised : raised.head.fileOffset = sect.head.fileOffset := by
    rw [hraised.head, SectHead.raise, SectHead.lower]
  obtain ⟨after, hattrs, hafter⟩ :=
    @sectTypesWriteAttrs_spec type.attrList raised (by omega) (by omega)
      (by omega) (by omega)
  rw [← hfrpLowered] at hwriteSlot
  have hwritten : sectTypesWrite type sect =
      .ok sect.head.lstItmPtr after := by
    rw [sectTypesWrite, Prog.bind_of_ok (Sect.getHead_apply sect),
      if_neg hfits, Prog.bind_of_ok hshift,
      Prog.bind_of_ok (Sect.getHead_apply lowered), Prog.bind_of_ok hwrite,
      sectTypesWrtType, Prog.bind_of_ok hwriteSlot, sizeofTypeEntity,
      Prog.bind_of_ok hshiftLip, Prog.bind_of_ok hattrs,
      Prog.pure_apply, hhead, SectHead.lower]
  obtain ⟨count, hcount⟩ := hbalanced.aligned
  refine ⟨after, hwritten, ⟨?_, fun reads => ?_, .of_free_eq ?_ ?_ ?_
    ⟨count + 1 + type.attrList.length, ?_⟩, ?_, ?_, ?_⟩,
    sectTypesWriteAttrs_synced (sectHeadShiftLip_synced hshiftLip) hattrs⟩
  · rw [hafter.head]
    exact hoffRaised
  · exact (hraised.within reads).trans_moved hoffRaised
      (hafter.within reads)
  all_goals
    simp only [hafter.head, sizeofSectHeadEntity, SECTION_SIZE]
    omega

theorem sectTypesWrite_settled {type : DocType} {wrtSoff : ℕ}
    (hbalanced : sect.head.Balanced 24) (hbordered : sect.head.Bordered)
    (h : sectTypesWrite type sect = .ok wrtSoff sect') :
    sect.Settled 24 sect' := by
  have hfits : ¬ sect.head.freeSpace < typePhSz type := by
    intro hlt
    rw [sectTypesWrite_refused hlt] at h
    cases h
  obtain ⟨after, hwritten, hfills, hsynced⟩ :=
    sectTypesWrite_taken hbalanced hbordered hfits
  rw [h] at hwritten
  injection hwritten with _ hsect
  rw [hsect]
  exact ⟨hfills.stays, hsynced, hfills.balanced⟩

theorem sectTypesRdType_ok {entity : TypeEntity} (hsoff : soff < 2 ^ 63)
    (h : sectTypesRdType soff sect = .ok entity sect') :
    sect.Quiet sect' ∧ entity = sect.typeEntityAt soff := by
  obtain ⟨data, read, hread, hpure⟩ := Prog.bind_eq_ok h
  rw [Prog.pure_apply] at hpure
  injection hpure with hentity hsect
  subst hsect
  refine ⟨sectHeadRead_of_ok hread, ?_⟩
  rw [← hentity, sectHeadRead_bytes (by norm_num [sizeofTypeEntity]) hsoff
    hread]
  rfl

theorem sectTypesRdAtr_ok {entity : AttrEntity} (hsoff : soff < 2 ^ 63)
    (h : sectTypesRdAtr soff sect = .ok entity sect') :
    sect.Quiet sect' ∧ entity = AttrEntity.ofBytes (sect.file.bytes
      (sect.head.fileOffset + soff) sizeofAttrEntity) := by
  obtain ⟨data, read, hread, hpure⟩ := Prog.bind_eq_ok h
  rw [Prog.pure_apply] at hpure
  injection hpure with hentity hsect
  subst hsect
  refine ⟨sectHeadRead_of_ok hread, ?_⟩
  rw [← hentity, sectHeadRead_bytes (by norm_num [sizeofAttrEntity]) hsoff
    hread]

theorem sectTypesDelete_settled
    (hbalanced : sect.head.Balanced 24) (hbordered : sect.head.Bordered)
    (hinside : sect.TypeInside soff)
    (h : sectTypesDelete soff sect = .ok () sect') :
    sect.Settled 24 sect' := by
  have hlipLe := hbordered.lip_le
  have hfrpLe : sect.head.fstRecPtr ≤ 8192 := hbordered.frp_le
  obtain ⟨hslots, hstart, hstop⟩ := hinside
  rw [sizeofTypeEntity, sizeofAttrEntity, SECTION_SIZE] at hslots
  rw [SECTION_SIZE] at hstop
  have hlast := lstAtrSoff_of_le hslots
  obtain ⟨typeEnt, read, hread, h⟩ := Prog.bind_eq_ok h
  obtain ⟨hquiet, rfl⟩ := sectTypesRdType_ok (by omega) hread
  obtain ⟨lstAtr, read', hread', h⟩ := Prog.bind_eq_ok h
  obtain ⟨hquiet', hattr⟩ := sectTypesRdAtr_ok (by omega) hread'
  have hlstAtr : lstAtr = sect.lastAttrAt soff := by
    rw [hattr, hquiet.head, hquiet.bytes]
    rfl
  subst hlstAtr
  have hhead : read'.head = sect.head := by
    rw [hquiet'.head, hquiet.head]
  obtain ⟨itmSz, hitmSz⟩ : ∃ itmSz, itmSz = sizeAdd sizeofTypeEntity
      ((sect.typeEntityAt soff).attrCnt * sizeofAttrEntity % sizeMax) :=
    ⟨_, rfl⟩
  have hitmSzEq : itmSz = 24 + 24 * (sect.typeEntityAt soff).attrCnt := by
    rw [hitmSz, sizeofTypeEntity, sizeofAttrEntity, sizeMax,
      Nat.mod_eq_of_lt (by omega), sizeAdd_of_lt (by omega)]
    omega
  obtain ⟨recSz, hrecSz⟩ : ∃ recSz, recSz = sizeSub
      (sizeAdd (sect.typeEntityAt soff).namePtr
        (sect.typeEntityAt soff).nameSize)
      (sect.lastAttrAt soff).namePtr := ⟨_, rfl⟩
  have hrecSzEq : (sect.lastAttrAt soff).namePtr + recSz =
      (sect.typeEntityAt soff).namePtr +
        (sect.typeEntityAt soff).nameSize := by
    rw [hrecSz, sizeAdd_of_lt (by omega), sizeSub_of_le hstart (by omega)]
    omega
  obtain ⟨slotless, hslotless⟩ : ∃ slotless,
      slotless = read'.putAt soff (List.replicate itmSz 0) := ⟨_, rfl⟩
  obtain ⟨cleared, hcleared⟩ : ∃ cleared, cleared = slotless.putAt
      (sect.lastAttrAt soff).namePtr (List.replicate recSz 0) := ⟨_, rfl⟩
  have hheadCleared : cleared.head = sect.head := by
    rw [hcleared, Sect.putAt_head, hslotless, Sect.putAt_head, hhead]
  have hstays : sect.Stays cleared := by
    have hfirst : read'.Stays slotless := by
      rw [hslotless]
      exact .putAt (by rw [List.length_replicate]; omega)
    have hsecond : slotless.Stays cleared := by
      rw [hcleared]
      exact .putAt (by rw [List.length_replicate]; omega)
    exact (Sect.Stays.of_quiet (hquiet.trans hquiet')).trans
      (hfirst.trans hsecond)
  simp only at h
  rw [← hitmSz, ← hrecSz,
    Prog.bind_of_ok (sectHeadWrite_of_lt _ (by omega)), ← hslotless,
    Prog.bind_of_ok (sectHeadWrite_of_lt _ (by omega)), ← hcleared] at h
  obtain ⟨_, lip, hcmprsLip, h⟩ := Prog.bind_eq_ok h
  obtain ⟨hsettledLip, -, -⟩ := sectHeadCmprsLip_ok
    (by norm_num [sizeofAttrEntity]) (by rw [hheadCleared]; omega)
    (by rw [hheadCleared]; exact hbalanced) hcmprsLip
  obtain ⟨hsettledFrp, -, -⟩ := sectHeadCmprsFrp_ok
    hsettledLip.balanced h
  exact ⟨hstays.trans (hsettledLip.stays.trans hsettledFrp.stays),
    hsettledFrp.synced, hsettledFrp.balanced⟩

end Types

end NosqlDbms
