import NosqlDbms.ExtentsLayout
import Mathlib.Tactic

/-!
# Writing and reading an extents section

A write that fits adds one item to the layout and touches only the section;
one that does not fit changes nothing.  A read returns what the item spells.
-/

namespace NosqlDbms

/-- The accesses of a call stay inside the section. -/
abbrev Sect.Within (sect sect' : Sect) (reads : Prop) : Prop :=
  Storage.Within sect.head.fileOffset (sect.head.fileOffset + 8192) reads
    sect.file sect'.file

theorem sectExtWrite_refused {sect : Sect} {key : Str} {val : List Byte}
    {entity : Entity}
    (hfree : sect.head.freeSpace < 80 + key.cnt + val.length) :
    sectExtWrite key val entity sect = .failed sect := by
  have htest : sect.head.freeSpace <
      sizeofEntity + key.cnt + val.length := hfree
  simp only [sectExtWrite, Prog.bind_apply, Sect.getHead_apply,
    if_pos htest, Prog.fail_apply]

section Places

variable {frp cnt size : ℕ}

theorem keyPtr_eq_of_low (hlow : 112 + cnt + size ≤ frp) :
    frp - cnt = frp - cnt - size + size := by
  omega

theorem valPtr_ge_of_low (hlow : 112 + cnt + size ≤ frp) :
    32 + 80 ≤ frp - cnt - size := by
  omega

theorem keyPtr_le_of_low (hlow : 112 + cnt + size ≤ frp)
    (hhigh : frp ≤ 8192) : frp - cnt + cnt ≤ 8192 := by
  omega

end Places

/-- What a write stores, given the borders before it. -/
def writtenItem (head : SectHead) (key : Str) (val : List Byte)
    (entity : Entity) (hkey : entity.keySize = key.cnt)
    (hval : entity.valSize = val.length)
    (hlow : 112 + key.cnt + val.length ≤ head.fstRecPtr)
    (hhigh : head.fstRecPtr ≤ 8192) : Item where
  entity := { entity with
    keyPtr := head.fstRecPtr - key.cnt
    valPtr := head.fstRecPtr - key.cnt - val.length }
  record := val ++ key.val
  length_record := by
    rw [List.length_append, hkey, hval]
    rfl
  keyPtr_eq := hval.symm ▸ keyPtr_eq_of_low hlow
  valPtr_ge := valPtr_ge_of_low hlow
  keyPtr_le := hkey.symm ▸ keyPtr_le_of_low hlow hhigh

/-- The entity as the write stores it. -/
def Entity.placed (entity : Entity) (head : SectHead) (key : Str)
    (val : List Byte) : Entity :=
  { entity with
    keyPtr := head.fstRecPtr - key.cnt
    valPtr := head.fstRecPtr - key.cnt - val.length }

/-- The section once the key and the value are in place. -/
def recordedSect (sect : Sect) (key : Str) (val : List Byte) : Sect :=
  let withKey := (sect.withHead (sect.head.lower key.cnt)).putAt
    (sect.head.fstRecPtr - key.cnt) key.val
  (withKey.withHead (withKey.head.lower val.length)).putAt
    (sect.head.fstRecPtr - key.cnt - val.length) val

/-- The section after a write that fits. -/
def writtenSect (sect : Sect) (key : Str) (val : List Byte)
    (entity : Entity) : Sect :=
  let withSlot := (recordedSect sect key val).putAt sect.head.lstItmPtr
    entity.bytes
  let raised := withSlot.withHead (withSlot.head.raise sizeofEntity)
  raised.withHead raised.head

theorem writtenSect_head (sect : Sect) (key : Str) (val : List Byte)
    (entity : Entity) :
    (writtenSect sect key val entity).head =
      ((sect.head.lower key.cnt).lower val.length).raise 80 := rfl

theorem sectExtWrite_of_fit {sect : Sect} {key : Str} {val : List Byte}
    {entity : Entity}
    (hlip : sect.head.lstItmPtr ≤ 8192)
    (hfit : key.cnt + val.length ≤ sect.head.fstRecPtr)
    (hfrp : sect.head.fstRecPtr ≤ 8192)
    (hfree : 80 + key.cnt + val.length ≤ sect.head.freeSpace)
    (hfreeLt : sect.head.freeSpace < 2 ^ 64) :
    sectExtWrite key val entity sect =
      .ok (sect.head.lstItmPtr, entity.placed sect.head key val)
        (writtenSect sect key val (entity.placed sect.head key val)) := by
  have htest : ¬ sect.head.freeSpace <
      sizeofEntity + key.cnt + val.length := by
    simp only [sizeofEntity]
    omega
  obtain ⟨lowered, hlowered⟩ : ∃ lowered,
      lowered = sect.withHead (sect.head.lower key.cnt) := ⟨_, rfl⟩
  have hheadKey : lowered.head = sect.head.lower key.cnt := by
    rw [hlowered, Sect.withHead_head]
  have hshiftKey : sectHeadShiftFrp (sizeNeg key.cnt) sect =
      .ok () lowered := by
    rw [hlowered]
    exact sectHeadShiftFrp_neg (by omega) (by omega) (by omega) (by omega)
  obtain ⟨withKey, hwithKey⟩ : ∃ withKey, withKey =
      lowered.putAt (sect.head.fstRecPtr - key.cnt) key.val := ⟨_, rfl⟩
  have hwriteKey : sectHeadWrite lowered.head.fstRecPtr key.val lowered =
      .ok () withKey := by
    rw [hwithKey, hheadKey, SectHead.lower]
    exact sectHeadWrite_of_lt key.val (by simp only; omega)
  have hheadKey' : withKey.head = sect.head.lower key.cnt := by
    rw [hwithKey, Sect.putAt_head, hheadKey]
  obtain ⟨lowered', hlowered'⟩ : ∃ lowered', lowered' =
      withKey.withHead (withKey.head.lower val.length) := ⟨_, rfl⟩
  have hshiftVal : sectHeadShiftFrp (sizeNeg val.length) withKey =
      .ok () lowered' := by
    rw [hlowered']
    apply sectHeadShiftFrp_neg <;> rw [hheadKey', SectHead.lower] <;>
      simp only <;> omega
  have hheadVal : lowered'.head =
      (sect.head.lower key.cnt).lower val.length := by
    rw [hlowered', Sect.withHead_head, hheadKey']
  obtain ⟨recorded, hrecorded⟩ : ∃ recorded, recorded =
      lowered'.putAt (sect.head.fstRecPtr - key.cnt - val.length) val :=
    ⟨_, rfl⟩
  have hwriteVal : sectHeadWrite lowered'.head.fstRecPtr val lowered' =
      .ok () recorded := by
    rw [hrecorded, hheadVal, SectHead.lower, SectHead.lower]
    exact sectHeadWrite_of_lt val (by simp only; omega)
  have hheadRecorded : recorded.head =
      (sect.head.lower key.cnt).lower val.length := by
    rw [hrecorded, Sect.putAt_head, hheadVal]
  have hsame : recordedSect sect key val = recorded := by
    rw [hrecorded, hlowered', hwithKey, hlowered]
    rfl
  obtain ⟨placed, hplaced⟩ : ∃ placed,
      placed = entity.placed sect.head key val := ⟨_, rfl⟩
  have hentity : { entity with
      keyPtr := lowered.head.fstRecPtr
      valPtr := lowered'.head.fstRecPtr } = placed := by
    rw [hplaced, hheadKey, hheadVal]
    rfl
  obtain ⟨withSlot, hwithSlot⟩ : ∃ withSlot, withSlot =
      recorded.putAt sect.head.lstItmPtr placed.bytes := ⟨_, rfl⟩
  have hwriteSlot : sectExtWrtItm recorded.head.lstItmPtr placed recorded =
      .ok () withSlot := by
    rw [hwithSlot, hheadRecorded]
    exact sectHeadWrite_of_lt _ (by simp only [SectHead.lower]; omega)
  obtain ⟨raised, hraised⟩ : ∃ raised, raised =
      withSlot.withHead (withSlot.head.raise sizeofEntity) := ⟨_, rfl⟩
  have hshiftLip : sectHeadShiftLip sizeofEntity withSlot =
      .ok () raised := by
    rw [hraised]
    apply sectHeadShiftLip_of_le <;>
      rw [hwithSlot, Sect.putAt_head, hheadRecorded] <;>
      simp only [SectHead.lower, sizeofEntity] <;> omega
  have hfinal : writtenSect sect key val placed =
      raised.withHead raised.head := by
    rw [writtenSect, hsame, hraised, hwithSlot]
  rw [← hplaced, hfinal]
  simp only [sectExtWrite, Prog.bind_apply, Sect.getHead_apply,
    if_neg htest, hshiftKey, hwriteKey, hshiftVal, hwriteVal, hentity,
    hwriteSlot, hshiftLip, sectHeadSync_apply, Prog.pure_apply]

theorem sectExtWrite_eq {sect : Sect} {key : Str} {val : List Byte}
    {entity : Entity}
    (hroom : sect.head.lstItmPtr + sect.head.freeSpace ≤
      sect.head.fstRecPtr)
    (hfrp : sect.head.fstRecPtr ≤ 8192)
    (hfree : 80 + key.cnt + val.length ≤ sect.head.freeSpace) :
    sectExtWrite key val entity sect =
      .ok (sect.head.lstItmPtr, entity.placed sect.head key val)
        (writtenSect sect key val (entity.placed sect.head key val)) :=
  sectExtWrite_of_fit (by omega) (by omega) hfrp hfree (by omega)

/-! ## Contents after a write -/

theorem writtenSect_file (sect : Sect) (key : Str) (val : List Byte)
    (entity : Entity) :
    ∃ sync₁ sync₂ sync₃ : List Byte,
      sync₁.length = 32 ∧ sync₂.length = 32 ∧ sync₃.length = 32 ∧
      (writtenSect sect key val entity).file =
        ((((((sect.file.write sect.head.fileOffset sync₁).put
          (sect.head.fileOffset + (sect.head.fstRecPtr - key.cnt))
            key.val).write sect.head.fileOffset sync₂).put
          (sect.head.fileOffset +
            (sect.head.fstRecPtr - key.cnt - val.length)) val).put
          (sect.head.fileOffset + sect.head.lstItmPtr)
            entity.bytes).write sect.head.fileOffset sync₃).write
          sect.head.fileOffset sync₃ :=
  ⟨_, _, _, SectHead.length_bytes _, SectHead.length_bytes _,
    SectHead.length_bytes _, rfl⟩

section Written

variable {sect : Sect} {key : Str} {val : List Byte} {entity : Entity}

theorem writtenSect_cell {position : ℕ}
    (hfit : key.cnt + val.length ≤ sect.head.fstRecPtr)
    (hlow : 32 ≤ position)
    (hslot : position < sect.head.lstItmPtr ∨
      sect.head.lstItmPtr + 80 ≤ position)
    (hrecord : position < sect.head.fstRecPtr - key.cnt - val.length ∨
      sect.head.fstRecPtr ≤ position) :
    (writtenSect sect key val entity).file.cell
        (sect.head.fileOffset + position) =
      sect.file.cell (sect.head.fileOffset + position) := by
  obtain ⟨sync₁, sync₂, sync₃, h₁, h₂, h₃, hfile⟩ :=
    writtenSect_file sect key val entity
  have hcnt : key.val.length = key.cnt := rfl
  have hentity : entity.bytes.length = 80 := entity.length_bytes
  rw [hfile, Storage.cell_write_of_out (by omega),
    Storage.cell_write_of_out (by omega),
    Storage.cell_put_of_out (by omega), Storage.cell_put_of_out (by omega),
    Storage.cell_write_of_out (by omega),
    Storage.cell_put_of_out (by omega), Storage.cell_write_of_out (by omega)]

theorem writtenSect_slot (hlow : 32 ≤ sect.head.lstItmPtr) :
    (writtenSect sect key val entity).file.bytes
        (sect.head.fileOffset + sect.head.lstItmPtr) 80 =
      entity.bytes := by
  obtain ⟨sync₁, sync₂, sync₃, h₁, h₂, h₃, hfile⟩ :=
    writtenSect_file sect key val entity
  have hentity : entity.bytes.length = 80 := entity.length_bytes
  rw [hfile, Storage.bytes_write_of_out (by omega),
    Storage.bytes_write_of_out (by omega), ← hentity,
    Storage.bytes_put_same]

theorem writtenSect_record (hlow : 32 ≤ sect.head.lstItmPtr)
    (hfit : sect.head.lstItmPtr + 80 + key.cnt + val.length ≤
      sect.head.fstRecPtr) :
    (writtenSect sect key val entity).file.bytes
        (sect.head.fileOffset +
          (sect.head.fstRecPtr - key.cnt - val.length))
        (val.length + key.cnt) = val ++ key.val := by
  obtain ⟨sync₁, sync₂, sync₃, h₁, h₂, h₃, hfile⟩ :=
    writtenSect_file sect key val entity
  have hcnt : key.val.length = key.cnt := rfl
  have hentity : entity.bytes.length = 80 := entity.length_bytes
  have hstart : sect.head.fileOffset +
      (sect.head.fstRecPtr - key.cnt - val.length) + val.length =
        sect.head.fileOffset + (sect.head.fstRecPtr - key.cnt) := by
    omega
  have hval : (writtenSect sect key val entity).file.bytes
      (sect.head.fileOffset + (sect.head.fstRecPtr - key.cnt - val.length))
      val.length = val := by
    rw [hfile, Storage.bytes_write_of_out (by omega),
      Storage.bytes_write_of_out (by omega),
      Storage.bytes_put_of_out (by omega), Storage.bytes_put_same]
  have hkey : (writtenSect sect key val entity).file.bytes
      (sect.head.fileOffset + (sect.head.fstRecPtr - key.cnt))
      key.cnt = key.val := by
    rw [hfile, Storage.bytes_write_of_out (by omega),
      Storage.bytes_write_of_out (by omega),
      Storage.bytes_put_of_out (by omega),
      Storage.bytes_put_of_out (by omega),
      Storage.bytes_write_of_out (by omega), ← hcnt,
      Storage.bytes_put_same]
  rw [Storage.bytes_add, hval, hstart, hkey]

theorem writtenSect_within
    (hlip : sect.head.lstItmPtr + 80 ≤ 8192)
    (hfit : key.cnt + val.length ≤ sect.head.fstRecPtr)
    (hfrp : sect.head.fstRecPtr ≤ 8192) {reads : Prop} :
    sect.Within (writtenSect sect key val entity) reads := by
  obtain ⟨sync₁, sync₂, sync₃, h₁, h₂, h₃, hfile⟩ :=
    writtenSect_file sect key val entity
  have hcnt : key.val.length = key.cnt := rfl
  have hentity : entity.bytes.length = 80 := entity.length_bytes
  unfold Sect.Within
  rw [hfile]
  refine (Storage.Within.write ?_ ?_).trans ((Storage.Within.put ?_ ?_).trans
    ((Storage.Within.write ?_ ?_).trans ((Storage.Within.put ?_ ?_).trans
      ((Storage.Within.put ?_ ?_).trans ((Storage.Within.write ?_ ?_).trans
        (Storage.Within.write ?_ ?_)))))) <;> omega

theorem writtenSect_size_slot :
    sect.head.fileOffset + sect.head.lstItmPtr + 80 ≤
      (writtenSect sect key val entity).file.size := by
  obtain ⟨sync₁, sync₂, sync₃, h₁, h₂, h₃, hfile⟩ :=
    writtenSect_file sect key val entity
  have hentity : entity.bytes.length = 80 := entity.length_bytes
  have hne : entity.bytes ≠ [] := by
    intro hnil
    rw [hnil] at hentity
    simp at hentity
  rw [hfile, ← hentity]
  refine le_trans ?_ (Storage.size_le_write _ _ _)
  refine le_trans ?_ (Storage.size_le_write _ _ _)
  exact Storage.stop_le_put _ _ hne

theorem writtenSect_size_record
    (hfit : key.cnt + val.length ≤ sect.head.fstRecPtr)
    (hne : val ++ key.val ≠ []) :
    sect.head.fileOffset + sect.head.fstRecPtr ≤
      (writtenSect sect key val entity).file.size := by
  obtain ⟨sync₁, sync₂, sync₃, h₁, h₂, h₃, hfile⟩ :=
    writtenSect_file sect key val entity
  have hcnt : key.val.length = key.cnt := rfl
  rw [hfile]
  refine le_trans ?_ (Storage.size_le_write _ _ _)
  refine le_trans ?_ (Storage.size_le_write _ _ _)
  refine le_trans ?_ (Storage.size_le_put _ _ _)
  by_cases hkey : key.val = []
  · have hval : val ≠ [] := by
      intro hnil
      exact hne (by rw [hnil, hkey]; rfl)
    have hzero : key.cnt = 0 := by
      rw [← hcnt, hkey]
      rfl
    refine le_trans ?_ (Storage.stop_le_put _ _ hval)
    omega
  · refine le_trans ?_ (Storage.size_le_put _ _ _)
    refine le_trans ?_ (Storage.size_le_write _ _ _)
    refine le_trans ?_ (Storage.stop_le_put _ _ hkey)
    omega

end Written

/-- A write that fits returns the first slot above the items and adds the
item to the layout. -/
theorem Layout.write {sect : Sect} {items : Items} {key : Str}
    {val : List Byte} (h : Layout sect items) (entity : Entity)
    (hkey : entity.keySize = key.cnt) (hval : entity.valSize = val.length)
    (hfree : 80 + key.cnt + val.length ≤ sect.head.freeSpace) :
    ∃ item sect',
      sectExtWrite key val entity sect =
        .ok (sect.head.lstItmPtr, item.entity) sect' ∧
      item.entity = entity.placed sect.head key val ∧
      item.record = val ++ key.val ∧
      Layout sect' (items.insert sect.head.lstItmPtr item) ∧
      (∀ reads, sect.Within sect' reads) ∧
      sect'.head =
        ((sect.head.lower key.cnt).lower val.length).raise 80 := by
  have hlip := h.lip_le
  have hlipGe := h.lip_ge
  have hfrp := h.frp_le
  have hfreeEq := h.free
  let item := writtenItem sect.head key val entity hkey hval
    (by omega) hfrp
  have hentity : item.entity = entity.placed sect.head key val := rfl
  have hrecord : item.record = val ++ key.val := rfl
  have hlength : item.record.length = val.length + key.cnt := by
    rw [hrecord, List.length_append]
    rfl
  have hstart : item.start =
      sect.head.fstRecPtr - key.cnt - val.length := rfl
  have hstop : item.stop = sect.head.fstRecPtr := by
    rw [Item.stop_sub_start, hstart, hlength]
    omega
  refine ⟨item, writtenSect sect key val item.entity,
    sectExtWrite_eq (by omega) hfrp hfree, hentity, hrecord, ?_, ?_, rfl⟩
  · apply h.insert
    · rw [hlength]
      omega
    · exact hstop
    · rfl
    · rfl
    · rfl
    · rw [writtenSect_head]
      simp only [SectHead.raise, SectHead.lower]
      omega
    · exact writtenSect_slot hlipGe
    · rw [hstart, hlength, writtenSect_record hlipGe (by omega), hrecord]
    · intro position hlow hhigh hside
      exact writtenSect_cell (by omega) hlow (by omega) (by omega)
    · have hwithin : sect.Within (writtenSect sect key val item.entity)
          True := writtenSect_within (by omega) (by omega) hfrp
      exact hwithin.size_le
    · have hslot : sect.head.fileOffset + sect.head.lstItmPtr + 80 ≤
          (writtenSect sect key val item.entity).file.size :=
        writtenSect_size_slot
      have hhead : (writtenSect sect key val item.entity).head.lstItmPtr =
          sect.head.lstItmPtr + 80 := rfl
      omega
    · intro hne
      rw [hstop]
      exact writtenSect_size_record (by omega) hne
  · intro reads
    exact writtenSect_within (by omega) (by omega) hfrp

/-! ## Reading an item -/

/-- Key and value of an item, as far as its entity tells. -/
def Item.Spells (item : Item) (key : Str) (value : JsonValue) : Prop :=
  item.record = jsonValPtr value ++ key.val ∧
    item.entity.keySize = key.cnt ∧
    item.entity.valSize = jsonValSize value ∧
    item.entity.type = value.type.code

theorem Held.bytes_key {sect : Sect} {items : Items} {soff : ℕ}
    {item : Item} {key : Str} {value : JsonValue} (h : Held sect items)
    (hitem : items soff = some item) (hspells : item.Spells key value) :
    sect.file.bytes (sect.head.fileOffset + item.entity.keyPtr)
        item.entity.keySize = key.val ∧
      sect.file.bytes (sect.head.fileOffset + item.entity.valPtr)
        item.entity.valSize = jsonValPtr value := by
  obtain ⟨hrecord, hkey, hval, -⟩ := hspells
  have hstored := h.record hitem
  have hstart : item.start = item.entity.valPtr := rfl
  have hlength : item.record.length = jsonValSize value + key.cnt := by
    rw [hrecord, List.length_append, length_jsonValPtr]
    rfl
  rw [hlength, hrecord, Storage.bytes_add, hstart] at hstored
  obtain ⟨hvalue, hkey'⟩ := List.append_inj hstored (by simp)
  have hoffset : sect.head.fileOffset + item.entity.valPtr +
      jsonValSize value = sect.head.fileOffset + item.entity.keyPtr := by
    rw [item.keyPtr_eq, hval]
    ring
  rw [hoffset] at hkey'
  exact ⟨by rw [hkey]; exact hkey', by rw [hval]; exact hvalue⟩

theorem sectHeadRead_quiet (sect : Sect) (soff size : ℕ)
    (hsoff : soff + size ≤ 8192)
    (hle : 0 < size → sect.head.fileOffset + soff + size ≤ sect.file.size) :
    ∃ sect', sectHeadRead soff size sect =
        .ok (sect.file.bytes (sect.head.fileOffset + soff) size) sect' ∧
      sect.Quiet sect' ∧ ∀ reads, sect.Within sect' reads := by
  by_cases hsize : size = 0
  · subst hsize
    exact ⟨sect, sectHeadRead_zero soff sect, ⟨rfl, rfl, rfl⟩,
      fun reads => Storage.Within.refl⟩
  · have hpos : 0 < size := Nat.pos_of_ne_zero hsize
    exact ⟨_, sectHeadRead_of_le hpos (by omega) (hle hpos),
      ⟨rfl, rfl, rfl⟩,
      fun reads => Storage.Within.noteRead (fun _ => by omega)⟩

theorem Sect.Quiet.bytes {sect sect' : Sect} (h : sect.Quiet sect')
    (offset length : ℕ) :
    sect'.file.bytes offset length = sect.file.bytes offset length :=
  Storage.bytes_congr (fun index _ _ => congrFun h.cell index)

theorem Sect.Quiet.trans {sect sect' sect'' : Sect} (h : sect.Quiet sect')
    (h' : sect'.Quiet sect'') : sect.Quiet sect'' where
  head := h'.head.trans h.head
  cell := h'.cell.trans h.cell
  size := h'.size.trans h.size

theorem Held.quiet {sect sect' : Sect} {items : Items}
    (h : Held sect items) (hquiet : sect.Quiet sect') :
    Held sect' items :=
  h.frame hquiet.head (fun _ _ => congrFun hquiet.cell _) hquiet.size.ge

theorem Loose.quiet {sect sect' : Sect} {items : Items}
    (h : Loose sect items) (hquiet : sect.Quiet sect') :
    Loose sect' items :=
  h.frame hquiet.head (fun _ _ _ => congrFun hquiet.cell _)
    hquiet.size.ge

theorem Layout.quiet {sect sect' : Sect} {items : Items}
    (h : Layout sect items) (hquiet : sect.Quiet sect') :
    Layout sect' items :=
  h.frame hquiet.head (fun _ _ _ => congrFun hquiet.cell _)
    hquiet.size.ge

theorem Sect.Within.trans {sect sect' sect'' : Sect} {reads : Prop}
    (h : sect.Within sect' reads) (hhead : sect'.head = sect.head)
    (h' : sect'.Within sect'' reads) : sect.Within sect'' reads := by
  unfold Sect.Within at h h' ⊢
  rw [hhead] at h'
  exact Storage.Within.trans h h'

theorem Sect.Within.sync {sect : Sect} {head : SectHead} {reads : Prop}
    (hoffset : head.fileOffset = sect.head.fileOffset) :
    sect.Within (sect.withHead head) reads := by
  unfold Sect.Within
  rw [Sect.withHead_file, hoffset]
  apply Storage.Within.write
  · exact le_rfl
  · rw [SectHead.length_bytes]
    simp only [sizeofSectHeadEntity]
    omega

theorem Held.record_size {sect : Sect} {items : Items} {soff : ℕ}
    {item : Item} (h : Held sect items) (hitem : items soff = some item)
    (hne : item.record ≠ []) :
    sect.head.fileOffset + 8192 ≤ sect.file.size := by
  have hin := h.inside hitem hne
  have hstop := item.stop_le
  have hspan : item.stop = item.start + item.record.length := rfl
  have hpos : 0 < item.record.length :=
    List.length_pos_of_ne_nil hne
  apply h.size_records
  simp only [SECTION_SIZE] at hstop
  omega

theorem sectExtRdItm_of_bytes {sect : Sect} {soff : ℕ} {entity : Entity}
    (hsoff : soff + 80 ≤ 8192)
    (hsize : sect.head.fileOffset + soff + 80 ≤ sect.file.size)
    (hbytes : sect.file.bytes (sect.head.fileOffset + soff) 80 =
      entity.bytes) :
    ∃ read, sectExtRdItm soff sect = .ok entity read ∧
      sect.Quiet read ∧ ∀ reads, sect.Within read reads := by
  obtain ⟨read, hread, hquiet, hwithin⟩ :=
    sectHeadRead_quiet sect soff 80 hsoff (fun _ => hsize)
  refine ⟨read, ?_, hquiet, hwithin⟩
  simp only [sectExtRdItm, sizeofEntity, Prog.bind_apply, hread, hbytes,
    Prog.pure_apply, Entity.ofBytes_bytes]

/-- Entity, key and value are at their places in the file. -/
structure Sect.Spelt (sect : Sect) (soff : ℕ) (entity : Entity) (key : Str)
    (value : JsonValue) : Prop where
  slot_le : soff + 80 ≤ 8192
  slot_size : sect.head.fileOffset + soff + 80 ≤ sect.file.size
  slot : sect.file.bytes (sect.head.fileOffset + soff) 80 = entity.bytes
  type : entity.type = value.type.code
  key_le : entity.keyPtr + entity.keySize ≤ 8192
  key_size : 0 < entity.keySize → sect.head.fileOffset + entity.keyPtr +
    entity.keySize ≤ sect.file.size
  key_bytes : sect.file.bytes (sect.head.fileOffset + entity.keyPtr)
    entity.keySize = key.val
  val_le : entity.valPtr + entity.valSize ≤ 8192
  val_size : 0 < entity.valSize → sect.head.fileOffset + entity.valPtr +
    entity.valSize ≤ sect.file.size
  val_bytes : sect.file.bytes (sect.head.fileOffset + entity.valPtr)
    entity.valSize = jsonValPtr value

theorem Sect.Spelt.read {sect : Sect} {soff : ℕ} {entity : Entity}
    {key : Str} {value : JsonValue} (h : sect.Spelt soff entity key value) :
    ∃ read, sectExtRead soff sect =
        .ok (entity, key, value) (read.withHead read.head) ∧
      sect.Quiet read ∧ ∀ reads, sect.Within read reads := by
  obtain ⟨sect₁, hrdItm, hquiet₁, hwithin₁⟩ :=
    sectExtRdItm_of_bytes h.slot_le h.slot_size h.slot
  obtain ⟨sect₂, hread₂, hquiet₂, hwithin₂⟩ :=
    sectHeadRead_quiet sect₁ entity.keyPtr entity.keySize h.key_le
      (fun hpos => by
        rw [hquiet₁.head, hquiet₁.size]
        exact h.key_size hpos)
  rw [hquiet₁.head, hquiet₁.bytes, h.key_bytes] at hread₂
  have hquiet₁₂ := hquiet₁.trans hquiet₂
  obtain ⟨sect₃, hread₃, hquiet₃, hwithin₃⟩ :=
    sectHeadRead_quiet sect₂ entity.valPtr entity.valSize h.val_le
      (fun hpos => by
        rw [hquiet₁₂.head, hquiet₁₂.size]
        exact h.val_size hpos)
  rw [hquiet₁₂.head, hquiet₁₂.bytes, h.val_bytes] at hread₃
  have hquiet := hquiet₁₂.trans hquiet₃
  have hwithin : ∀ reads, sect.Within sect₂ reads := fun reads =>
    (hwithin₁ reads).trans hquiet₁.head (hwithin₂ reads)
  by_cases hobject : value.type = .object
  · have hvalue : value = .object := by
      cases value <;> simp [JsonValue.type] at hobject ⊢
    subst hvalue
    refine ⟨sect₂, ?_, hquiet₁₂, hwithin⟩
    simp only [sectExtRead, Prog.bind_apply, hrdItm, hread₂, h.type,
      JsonType.ofCode?_code, JsonValue.type, if_true, Prog.pure_apply,
      readValue, sectHeadSync_apply, stringCtor_val]
  · refine ⟨sect₃, ?_, hquiet, fun reads =>
      (hwithin reads).trans hquiet₁₂.head (hwithin₃ reads)⟩
    simp only [sectExtRead, Prog.bind_apply, hrdItm, hread₂, h.type,
      JsonType.ofCode?_code, if_neg hobject, hread₃,
      readValue_jsonValPtr, sectHeadSync_apply, Prog.pure_apply,
      stringCtor_val]

theorem Held.rdItm {sect : Sect} {items : Items} {soff : ℕ} {item : Item}
    (h : Held sect items) (hitem : items soff = some item) :
    ∃ read, sectExtRdItm soff sect = .ok item.entity read ∧
      sect.Quiet read ∧ ∀ reads, sect.Within read reads := by
  have hslot := h.slot hitem
  have hlipLe := h.lip_le
  have hfrpLe := h.frp_le
  have hslots := h.size_slots
  exact sectExtRdItm_of_bytes (by omega) (by omega) (h.entity hitem)

/-- Reading a live slot returns its entity, key and value, and syncs. -/
theorem Held.read {sect : Sect} {items : Items} {soff : ℕ} {item : Item}
    {key : Str} {value : JsonValue} (h : Held sect items)
    (hitem : items soff = some item) (hspells : item.Spells key value) :
    ∃ read, sectExtRead soff sect =
        .ok (item.entity, key, value) (read.withHead read.head) ∧
      sect.Quiet read ∧ ∀ reads, sect.Within read reads := by
  obtain ⟨hkeyBytes, hvalBytes⟩ := h.bytes_key hitem hspells
  obtain ⟨hrecord, hkeySize, hvalSize, htype⟩ := hspells
  have hslot := h.slot hitem
  have hlipLe := h.lip_le
  have hfrpLe := h.frp_le
  have hslots := h.size_slots
  have hlength := item.length_record
  have hkeyPtr := item.keyPtr_eq
  have hstop := item.keyPtr_le
  simp only [SECTION_SIZE] at hstop
  have hsize : ∀ {size}, 0 < size → size ≤ item.record.length →
      sect.head.fileOffset + 8192 ≤ sect.file.size := by
    intro size hpos hle
    apply h.record_size hitem
    intro hnil
    rw [hnil, List.length_nil] at hle
    omega
  apply Sect.Spelt.read
  constructor
  · omega
  · omega
  · exact h.entity hitem
  · exact htype
  · omega
  · intro hpos
    have hle := hsize hpos (by omega)
    omega
  · exact hkeyBytes
  · omega
  · intro hpos
    have hle := hsize hpos (by omega)
    omega
  · exact hvalBytes

theorem Layout.read {sect : Sect} {items : Items} {soff : ℕ} {item : Item}
    {key : Str} {value : JsonValue} (h : Layout sect items)
    (hitem : items soff = some item) (hspells : item.Spells key value) :
    ∃ sect', sectExtRead soff sect =
        .ok (item.entity, key, value) sect' ∧
      Layout sect' items ∧ sect'.head = sect.head ∧
      ∀ reads, sect.Within sect' reads := by
  obtain ⟨read, hread, hquiet, hwithin⟩ :=
    h.toLoose.held.read hitem hspells
  exact ⟨_, hread, (h.quiet hquiet).synced, hquiet.head,
    fun reads => (hwithin reads).trans hquiet.head (.sync rfl)⟩

/-- A cleared slot reads as an `int32` node without a key. -/
theorem Layout.read_cleared {sect : Sect} {items : Items} {soff : ℕ}
    (h : Layout sect items) (hlow : 32 ≤ soff)
    (hhigh : soff + 80 ≤ sect.head.lstItmPtr) (haligned : soff % 80 = 32)
    (hnone : items soff = none) :
    ∃ sect', sectExtRead soff sect =
        .ok (entityClear, stringCtor [], .int32 0) sect' ∧
      Layout sect' items ∧ sect'.head = sect.head ∧
      ∀ reads, sect.Within sect' reads := by
  have hlip := h.lip_le
  have hfrp := h.frp_le
  have hslots := h.size_slots
  have hzero := h.cleared hlow hhigh haligned hnone
  obtain ⟨sect₁, hread₁, hquiet₁, hwithin₁⟩ :=
    sectHeadRead_quiet sect soff 80
      (by omega) (fun _ => by omega)
  have hclear : Entity.ofBytes (List.replicate 80 0) = entityClear := by
    have hbytes : entityClear.bytes = List.replicate 80 0 :=
      Entity.bytes_entityClear
    rw [← hbytes, Entity.ofBytes_bytes]
  have hrdItm : sectExtRdItm soff sect = .ok entityClear sect₁ := by
    simp only [sectExtRdItm, sizeofEntity, Prog.bind_apply, hread₁,
      hzero, Prog.pure_apply, hclear]
  refine ⟨sect₁.withHead sect₁.head, ?_, (h.quiet hquiet₁).synced,
    hquiet₁.head,
    fun reads => (hwithin₁ reads).trans hquiet₁.head (.sync rfl)⟩
  rw [sectExtRead, Prog.bind_of_ok hrdItm]
  rfl

end NosqlDbms
