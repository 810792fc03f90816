import NosqlDbms.ExtentsRun
import Mathlib.Tactic

/-!
# Updating a slot

`sect_ext_update` stores a new key and value in a slot that is in use.  It
points the borders into the section, calls `sect_ext_write`, and puts the
borders back.  Which of its three branches it takes depends on whether the
old record is the lowest one and on `init_rec_sz`.
-/

namespace NosqlDbms

/-- The entity given to the update, promoted to the old record size. -/
def Entity.promoted (entity old : Entity) : Entity :=
  if entity.initRecSz < old.initRecSz then
    { entity with initRecSz := old.initRecSz }
  else entity

/-- The record is the lowest one: it grows and shrinks at the border. -/
def sectExtUpdateBorder (soff : ℕ) (newKey : Str) (newVal : List Byte)
    (newEntity oldEntity : Entity) : Prog Sect Unit := do
  let head ← Sect.getHead
  let fstRecPtr := sizeAdd head.fstRecPtr oldEntity.initRecSz
  Sect.setHead { head with
    lstItmPtr := soff
    fstRecPtr := fstRecPtr
    freeSpace := sizeSub fstRecPtr soff }
  let _ ← sectExtWrite newKey newVal newEntity
  let written ← Sect.getHead
  Sect.setHead { written with
    lstItmPtr := head.lstItmPtr
    freeSpace := sizeSub written.fstRecPtr head.lstItmPtr }
  sectHeadSync

/-- The record grows and goes to the free space; the status of the deletion
is not looked at. -/
def sectExtUpdateMove (soff : ℕ) (newKey : Str) (newVal : List Byte)
    (newEntity : Entity) : Prog Sect Unit := do
  let _ ← (sectExtDelete soff).status
  let head ← Sect.getHead
  Sect.setHead { head with lstItmPtr := soff }
  let _ ← sectExtWrite newKey newVal newEntity
  let written ← Sect.getHead
  Sect.setHead { written with
    lstItmPtr := head.lstItmPtr
    freeSpace := sizeSub written.fstRecPtr head.lstItmPtr }
  sectHeadSync

/-- The record stays in its place; this branch does not sync. -/
def sectExtUpdateGap (soff : ℕ) (newKey : Str) (newVal : List Byte)
    (newEntity oldEntity : Entity) : Prog Sect Unit := do
  let head ← Sect.getHead
  let fstRecPtr := sizeAdd oldEntity.keyPtr oldEntity.keySize
  Sect.setHead { head with
    lstItmPtr := soff
    fstRecPtr := fstRecPtr
    freeSpace := sizeSub fstRecPtr soff }
  let _ ← sectExtWrite newKey newVal newEntity
  let written ← Sect.getHead
  Sect.setHead { written with
    lstItmPtr := head.lstItmPtr
    fstRecPtr := head.fstRecPtr
    freeSpace := sizeSub head.fstRecPtr head.lstItmPtr }

/-- `sect_ext_update`. -/
def sectExtUpdate (soff : ℕ) (newKey : Str) (newVal : List Byte)
    (newEntity : Entity) : Prog Sect Unit := do
  let oldEntity ← sectExtRdItm soff
  let head ← Sect.getHead
  let newEntity := newEntity.promoted oldEntity
  if sizeSub oldEntity.keyPtr oldEntity.valSize = head.fstRecPtr then
    if newEntity.initRecSz ≤ sizeAdd head.freeSpace oldEntity.initRecSz then
      sectExtUpdateBorder soff newKey newVal newEntity oldEntity
    else Prog.fail
  else if oldEntity.initRecSz < newEntity.initRecSz then
    if entityRecSz newEntity ≤ head.freeSpace then
      sectExtUpdateMove soff newKey newVal newEntity
    else Prog.fail
  else sectExtUpdateGap soff newKey newVal newEntity oldEntity

/-! ## Which branch is taken -/

theorem Entity.initRecSz_promoted (entity old : Entity) :
    (entity.promoted old).initRecSz =
      max entity.initRecSz old.initRecSz := by
  unfold Entity.promoted
  split
  next hlt => exact (max_eq_right hlt.le).symm
  next hge => exact (max_eq_left (by omega)).symm

@[simp] theorem Entity.recSz_promoted (entity old : Entity) :
    entityRecSz (entity.promoted old) = entityRecSz entity := by
  unfold Entity.promoted entityRecSz
  split <;> rfl

section Branches

variable {sect read : Sect} {items : Items} {soff : ℕ} {item : Item}
  {newKey : Str} {newVal : List Byte} {newEntity : Entity}

theorem sectExtUpdate_border
    (hread : sectExtRdItm soff sect = .ok item.entity read)
    (hhead : read.head = sect.head)
    (hstart : item.start = sect.head.fstRecPtr)
    (hroom : max newEntity.initRecSz item.entity.initRecSz ≤
      sizeAdd sect.head.freeSpace item.entity.initRecSz) :
    sectExtUpdate soff newKey newVal newEntity sect =
      sectExtUpdateBorder soff newKey newVal
        (newEntity.promoted item.entity) item.entity read := by
  rw [sectExtUpdate, Prog.bind_of_ok hread,
    Prog.bind_of_ok (Sect.getHead_apply read)]
  rw [item.sizeSub_keyPtr, hhead, if_pos hstart,
    if_pos (by rw [Entity.initRecSz_promoted]; exact hroom)]

theorem sectExtUpdate_border_refused
    (hread : sectExtRdItm soff sect = .ok item.entity read)
    (hhead : read.head = sect.head)
    (hstart : item.start = sect.head.fstRecPtr)
    (hroom : ¬ max newEntity.initRecSz item.entity.initRecSz ≤
      sizeAdd sect.head.freeSpace item.entity.initRecSz) :
    sectExtUpdate soff newKey newVal newEntity sect = .failed read := by
  rw [sectExtUpdate, Prog.bind_of_ok hread,
    Prog.bind_of_ok (Sect.getHead_apply read)]
  rw [item.sizeSub_keyPtr, hhead, if_pos hstart,
    if_neg (by rw [Entity.initRecSz_promoted]; exact hroom),
    Prog.fail_apply]

theorem sectExtUpdate_move
    (hread : sectExtRdItm soff sect = .ok item.entity read)
    (hhead : read.head = sect.head)
    (hstart : item.start ≠ sect.head.fstRecPtr)
    (hgrows : item.entity.initRecSz < newEntity.initRecSz)
    (hroom : entityRecSz newEntity ≤ sect.head.freeSpace) :
    sectExtUpdate soff newKey newVal newEntity sect =
      sectExtUpdateMove soff newKey newVal
        (newEntity.promoted item.entity) read := by
  have hgrows' : item.entity.initRecSz <
      (newEntity.promoted item.entity).initRecSz := by
    rw [Entity.initRecSz_promoted]
    exact lt_max_of_lt_left hgrows
  rw [sectExtUpdate, Prog.bind_of_ok hread,
    Prog.bind_of_ok (Sect.getHead_apply read)]
  rw [item.sizeSub_keyPtr, hhead, if_neg hstart, if_pos hgrows',
    Entity.recSz_promoted, if_pos hroom]

theorem sectExtUpdate_move_refused
    (hread : sectExtRdItm soff sect = .ok item.entity read)
    (hhead : read.head = sect.head)
    (hstart : item.start ≠ sect.head.fstRecPtr)
    (hgrows : item.entity.initRecSz < newEntity.initRecSz)
    (hroom : ¬ entityRecSz newEntity ≤ sect.head.freeSpace) :
    sectExtUpdate soff newKey newVal newEntity sect = .failed read := by
  have hgrows' : item.entity.initRecSz <
      (newEntity.promoted item.entity).initRecSz := by
    rw [Entity.initRecSz_promoted]
    exact lt_max_of_lt_left hgrows
  rw [sectExtUpdate, Prog.bind_of_ok hread,
    Prog.bind_of_ok (Sect.getHead_apply read)]
  rw [item.sizeSub_keyPtr, hhead, if_neg hstart, if_pos hgrows',
    Entity.recSz_promoted, if_neg hroom, Prog.fail_apply]

theorem sectExtUpdate_gap
    (hread : sectExtRdItm soff sect = .ok item.entity read)
    (hhead : read.head = sect.head)
    (hstart : item.start ≠ sect.head.fstRecPtr)
    (hfits : ¬ item.entity.initRecSz < newEntity.initRecSz) :
    sectExtUpdate soff newKey newVal newEntity sect =
      sectExtUpdateGap soff newKey newVal
        (newEntity.promoted item.entity) item.entity read := by
  have hfits' : ¬ item.entity.initRecSz <
      (newEntity.promoted item.entity).initRecSz := by
    rw [Entity.initRecSz_promoted]
    omega
  rw [sectExtUpdate, Prog.bind_of_ok hread,
    Prog.bind_of_ok (Sect.getHead_apply read)]
  rw [item.sizeSub_keyPtr, hhead, if_neg hstart, if_neg hfits']

end Branches

/-! ## The write inside an update -/

/-- The section with its borders at a slot and at the end of a record. -/
def Sect.pointed (sect : Sect) (soff stop freeSpace : ℕ) : Sect :=
  { sect with head := { sect.head with
      lstItmPtr := soff
      fstRecPtr := stop
      freeSpace := freeSpace } }

def Sect.rewritten (sect : Sect) (soff stop freeSpace : ℕ) (key : Str)
    (val : List Byte) (entity : Entity) (lip frp : ℕ) : Sect where
  head := { sect.head with
    lstItmPtr := lip
    fstRecPtr := frp
    freeSpace := frp - lip }
  file := (writtenSect (sect.pointed soff stop freeSpace) key val
    (entity.placed (sect.pointed soff stop freeSpace).head key val)).file

section Rewritten

variable {sect : Sect} {soff stop freeSpace : ℕ} {key : Str}
  {val : List Byte} {entity old : Entity}

theorem Sect.pointed_write (sect : Sect) (entity : Entity)
    (hroom : soff + freeSpace ≤ stop)
    (hstop : stop ≤ 8192)
    (hfree : 80 + key.cnt + val.length ≤ freeSpace) :
    ∃ written, sectExtWrite key val entity
        (sect.pointed soff stop freeSpace) =
          .ok (soff, entity.placed (sect.pointed soff stop freeSpace).head
            key val) written ∧
      written = writtenSect (sect.pointed soff stop freeSpace) key val
        (entity.placed (sect.pointed soff stop freeSpace).head key val) ∧
      written.head.nextPtr = sect.head.nextPtr ∧
      written.head.fileOffset = sect.head.fileOffset ∧
      written.head.fstRecPtr = stop - key.cnt - val.length :=
  ⟨_, sectExtWrite_eq hroom hstop hfree, rfl, rfl, rfl, rfl⟩

theorem Sect.rewritten_of {written : Sect} {lip frp : ℕ}
    (hwritten : written = writtenSect (sect.pointed soff stop freeSpace)
      key val (entity.placed (sect.pointed soff stop freeSpace).head
        key val))
    (hnext : written.head.nextPtr = sect.head.nextPtr)
    (hoffset : written.head.fileOffset = sect.head.fileOffset) :
    ({ written with head := { written.head with
        lstItmPtr := lip
        fstRecPtr := frp
        freeSpace := frp - lip } } : Sect) =
      sect.rewritten soff stop freeSpace key val entity lip frp := by
  rw [Sect.rewritten, ← hwritten]
  simp only [hnext, hoffset]

theorem sectExtUpdateBorder_eq
    (hstop : sizeAdd sect.head.fstRecPtr old.initRecSz = stop)
    (hstopLe : stop ≤ 8192)
    (hfit : soff + (80 + key.cnt + val.length) ≤ stop)
    (hlip : sect.head.lstItmPtr ≤ stop - key.cnt - val.length) :
    sectExtUpdateBorder soff key val entity old sect =
      .ok () (Sect.withHead (sect.rewritten soff stop (stop - soff) key val
        entity sect.head.lstItmPtr (stop - key.cnt - val.length))
          (sect.rewritten soff stop (stop - soff) key val
        entity sect.head.lstItmPtr (stop - key.cnt - val.length)).head) := by
  obtain ⟨written, hwrite, hwritten, hnext, hoffset, hfrp⟩ :=
    Sect.pointed_write sect entity
      (show soff + (stop - soff) ≤ stop by omega) hstopLe
      (show 80 + key.cnt + val.length ≤ stop - soff by omega)
  have hfree : sizeSub stop soff = stop - soff :=
    sizeSub_of_le (by omega) (by omega)
  have hfree' : sizeSub (stop - key.cnt - val.length) sect.head.lstItmPtr =
      stop - key.cnt - val.length - sect.head.lstItmPtr :=
    sizeSub_of_le hlip (by omega)
  have hset : Sect.setHead { sect.head with
      lstItmPtr := soff
      fstRecPtr := stop
      freeSpace := stop - soff } sect =
        .ok () (sect.pointed soff stop (stop - soff)) := rfl
  have hset' : Sect.setHead { written.head with
      lstItmPtr := sect.head.lstItmPtr
      fstRecPtr := stop - key.cnt - val.length
      freeSpace := stop - key.cnt - val.length - sect.head.lstItmPtr }
        written = .ok () (sect.rewritten soff stop (stop - soff) key val
          entity sect.head.lstItmPtr (stop - key.cnt - val.length)) := by
    rw [← Sect.rewritten_of hwritten hnext hoffset]
    rfl
  rw [sectExtUpdateBorder, Prog.bind_of_ok (Sect.getHead_apply sect),
    hstop, hfree, Prog.bind_of_ok hset, Prog.bind_of_ok hwrite,
    Prog.bind_of_ok (Sect.getHead_apply written), hfrp, hfree',
    Prog.bind_of_ok hset', sectHeadSync_apply]

theorem sectExtUpdateMove_eq {deleted : Sect} {gone : Entity}
    (hdelete : sectExtDelete soff sect = .ok gone deleted)
    (hroom : soff + deleted.head.freeSpace ≤ deleted.head.fstRecPtr)
    (hfrpLe : deleted.head.fstRecPtr ≤ 8192)
    (hfit : 80 + key.cnt + val.length ≤ deleted.head.freeSpace)
    (hlip : deleted.head.lstItmPtr ≤
      deleted.head.fstRecPtr - key.cnt - val.length) :
    sectExtUpdateMove soff key val entity sect =
      .ok () (Sect.withHead (deleted.rewritten soff deleted.head.fstRecPtr
        deleted.head.freeSpace key val entity deleted.head.lstItmPtr
        (deleted.head.fstRecPtr - key.cnt - val.length))
          (deleted.rewritten soff deleted.head.fstRecPtr
        deleted.head.freeSpace key val entity deleted.head.lstItmPtr
        (deleted.head.fstRecPtr - key.cnt - val.length)).head) := by
  obtain ⟨written, hwrite, hwritten, hnext, hoffset, hfrp⟩ :=
    Sect.pointed_write deleted entity hroom hfrpLe hfit
  have hfree : sizeSub (deleted.head.fstRecPtr - key.cnt - val.length)
      deleted.head.lstItmPtr =
        deleted.head.fstRecPtr - key.cnt - val.length -
          deleted.head.lstItmPtr := sizeSub_of_le hlip (by omega)
  have hset : Sect.setHead { deleted.head with lstItmPtr := soff } deleted =
      .ok () (deleted.pointed soff deleted.head.fstRecPtr
        deleted.head.freeSpace) := rfl
  have hset' : Sect.setHead { written.head with
      lstItmPtr := deleted.head.lstItmPtr
      fstRecPtr := deleted.head.fstRecPtr - key.cnt - val.length
      freeSpace := deleted.head.fstRecPtr - key.cnt - val.length -
        deleted.head.lstItmPtr } written =
      .ok () (deleted.rewritten soff deleted.head.fstRecPtr
        deleted.head.freeSpace key val entity deleted.head.lstItmPtr
        (deleted.head.fstRecPtr - key.cnt - val.length)) := by
    rw [← Sect.rewritten_of hwritten hnext hoffset]
    rfl
  rw [sectExtUpdateMove, Prog.bind_of_ok (Prog.status_of_ok hdelete),
    Prog.bind_of_ok (Sect.getHead_apply deleted), Prog.bind_of_ok hset,
    Prog.bind_of_ok hwrite, Prog.bind_of_ok (Sect.getHead_apply written),
    hfrp, hfree, Prog.bind_of_ok hset', sectHeadSync_apply]

theorem sectExtUpdateGap_eq
    (hstop : sizeAdd old.keyPtr old.keySize = stop)
    (hstopLe : stop ≤ 8192)
    (hfit : soff + (80 + key.cnt + val.length) ≤ stop)
    (hborders : sect.head.lstItmPtr ≤ sect.head.fstRecPtr)
    (hfrpLt : sect.head.fstRecPtr < 2 ^ 64) :
    sectExtUpdateGap soff key val entity old sect =
      .ok () (sect.rewritten soff stop (stop - soff) key val entity
        sect.head.lstItmPtr sect.head.fstRecPtr) := by
  obtain ⟨written, hwrite, hwritten, hnext, hoffset, hfrp⟩ :=
    Sect.pointed_write sect entity
      (show soff + (stop - soff) ≤ stop by omega) hstopLe
      (show 80 + key.cnt + val.length ≤ stop - soff by omega)
  have hfree : sizeSub stop soff = stop - soff :=
    sizeSub_of_le (by omega) (by omega)
  have hfree' : sizeSub sect.head.fstRecPtr sect.head.lstItmPtr =
      sect.head.fstRecPtr - sect.head.lstItmPtr :=
    sizeSub_of_le hborders hfrpLt
  have hset : Sect.setHead { sect.head with
      lstItmPtr := soff
      fstRecPtr := stop
      freeSpace := stop - soff } sect =
        .ok () (sect.pointed soff stop (stop - soff)) := rfl
  rw [sectExtUpdateGap, Prog.bind_of_ok (Sect.getHead_apply sect),
    hstop, hfree, Prog.bind_of_ok hset, Prog.bind_of_ok hwrite,
    Prog.bind_of_ok (Sect.getHead_apply written), hfree',
    ← Sect.rewritten_of hwritten hnext hoffset, Sect.setHead_apply]

end Rewritten

end NosqlDbms
