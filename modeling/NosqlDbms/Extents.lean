import NosqlDbms.SectionHead
import Mathlib.Tactic

/-!
# Extents sections

An extents section holds entities.  Their slots of `sizeof(Entity)` bytes grow
up from the header, their records, a value followed by its key, grow down from
the end of the section.
-/

namespace NosqlDbms

/-- `sect_ext_ctor`. -/
def sectExtCtor (offset : ℕ) : Prog Sect Unit := sectHeadCtor offset

def sectExtWrtItm (soff : ℕ) (entity : Entity) : Prog Sect Unit :=
  sectHeadWrite soff entity.bytes

def sectExtRdItm (soff : ℕ) : Prog Sect Entity := do
  let data ← sectHeadRead soff sizeofEntity
  return Entity.ofBytes data

/-- `sect_ext_write`: returns `*save_addr` and the entity with its record
pointers.  The size in the test is that of objects in memory and does not
wrap. -/
def sectExtWrite (key : Str) (val : List Byte) (entity : Entity) :
    Prog Sect (ℕ × Entity) := do
  let head ← Sect.getHead
  if head.freeSpace < sizeofEntity + key.cnt + val.length then Prog.fail
  else do
    let saveAddr := head.lstItmPtr
    sectHeadShiftFrp (sizeNeg key.cnt)
    let head ← Sect.getHead
    sectHeadWrite head.fstRecPtr key.val
    let entity := { entity with keyPtr := head.fstRecPtr }
    sectHeadShiftFrp (sizeNeg val.length)
    let head ← Sect.getHead
    sectHeadWrite head.fstRecPtr val
    let entity := { entity with valPtr := head.fstRecPtr }
    let head ← Sect.getHead
    sectExtWrtItm head.lstItmPtr entity
    sectHeadShiftLip sizeofEntity
    sectHeadSync
    return (saveAddr, entity)

/-- `sect_ext_read`: the entity, the key and the value of the node. -/
def sectExtRead (soff : ℕ) : Prog Sect (Entity × Str × JsonValue) := do
  let entity ← sectExtRdItm soff
  let key ← sectHeadRead entity.keyPtr entity.keySize
  match JsonType.ofCode? entity.type with
  | none => Prog.stuck
  | some type => do
      let data ←
        if type = .object then pure []
        else sectHeadRead entity.valPtr entity.valSize
      match readValue type data with
      | none => Prog.stuck
      | some value => do
          sectHeadSync
          return (entity, stringCtor key, value)

/-- The start of `sect_ext_delete`: the borders move past the last item. -/
def sectExtShiftLast (soff : ℕ) (entity : Entity) : Prog Sect Unit := do
  let head ← Sect.getHead
  if sizeAdd soff sizeofEntity = head.lstItmPtr then do
    sectHeadShiftLip (sizeNeg sizeofEntity)
    sectHeadShiftFrp (entityRecSz entity)
  else pure ()

/-- `sect_ext_delete`: returns the deleted entity. -/
def sectExtDelete (soff : ℕ) : Prog Sect Entity := do
  let entity ← sectExtRdItm soff
  sectExtShiftLast soff entity
  sectHeadWrite (sizeSub entity.keyPtr entity.valSize)
    (List.replicate (entityRecSz entity) 0)
  sectExtWrtItm soff entityClear
  sectHeadCmprsLip sizeofEntity
  sectHeadCmprsFrp
  sectHeadSync
  return entity

/-- The values of `i` in the loop of `sect_ext_load`. -/
def slotOffsets (lstItmPtr : ℕ) : List ℕ :=
  (List.range ((lstItmPtr - sizeofSectHeadEntity + (sizeofEntity - 1)) /
    sizeofEntity)).map (fun index => sizeofSectHeadEntity + sizeofEntity * index)

/-- The offsets in the file of those slots that can be read. -/
def sectExtLoadSlots : List ℕ → Prog Sect (List ℕ)
  | [] => pure []
  | soff :: rest => do
      let head ← Sect.getHead
      let entry ← (sectExtRead soff).status
      let found ← sectExtLoadSlots rest
      match entry with
      | some _ => return (sectHeadGetFileoff head soff).toNat :: found
      | none => return found

/-- `sect_ext_load`. -/
def sectExtLoad : Prog Sect (List ℕ) := do
  let head ← Sect.getHead
  sectExtLoadSlots (slotOffsets head.lstItmPtr)

/-! ## What lies in a section -/

def Sect.entityAt (sect : Sect) (soff : ℕ) : Entity :=
  Entity.ofBytes (sect.file.bytes (sect.head.fileOffset + soff) sizeofEntity)

/-- The slot was cleared, or never written. -/
def Sect.cleared (sect : Sect) (soff : ℕ) : Bool :=
  isZeroed (sect.file.bytes (sect.head.fileOffset + soff) sizeofEntity)

/-- Slots below the item border that are in use. -/
def Sect.liveSlots (sect : Sect) : List ℕ :=
  (slotOffsets sect.head.lstItmPtr).filter (fun soff => !sect.cleared soff)

/-- The lowest byte of the record that is the lowest one once the slots
`gone` are deleted: records lie in the order of their slots, from the end of
the section downwards, and empty records take no place. -/
def Sect.borderByte (sect : Sect) (gone : List ℕ) : Option Byte :=
  ((sect.liveSlots.filter (fun soff =>
      !gone.contains soff && entityRecSz (sect.entityAt soff) != 0)).getLast?).map
    (fun soff =>
      sect.file.cell (sect.head.fileOffset + (sect.entityAt soff).valPtr))

end NosqlDbms
