import NosqlDbms.SectionHead
import Mathlib.Tactic

/-!
# Types sections

A types section holds types.  A type takes one slot of `sizeof(Type_entity)`
bytes and one of `sizeof(Attr_entity)` for each attribute, right behind it;
the names grow down from the end of the section, that of the type first.  Both
kinds of slots have one size, and what is deleted becomes zero.
-/

namespace NosqlDbms

def sizeofTypeEntity : ℕ := 24

def sizeofAttrEntity : ℕ := 24

structure TypeEntity where
  nameSize : ℕ
  namePtr : ℕ
  attrCnt : ℕ
  deriving DecidableEq, Repr

structure AttrEntity where
  nameSize : ℕ
  namePtr : ℕ
  attrType : ℕ
  deriving DecidableEq, Repr

namespace TypeEntity

def bytes (entity : TypeEntity) : List Byte :=
  wordsBytes [entity.nameSize, entity.namePtr, entity.attrCnt]

def ofBytes (data : List Byte) : TypeEntity where
  nameSize := wordAt data 0
  namePtr := wordAt data 1
  attrCnt := wordAt data 2

end TypeEntity

namespace AttrEntity

def bytes (entity : AttrEntity) : List Byte :=
  wordsBytes [entity.nameSize, entity.namePtr, entity.attrType]

def ofBytes (data : List Byte) : AttrEntity where
  nameSize := wordAt data 0
  namePtr := wordAt data 1
  attrType := wordAt data 2

end AttrEntity

/-! ## Sizes of a type -/

def typeItmSz (type : DocType) : ℕ :=
  sizeofTypeEntity + type.attrList.length * sizeofAttrEntity

def typeRecSz (type : DocType) : ℕ :=
  type.name.cnt + (type.attrList.map (fun attr => attr.name.cnt)).sum

def typePhSz (type : DocType) : ℕ := typeItmSz type + typeRecSz type

/-! ## Operations -/

/-- `sect_types_ctor`. -/
def sectTypesCtor (offset : ℕ) : Prog Sect Unit := sectHeadCtor offset

def sectTypesRdType (soff : ℕ) : Prog Sect TypeEntity := do
  let data ← sectHeadRead soff sizeofTypeEntity
  return TypeEntity.ofBytes data

def sectTypesRdAtr (soff : ℕ) : Prog Sect AttrEntity := do
  let data ← sectHeadRead soff sizeofAttrEntity
  return AttrEntity.ofBytes data

def sectTypesWrtType (soff : ℕ) (entity : TypeEntity) : Prog Sect Unit :=
  sectHeadWrite soff entity.bytes

def sectTypesWrtAtr (soff : ℕ) (entity : AttrEntity) : Prog Sect Unit :=
  sectHeadWrite soff entity.bytes

/-- The loop of `sect_types_write` over the attributes. -/
def sectTypesWriteAttrs : List Attr → Prog Sect Unit
  | [] => pure ()
  | attr :: rest => do
      sectHeadShiftFrp (sizeNeg attr.name.cnt)
      let head ← Sect.getHead
      sectHeadWrite head.fstRecPtr attr.name.val
      sectTypesWrtAtr head.lstItmPtr
        ⟨attr.name.cnt, head.fstRecPtr, attr.type.code⟩
      sectHeadShiftLip sizeofAttrEntity
      sectTypesWriteAttrs rest

/-- `sect_types_write`: returns `*o_wrt_soff`. -/
def sectTypesWrite (type : DocType) : Prog Sect ℕ := do
  let head ← Sect.getHead
  if head.freeSpace < typePhSz type then Prog.fail
  else do
    sectHeadShiftFrp (sizeNeg type.name.cnt)
    let head ← Sect.getHead
    sectHeadWrite head.fstRecPtr type.name.val
    let wrtSoff := head.lstItmPtr
    sectTypesWrtType head.lstItmPtr
      ⟨type.name.cnt, head.fstRecPtr, type.attrList.length⟩
    sectHeadShiftLip sizeofTypeEntity
    sectTypesWriteAttrs type.attrList
    return wrtSoff

/-- Offset of the last attribute's slot; without attributes the index wraps
and it is the slot of the type. -/
def lstAtrSoff (soff attrCnt : ℕ) : ℕ :=
  sizeAdd (sizeAdd soff sizeofTypeEntity)
    (sizeSub attrCnt 1 * sizeofAttrEntity % sizeMax)

/-- `sect_types_delete`. -/
def sectTypesDelete (soff : ℕ) : Prog Sect Unit := do
  let typeEnt ← sectTypesRdType soff
  let lstAtr ← sectTypesRdAtr (lstAtrSoff soff typeEnt.attrCnt)
  let itmSz := sizeAdd sizeofTypeEntity
    (typeEnt.attrCnt * sizeofAttrEntity % sizeMax)
  let recSz := sizeSub (sizeAdd typeEnt.namePtr typeEnt.nameSize)
    lstAtr.namePtr
  sectHeadWrite soff (List.replicate itmSz 0)
  sectHeadWrite lstAtr.namePtr (List.replicate recSz 0)
  sectHeadCmprsLip sizeofAttrEntity
  sectHeadCmprsFrp

/-- The loop of `sect_types_read` over the attributes. -/
def sectTypesReadAttrs : ℕ → ℕ → Prog Sect (List Attr)
  | 0, _ => pure []
  | count + 1, soff => do
      let entity ← sectTypesRdAtr soff
      let name ← sectHeadRead entity.namePtr entity.nameSize
      match JsonType.ofCode? entity.attrType with
      | none => Prog.stuck
      | some type => do
          let rest ← sectTypesReadAttrs count (sizeAdd soff sizeofAttrEntity)
          return ⟨stringCtor name, type⟩ :: rest

/-- `sect_types_read`: the type and the size of its slots. -/
def sectTypesRead (soff : ℕ) : Prog Sect (DocType × ℕ) := do
  let entity ← sectTypesRdType soff
  let name ← sectHeadRead entity.namePtr entity.nameSize
  let attrs ← sectTypesReadAttrs entity.attrCnt
    (sizeAdd soff sizeofTypeEntity)
  return (⟨stringCtor name, attrs⟩,
    sizeofTypeEntity + entity.attrCnt * sizeofAttrEntity)

/-- The loop of `sect_types_load`; a slot is at least passed in each round. -/
def sectTypesLoadFrom : ℕ → ℕ → Prog Sect (List (ℕ × DocType))
  | 0, _ => Prog.stuck
  | fuel + 1, soff => do
      let head ← Sect.getHead
      if soff < head.lstItmPtr then do
        let read ← sectTypesRead soff
        let rest ← sectTypesLoadFrom fuel (sizeAdd soff read.2)
        return (soff, read.1) :: rest
      else pure []

/-- `sect_types_load`. -/
def sectTypesLoad : Prog Sect (List (ℕ × DocType)) := do
  let head ← Sect.getHead
  sectTypesLoadFrom (head.lstItmPtr + 1) sizeofSectHeadEntity

/-- `sect_types_find`: the first type of the name with its offset. -/
def sectTypesFind (name : Str) : Prog Sect (ℕ × DocType) := do
  let types ← sectTypesLoad
  match types.find? (fun entry => stringCmp entry.2.name name == 0) with
  | none => Prog.fail
  | some entry => pure entry

theorem lstAtrSoff_of_le {soff attrCnt : ℕ}
    (hle : soff + 24 + 24 * attrCnt ≤ 8192) :
    lstAtrSoff soff attrCnt = soff + 24 * attrCnt := by
  rw [lstAtrSoff, sizeofTypeEntity, sizeofAttrEntity,
    sizeAdd_of_lt (by omega : soff + 24 < 2 ^ 64)]
  rcases Nat.eq_zero_or_pos attrCnt with hnil | hpos
  · have hwrap : sizeSub 0 1 * 24 % sizeMax = 2 ^ 64 - 24 := by decide
    rw [hnil, hwrap, sizeAdd, sizeMax]
    omega
  · rw [sizeSub_of_le (by omega) (by omega), sizeMax,
      Nat.mod_eq_of_lt (by omega), sizeAdd_of_lt (by omega)]
    omega

end NosqlDbms
