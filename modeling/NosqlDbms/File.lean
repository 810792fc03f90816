import NosqlDbms.Extents
import NosqlDbms.Types
import Mathlib.Tactic

/-!
# The file of sections

`File`: a header with the offset behind the last section, a list of extents
sections and a list of types sections, all in one file.  Both lists are walked
in the same way, so what the source writes once for each kind of section is
written here once for both.  Offsets in the file do not wrap.
-/

namespace NosqlDbms

inductive SectKind where
  | extents
  | types
  deriving DecidableEq, Repr

structure File where
  lstSectPtr : ℕ
  extents : List SectHead
  types : List SectHead
  storage : Storage

namespace File

variable {α : Type}

def sects (file : File) : SectKind → List SectHead
  | .extents => file.extents
  | .types => file.types

def withSects (file : File) (kind : SectKind) (sects : List SectHead) :
    File :=
  match kind with
  | .extents => { file with extents := sects }
  | .types => { file with types := sects }

/-- A section of the list, by its position. -/
def headAt (file : File) (kind : SectKind) (index : ℕ) : Option SectHead :=
  (file.sects kind)[index]?

def onStorage (call : Prog Storage α) : Prog File α :=
  call.zoom File.storage (fun file storage => { file with storage := storage })

def putSect (file : File) (kind : SectKind) (index : ℕ) (sect : Sect) :
    File :=
  { file.withSects kind ((file.sects kind).set index sect.head) with
    storage := sect.file }

def onSect (kind : SectKind) (index : ℕ) (call : Prog Sect α) :
    Prog File α := fun file =>
  match file.headAt kind index with
  | none => .stuck
  | some head =>
      (call ⟨head, file.storage⟩).mapState (file.putSect kind index)

def sectHead (kind : SectKind) (index : ℕ) : Prog File SectHead := fun file =>
  match file.headAt kind index with
  | none => .stuck
  | some head => .ok head file

/-- `while (sect != NULL && call(sect) == FAILED) sect = sect->next`, with
`count` sections from `index` on: the section that takes the call. -/
def firstFit (kind : SectKind) (call : Prog Sect α) :
    ℕ → ℕ → Prog File (Option (ℕ × α))
  | 0, _ => pure none
  | count + 1, index => do
      match ← (onSect kind index call).status with
      | some value => pure (some (index, value))
      | none => firstFit kind call count (index + 1)

def firstSect (kind : SectKind) (call : Prog Sect α) :
    Prog File (Option (ℕ × α)) := do
  let file ← Prog.get
  firstFit kind call (file.sects kind).length 0

end File

/-! ## The header of the file -/

def fileHeadSync : Prog File Unit := do
  let file ← Prog.get
  File.onStorage (Storage.fwrite 0 (wordBytes file.lstSectPtr))

/-- `file_head_ctor`, for the file and its two empty lists. -/
def fileCtor : Prog File Unit := do
  Prog.modify (fun file =>
    { file with extents := [], types := [], lstSectPtr := sizeofFileHeadEntity })
  fileHeadSync

/-- The file that `file_ctor` makes of an empty one. -/
def emptyFile : File :=
  ⟨8, [], [], Storage.empty.write 0 (wordBytes 8)⟩

def fileHeadWrite (foff : ℕ) (data : List Byte) : Prog File Unit :=
  if data.length ≠ 0 then File.onStorage (Storage.fwrite foff data)
  else pure ()

def fileHeadShiftLsp (shift : ℕ) : Prog File Unit := do
  Prog.modify (fun file =>
    { file with lstSectPtr := file.lstSectPtr + shift })
  fileHeadSync

/-! ## Sections -/

/-- The first section of the kind around the offset. -/
def getSect (kind : SectKind) (foff : ℕ) : Prog File (Option ℕ) := do
  let file ← Prog.get
  return (file.sects kind).findIdx? (fun head =>
    decide (head.fileOffset ≤ foff) &&
      decide (foff < head.fileOffset + SECTION_SIZE))

def getSectExt (foff : ℕ) : Prog File (Option ℕ) := getSect .extents foff

def getSectTypes (foff : ℕ) : Prog File (Option ℕ) := getSect .types foff

/-- The head that `sect_ext_new` and `sect_types_new` allocate. -/
def sectHeadNew : SectHead := ⟨0, 0, 0, 0, 0⟩

/-- A new section behind the last one.  The status of its construction is
not looked at. -/
def fileAddSect (kind : SectKind) (ctor : ℕ → Prog Sect Unit) :
    Prog File Unit := do
  let file ← Prog.get
  let _ ← ((ctor file.lstSectPtr).zoom
    (fun file => ⟨sectHeadNew, file.storage⟩)
    (fun file sect =>
      { file.withSects kind (file.sects kind ++ [sect.head]) with
        storage := sect.file })).status
  fileHeadShiftLsp SECTION_SIZE

def fileAddSectExt : Prog File Unit := fileAddSect .extents sectExtCtor

def fileAddSectTypes : Prog File Unit := fileAddSect .types sectTypesCtor

/-- A write into the first section that takes it, or into a new one: the
section and what the write returned. -/
def fileFit {α : Type} (kind : SectKind) (add : Prog File Unit)
    (call : Prog Sect α) : Prog File (ℕ × α) := do
  match ← File.firstSect kind call with
  | some found => pure found
  | none => do
      let file ← Prog.get
      add
      let value ← File.onSect kind (file.sects kind).length call
      return ((file.sects kind).length, value)

/-- `sect_head_get_fileoff` of a section offset. -/
def fileSectFileoff (kind : SectKind) (index soff : ℕ) : Prog File ℕ := do
  let head ← File.sectHead kind index
  return (sectHeadGetFileoff head soff).toNat

/-- A call on the section around the offset, which becomes one in the
section. -/
def fileAt {α : Type} (kind : SectKind) (foff : ℕ)
    (call : ℕ → Prog Sect α) : Prog File (ℕ × α) := do
  match ← getSect kind foff with
  | none => Prog.fail
  | some index => do
      let head ← File.sectHead kind index
      let value ← File.onSect kind index
        (call (sectHeadGetSectoff head foff))
      return (index, value)

/-! ## Types -/

/-- `file_add_type`: returns `*wrt_foff`. -/
def fileAddType (type : DocType) : Prog File ℕ := do
  let found ← fileFit .types fileAddSectTypes (sectTypesWrite type)
  let wrtFoff ← fileSectFileoff .types found.1 found.2
  fileHeadSync
  return wrtFoff

/-- `file_find_type`: the section, the offset in it and the type. -/
def fileFindType (name : Str) : Prog File (ℕ × ℕ × DocType) := do
  match ← File.firstSect .types (sectTypesFind name) with
  | none => Prog.fail
  | some found => pure found

def fileDeleteType (name : Str) : Prog File Unit := do
  let found ← fileFindType name
  File.onSect .types found.1 (sectTypesDelete found.2.1)
  fileHeadSync

def fileReadType (foff : ℕ) : Prog File DocType := do
  let read ← fileAt .types foff sectTypesRead
  return read.2.1

/-! ## Objects -/

/-- `file_write`: returns `*wrt_foff`.  The entity is written before its
brothers and sons and once more when their offsets are known. -/
def fileWrite : Json → ℕ → ℕ → Prog File ℕ
  | .null, _, _ => Prog.stuck
  | .node key value bro son, dadFileoff, typeFoff => do
      let found ← fileFit .extents fileAddSectExt
        (sectExtWrite key (jsonValPtr value)
          (entityInit key value dadFileoff 0 0 typeFoff))
      let wrtFoff ← fileSectFileoff .extents found.1 found.2.1
      let broOffset ←
        (if bro.isNull then pure 0 else fileWrite bro dadFileoff 0)
      let sonOffset ←
        (if son.isNull then pure 0 else fileWrite son wrtFoff 0)
      let entity : Entity := { found.2.2 with
        famAddr := { found.2.2.famAddr with
          broPtr := broOffset
          sonPtr := sonOffset } }
      let _ ← (File.onSect .extents found.1
        (sectExtWrtItm found.2.1 entity)).status
      fileHeadSync
      return wrtFoff

/-- `file_read`.  `fuel` bounds the depth of the recursion. -/
def fileRead : ℕ → ℕ → Prog File (Json × Entity)
  | 0, _ => Prog.stuck
  | fuel + 1, foff => do
      let read ← fileAt .extents foff sectExtRead
      let entity := read.2.1
      let json := Json.node read.2.2.1 read.2.2.2 .null .null
      let json ←
        (if entity.famAddr.broPtr ≠ 0 then do
          let bro ← fileRead fuel entity.famAddr.broPtr
          pure (jsonAddBro json bro.1)
        else pure json)
      let json ←
        (if entity.famAddr.sonPtr ≠ 0 then do
          let son ← fileRead fuel entity.famAddr.sonPtr
          pure (jsonAddSon json son.1)
        else pure json)
      return (json, entity)

/-- `file_delete`.  The write to the dad is not checked. -/
def fileDelete : ℕ → ℕ → Bool → Prog File Unit
  | 0, _, _ => Prog.stuck
  | fuel + 1, foff, isRoot => do
      let deleted ← fileAt .extents foff sectExtDelete
      let famAddr := deleted.2.famAddr
      (if !isRoot && famAddr.broPtr != 0 then
        fileDelete fuel famAddr.broPtr false
      else pure ())
      (if famAddr.sonPtr ≠ 0 then fileDelete fuel famAddr.sonPtr false
      else pure ())
      (if isRoot && famAddr.dadPtr != 0 then do
        let _ ← (fileHeadWrite (famAddr.dadPtr + offsetofSonPtr)
          (wordBytes famAddr.broPtr)).status
        pure ()
      else pure ())
      fileHeadSync

end NosqlDbms
