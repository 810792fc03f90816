import NosqlDbms.Json
import Mathlib.Tactic

/-!
# Section headers

`Sect_head`: the borders of a section of `SECTION_SIZE` bytes, kept in memory
and copied to the start of the section by `sect_head_sync`.  The borders are
`size_t` values and wrap.
-/

namespace NosqlDbms

/-! ## `size_t` arithmetic -/

def sizeMax : ℕ := 2 ^ 64

def sizeAdd (first second : ℕ) : ℕ := (first + second) % sizeMax

def sizeSub (first second : ℕ) : ℕ :=
  if second ≤ first then (first - second) % sizeMax
  else (sizeMax - (second - first) % sizeMax) % sizeMax

/-- `-1 * n`. -/
def sizeNeg (value : ℕ) : ℕ := sizeSub 0 value

/-- A wrapped section offset, seen as a distance from the section. -/
def sizeToLong (value : ℕ) : ℤ :=
  if value < 2 ^ 63 then value else (value : ℤ) - 2 ^ 64

theorem sizeAdd_of_lt {first second : ℕ} (h : first + second < 2 ^ 64) :
    sizeAdd first second = first + second := Nat.mod_eq_of_lt h

theorem sizeSub_of_le {first second : ℕ} (hle : second ≤ first)
    (hlt : first < 2 ^ 64) : sizeSub first second = first - second := by
  have hdiff : first - second < sizeMax := by
    unfold sizeMax
    omega
  rw [sizeSub, if_pos hle, Nat.mod_eq_of_lt hdiff]

theorem sizeNeg_zero : sizeNeg 0 = 0 :=
  sizeSub_of_le le_rfl (by norm_num)

theorem sizeNeg_eq {value : ℕ} (hpos : 0 < value) (hlt : value < 2 ^ 64) :
    sizeNeg value = 2 ^ 64 - value := by
  have hlt' : value < sizeMax := hlt
  have hdiff : sizeMax - value < sizeMax := by omega
  rw [sizeNeg, sizeSub, if_neg (by omega), Nat.sub_zero,
    Nat.mod_eq_of_lt hlt', Nat.mod_eq_of_lt hdiff, sizeMax]

theorem sizeAdd_sizeNeg {first second : ℕ} (hle : second ≤ first)
    (hlt : first < 2 ^ 64) :
    sizeAdd first (sizeNeg second) = first - second := by
  rcases Nat.eq_zero_or_pos second with rfl | hpos
  · rw [sizeNeg_zero]
    exact sizeAdd_of_lt (by omega)
  · have hsum : first + (2 ^ 64 - second) =
        (first - second) + sizeMax := by
      unfold sizeMax
      omega
    have hdiff : first - second < sizeMax := by
      unfold sizeMax
      omega
    rw [sizeNeg_eq hpos (by omega), sizeAdd, hsum, Nat.add_mod_right,
      Nat.mod_eq_of_lt hdiff]

theorem sizeSub_sizeNeg {first second : ℕ}
    (hlt : first + second < 2 ^ 64) :
    sizeSub first (sizeNeg second) = first + second := by
  rcases Nat.eq_zero_or_pos second with rfl | hpos
  · rw [sizeNeg_zero]
    exact sizeSub_of_le (Nat.zero_le _) (by omega)
  · have hdiff : 2 ^ 64 - second - first < sizeMax := by
      unfold sizeMax
      omega
    have hback : sizeMax - (2 ^ 64 - second - first) =
        first + second := by
      unfold sizeMax
      omega
    have hsum : first + second < sizeMax := by
      unfold sizeMax
      omega
    rw [sizeNeg_eq hpos (by omega), sizeSub, if_neg (by omega),
      Nat.mod_eq_of_lt hdiff, hback, Nat.mod_eq_of_lt hsum]

theorem sizeToLong_of_lt {value : ℕ} (h : value < 2 ^ 63) :
    sizeToLong value = value := if_pos h

/-! ## The header and its operations -/

structure SectHead where
  freeSpace : ℕ
  nextPtr : ℕ
  lstItmPtr : ℕ
  fstRecPtr : ℕ
  fileOffset : ℕ
  deriving DecidableEq, Repr

/-- A section as its operations see it: the header in memory and the file. -/
structure Sect where
  head : SectHead
  file : Storage

/-- `sect_head_get_fileoff`; file offsets do not wrap. -/
def sectHeadGetFileoff (head : SectHead) (offset : ℕ) : ℤ :=
  head.fileOffset + sizeToLong offset

def sectHeadGetSectoff (head : SectHead) (offset : ℕ) : ℕ :=
  offset - head.fileOffset

theorem sectHeadGetFileoff_of_lt {head : SectHead} {offset : ℕ}
    (h : offset < 2 ^ 63) :
    sectHeadGetFileoff head offset = ((head.fileOffset + offset : ℕ) : ℤ) := by
  rw [sectHeadGetFileoff, sizeToLong_of_lt h]
  push_cast
  ring

/-- `Sect_head_entity`. -/
def SectHead.bytes (head : SectHead) : List Byte :=
  wordsBytes [head.freeSpace, head.nextPtr, head.lstItmPtr, head.fstRecPtr]

@[simp] theorem SectHead.length_bytes (head : SectHead) :
    head.bytes.length = sizeofSectHeadEntity := by
  simp [SectHead.bytes, sizeofSectHeadEntity]

def Sect.onFile {α : Type} (call : Prog Storage α) : Prog Sect α :=
  call.zoom Sect.file (fun sect file => { sect with file := file })

def Sect.getHead : Prog Sect SectHead := fun sect => .ok sect.head sect

def Sect.setHead (head : SectHead) : Prog Sect Unit := fun sect =>
  .ok () { sect with head := head }

def sectHeadSync : Prog Sect Unit := do
  let head ← Sect.getHead
  Sect.onFile (Storage.fwrite head.fileOffset head.bytes)

def sectHeadCtor (offset : ℕ) : Prog Sect Unit := do
  Sect.setHead {
    freeSpace := SECTION_SIZE - sizeofSectHeadEntity
    nextPtr := 0
    lstItmPtr := sizeofSectHeadEntity
    fstRecPtr := SECTION_SIZE
    fileOffset := offset }
  sectHeadSync

def sectHeadShiftLip (shift : ℕ) : Prog Sect Unit := do
  let head ← Sect.getHead
  Sect.setHead { head with
    freeSpace := sizeSub head.freeSpace shift
    lstItmPtr := sizeAdd head.lstItmPtr shift }
  sectHeadSync

def sectHeadShiftFrp (shift : ℕ) : Prog Sect Unit := do
  let head ← Sect.getHead
  Sect.setHead { head with
    freeSpace := sizeAdd head.freeSpace shift
    fstRecPtr := sizeAdd head.fstRecPtr shift }
  sectHeadSync

def sectHeadRead (soff size : ℕ) : Prog Sect (List Byte) := do
  let head ← Sect.getHead
  if size ≠ 0 then
    Sect.onFile (Storage.fread (sectHeadGetFileoff head soff) size)
  else pure []

def sectHeadWrite (soff : ℕ) (data : List Byte) : Prog Sect Unit := do
  let head ← Sect.getHead
  if data.length ≠ 0 then
    Sect.onFile (Storage.fwrite (sectHeadGetFileoff head soff) data)
  else pure ()

/-- `memcmp` with a block of zeros. -/
def isZeroed (data : List Byte) : Bool := data.all (· == 0)

/-- The loop of `sect_head_cmprs_lip`.  `data` is what the last read left in
the buffer, nothing known when it failed.  The border is at least one item
lower after each round, so its first value bounds the number of rounds. -/
def cmprsLipLoop (itmSize : ℕ) : ℕ → Option (List Byte) → Prog Sect Unit
  | 0, _ => Prog.stuck
  | fuel + 1, data => do
      let head ← Sect.getHead
      if head.lstItmPtr = sizeofSectHeadEntity then pure ()
      else
        match data with
        | none => Prog.stuck
        | some data =>
            if isZeroed data then do
              let lstItmPtr := sizeSub head.lstItmPtr itmSize
              Sect.setHead { head with
                lstItmPtr := lstItmPtr
                freeSpace := sizeAdd head.freeSpace itmSize }
              let data ←
                (sectHeadRead (sizeSub lstItmPtr itmSize) itmSize).status
              cmprsLipLoop itmSize fuel data
            else pure ()

def sectHeadCmprsLip (itmSize : ℕ) : Prog Sect Unit := do
  let head ← Sect.getHead
  let data ←
    (sectHeadRead (sizeSub head.lstItmPtr itmSize) itmSize).status
  cmprsLipLoop itmSize (head.lstItmPtr + 1) data
  sectHeadSync

/-- The loop of `sect_head_cmprs_frp`.  `chr` is the local variable, without a
value until a read succeeds.  Each round adds one to the border, so the
wrapped distance to `SECTION_SIZE` bounds the number of rounds. -/
def cmprsFrpLoop : ℕ → Option Byte → Prog Sect Unit
  | 0, _ => Prog.stuck
  | fuel + 1, chr => do
      let head ← Sect.getHead
      let data ← (sectHeadRead head.fstRecPtr 1).status
      let chr := (data.bind List.head?).or chr
      if head.fstRecPtr = SECTION_SIZE then pure ()
      else
        match chr with
        | none => Prog.stuck
        | some chr =>
            if chr ≠ 0 then pure ()
            else do
              Sect.setHead { head with
                fstRecPtr := sizeAdd head.fstRecPtr 1
                freeSpace := sizeAdd head.freeSpace 1 }
              cmprsFrpLoop fuel (some chr)

def sectHeadCmprsFrp : Prog Sect Unit := do
  let head ← Sect.getHead
  cmprsFrpLoop (sizeSub SECTION_SIZE head.fstRecPtr + 1) none
  sectHeadSync

theorem isZeroed_iff {data : List Byte} :
    isZeroed data = true ↔ data = List.replicate data.length 0 := by
  simp [isZeroed, List.eq_replicate_iff]

/-! ## What one call does -/

@[simp] theorem Sect.getHead_apply (sect : Sect) :
    Sect.getHead sect = .ok sect.head sect := rfl

@[simp] theorem Sect.setHead_apply (head : SectHead) (sect : Sect) :
    Sect.setHead head sect = .ok () { sect with head := head } := rfl

def Sect.synced (sect : Sect) : Sect :=
  { sect with
    file := sect.file.write sect.head.fileOffset sect.head.bytes }

def Sect.withHead (sect : Sect) (head : SectHead) : Sect :=
  Sect.synced { sect with head := head }

def Sect.putAt (sect : Sect) (soff : ℕ) (data : List Byte) : Sect :=
  { sect with
    file := sect.file.put (sect.head.fileOffset + soff) data }

def SectHead.lower (head : SectHead) (size : ℕ) : SectHead :=
  { head with
    freeSpace := head.freeSpace - size
    fstRecPtr := head.fstRecPtr - size }

def SectHead.raise (head : SectHead) (size : ℕ) : SectHead :=
  { head with
    freeSpace := head.freeSpace - size
    lstItmPtr := head.lstItmPtr + size }

@[simp] theorem Sect.synced_head (sect : Sect) :
    sect.synced.head = sect.head := rfl

theorem Sect.cell_synced (sect : Sect) {position : ℕ}
    (hposition : 32 ≤ position) :
    sect.synced.file.cell (sect.head.fileOffset + position) =
      sect.file.cell (sect.head.fileOffset + position) := by
  apply Storage.cell_write_of_out
  right
  rw [SectHead.length_bytes]
  simp only [sizeofSectHeadEntity]
  omega

@[simp] theorem Sect.withHead_head (sect : Sect) (head : SectHead) :
    (sect.withHead head).head = head := rfl

@[simp] theorem Sect.withHead_file (sect : Sect) (head : SectHead) :
    (sect.withHead head).file =
      sect.file.write head.fileOffset head.bytes := rfl

@[simp] theorem Sect.putAt_head (sect : Sect) (soff : ℕ)
    (data : List Byte) : (sect.putAt soff data).head = sect.head := rfl

@[simp] theorem Sect.putAt_file (sect : Sect) (soff : ℕ)
    (data : List Byte) :
    (sect.putAt soff data).file =
      sect.file.put (sect.head.fileOffset + soff) data := rfl

@[simp] theorem sectHeadSync_apply (sect : Sect) :
    sectHeadSync sect = .ok () (sect.withHead sect.head) := rfl

theorem sectHeadShiftFrp_neg {sect : Sect} {size : ℕ}
    (hfrp : size ≤ sect.head.fstRecPtr)
    (hfrpLt : sect.head.fstRecPtr < 2 ^ 64)
    (hfree : size ≤ sect.head.freeSpace)
    (hfreeLt : sect.head.freeSpace < 2 ^ 64) :
    sectHeadShiftFrp (sizeNeg size) sect =
      .ok () (sect.withHead (sect.head.lower size)) := by
  rw [SectHead.lower, ← sizeAdd_sizeNeg hfrp hfrpLt,
    ← sizeAdd_sizeNeg hfree hfreeLt]
  rfl

theorem sectHeadShiftLip_of_le {sect : Sect} {size : ℕ}
    (hlip : sect.head.lstItmPtr + size < 2 ^ 64)
    (hfree : size ≤ sect.head.freeSpace)
    (hfreeLt : sect.head.freeSpace < 2 ^ 64) :
    sectHeadShiftLip size sect =
      .ok () (sect.withHead (sect.head.raise size)) := by
  rw [SectHead.raise, ← sizeSub_of_le hfree hfreeLt,
    ← sizeAdd_of_lt hlip]
  rfl

@[simp] theorem sectHeadRead_zero (soff : ℕ) (sect : Sect) :
    sectHeadRead soff 0 sect = .ok [] sect := rfl

theorem sectHeadRead_of_le {sect : Sect} {soff size : ℕ}
    (hpos : 0 < size) (hsoff : soff < 2 ^ 63)
    (hle : sect.head.fileOffset + soff + size ≤ sect.file.size) :
    sectHeadRead soff size sect =
      .ok (sect.file.bytes (sect.head.fileOffset + soff) size)
        { sect with
          file := sect.file.noteRead (sect.head.fileOffset + soff) size } := by
  have hne : size ≠ 0 := by omega
  simp only [sectHeadRead, Prog.bind_apply, Sect.getHead_apply, if_pos hne,
    Sect.onFile, Prog.zoom, sectHeadGetFileoff_of_lt hsoff,
    Storage.fread_of_le hle, Outcome.mapState_ok]

theorem sectHeadRead_of_lt {sect : Sect} {soff size : ℕ}
    (hpos : 0 < size) (hsoff : soff < 2 ^ 63)
    (hlt : sect.file.size < sect.head.fileOffset + soff + size) :
    sectHeadRead soff size sect =
      .failed { sect with
        file := sect.file.noteRead (sect.head.fileOffset + soff) size } := by
  have hne : size ≠ 0 := by omega
  simp only [sectHeadRead, Prog.bind_apply, Sect.getHead_apply, if_pos hne,
    Sect.onFile, Prog.zoom, sectHeadGetFileoff_of_lt hsoff,
    Storage.fread_of_lt hlt, Outcome.mapState_failed]

theorem sectHeadWrite_of_lt {sect : Sect} {soff : ℕ} (data : List Byte)
    (hsoff : soff < 2 ^ 63) :
    sectHeadWrite soff data sect =
      .ok () (sect.putAt soff data) := by
  simp only [sectHeadWrite, Prog.bind_apply, Sect.getHead_apply]
  by_cases hnil : data = []
  · subst hnil
    simp [Sect.putAt]
  · have hne : data.length ≠ 0 := by
      simpa [List.length_eq_zero_iff] using hnil
    rw [if_pos hne, Sect.putAt, Storage.put, if_neg hnil]
    simp only [Sect.onFile, Prog.zoom, sectHeadGetFileoff_of_lt hsoff,
      Storage.fwrite_natCast, Outcome.mapState_ok]

/-- A read of which only the log takes notice. -/
structure Sect.Quiet (sect sect' : Sect) : Prop where
  head : sect'.head = sect.head
  cell : sect'.file.cell = sect.file.cell
  size : sect'.file.size = sect.file.size

/-- Whatever a read comes to, it changes neither header nor contents, and
where it went shows in the log. -/
theorem sectHeadRead_status (soff size : ℕ) (sect : Sect) :
    ∃ data sect', (sectHeadRead soff size).status sect = .ok data sect' ∧
      sect.Quiet sect' ∧
      ∃ recent, sect'.file.log = recent ++ sect.file.log ∧
        ∀ access ∈ recent, ∃ offset : ℕ,
          (offset : ℤ) = sectHeadGetFileoff sect.head soff ∧
            access = .read offset size := by
  by_cases hsize : size = 0
  · subst hsize
    exact ⟨some [], sect, Prog.status_of_ok (sectHeadRead_zero soff sect),
      ⟨rfl, rfl, rfl⟩, [], rfl, by simp⟩
  · have hcall : sectHeadRead soff size sect =
        Sect.onFile
          (Storage.fread (sectHeadGetFileoff sect.head soff) size) sect := by
      simp only [sectHeadRead, Prog.bind_apply, Sect.getHead_apply,
        if_pos (show size ≠ 0 from hsize)]
    cases hposition : sectHeadGetFileoff sect.head soff with
    | negSucc distance =>
        have hfailed : sectHeadRead soff size sect = .failed sect := by
          rw [hcall, hposition]
          rfl
        exact ⟨none, sect, Prog.status_of_failed hfailed, ⟨rfl, rfl, rfl⟩,
          [], rfl, by simp⟩
    | ofNat offset =>
        have hlog : ∃ recent,
            (sect.file.noteRead offset size).log =
              recent ++ sect.file.log ∧
            ∀ access ∈ recent, ∃ offset' : ℕ,
              (offset' : ℤ) = Int.ofNat offset ∧
                access = .read offset' size :=
          ⟨[.read offset size], rfl, fun access hmem =>
            ⟨offset, rfl, List.mem_singleton.mp hmem⟩⟩
        by_cases hle : offset + size ≤ sect.file.size
        · have hok : sectHeadRead soff size sect =
              .ok (sect.file.bytes offset size)
                { sect with file := sect.file.noteRead offset size } := by
            rw [hcall, hposition]
            simp only [Sect.onFile, Prog.zoom, Storage.fread, if_pos hle,
              Outcome.mapState_ok]
          exact ⟨_, _, Prog.status_of_ok hok, ⟨rfl, rfl, rfl⟩, hlog⟩
        · have hfailed : sectHeadRead soff size sect =
              .failed
                { sect with file := sect.file.noteRead offset size } := by
            rw [hcall, hposition]
            simp only [Sect.onFile, Prog.zoom, Storage.fread, if_neg hle,
              Outcome.mapState_failed]
          exact ⟨_, _, Prog.status_of_failed hfailed, ⟨rfl, rfl, rfl⟩, hlog⟩

end NosqlDbms
