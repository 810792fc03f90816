import NosqlDbms.Program
import Mathlib.Tactic

/-!
# A random access file

The file behind a stdio stream: a cell for each offset, a length, and the
list of the ranges that were accessed.  Reads and writes inside the file
succeed, a read past the end fails, and a write past the end extends the file
with the cells that lie there, zeros in a file that started empty.  Offsets
are natural numbers without an upper bound.
-/

namespace NosqlDbms

abbrev Byte : Type := ℕ

inductive Access where
  | read (offset length : ℕ)
  | write (offset length : ℕ)
  deriving DecidableEq, Repr

/-- The access stays inside `[low, high)`. -/
def Access.Inside (low high : ℕ) : Access → Prop
  | .read offset length => low ≤ offset ∧ offset + length ≤ high
  | .write offset length => low ≤ offset ∧ offset + length ≤ high

/-- Writes stay inside `[low, high)`, and reads too when `reads` holds. -/
def Access.Allowed (low high : ℕ) (reads : Prop) : Access → Prop
  | .read offset length => reads → low ≤ offset ∧ offset + length ≤ high
  | .write offset length => low ≤ offset ∧ offset + length ≤ high

structure Storage where
  cell : ℕ → Byte
  size : ℕ
  log : List Access

namespace Storage

def empty : Storage where
  cell := fun _ => 0
  size := 0
  log := []

def bytes (file : Storage) (offset length : ℕ) : List Byte :=
  (List.range length).map (fun index => file.cell (offset + index))

/-- `fwrite` of `data` at `offset`. -/
def write (file : Storage) (offset : ℕ) (data : List Byte) : Storage where
  cell := fun index =>
    if offset ≤ index ∧ index < offset + data.length then
      data.getD (index - offset) 0
    else file.cell index
  size := max file.size (offset + data.length)
  log := .write offset data.length :: file.log

def noteRead (file : Storage) (offset length : ℕ) : Storage :=
  { file with log := .read offset length :: file.log }

/-- `fseek` to a `long` and `fread`. -/
def fread (position : ℤ) (length : ℕ) : Prog Storage (List Byte) :=
  fun file =>
    match position with
    | .ofNat offset =>
        if offset + length ≤ file.size then
          .ok (file.bytes offset length) (file.noteRead offset length)
        else .failed (file.noteRead offset length)
    | .negSucc _ => .failed file

/-- `fseek` to a `long` and `fwrite`. -/
def fwrite (position : ℤ) (data : List Byte) : Prog Storage Unit :=
  fun file =>
    match position with
    | .ofNat offset => .ok () (file.write offset data)
    | .negSucc _ => .failed file

@[simp] theorem fwrite_natCast (offset : ℕ) (data : List Byte)
    (file : Storage) :
    fwrite (offset : ℤ) data file = .ok () (file.write offset data) := rfl

theorem fread_of_le {file : Storage} {offset length : ℕ}
    (hle : offset + length ≤ file.size) :
    fread (offset : ℤ) length file =
      .ok (file.bytes offset length) (file.noteRead offset length) :=
  if_pos hle

theorem fread_of_lt {file : Storage} {offset length : ℕ}
    (hlt : file.size < offset + length) :
    fread (offset : ℤ) length file =
      .failed (file.noteRead offset length) :=
  if_neg (by omega)

/-! ## Contents of a range -/

@[simp] theorem length_bytes (file : Storage) (offset length : ℕ) :
    (file.bytes offset length).length = length := by
  simp [bytes]

@[simp] theorem bytes_zero (file : Storage) (offset : ℕ) :
    file.bytes offset 0 = [] := rfl

theorem bytes_one (file : Storage) (offset : ℕ) :
    file.bytes offset 1 = [file.cell offset] := rfl

theorem getElem_bytes (file : Storage) (offset length index : ℕ)
    (hindex : index < (file.bytes offset length).length) :
    (file.bytes offset length)[index] = file.cell (offset + index) := by
  simp [bytes]

theorem bytes_congr {file file' : Storage} {offset length : ℕ}
    (hcell : ∀ index, offset ≤ index → index < offset + length →
      file'.cell index = file.cell index) :
    file'.bytes offset length = file.bytes offset length := by
  apply List.map_congr_left
  intro index hindex
  rw [List.mem_range] at hindex
  exact hcell (offset + index) (by omega) (by omega)

theorem bytes_congr_at {file file' : Storage} {base offset length : ℕ}
    (hcell : ∀ position, offset ≤ position → position < offset + length →
      file'.cell (base + position) = file.cell (base + position)) :
    file'.bytes (base + offset) length =
      file.bytes (base + offset) length := by
  apply bytes_congr
  intro index hlow hhigh
  obtain ⟨position, rfl⟩ := Nat.exists_eq_add_of_le
    (show base ≤ index by omega)
  exact hcell position (by omega) (by omega)

theorem bytes_eq_iff {file : Storage} {offset length : ℕ}
    {data : List Byte} (hlength : data.length = length) :
    file.bytes offset length = data ↔
      ∀ index, (hindex : index < data.length) →
        file.cell (offset + index) = data[index] := by
  subst hlength
  constructor
  · intro heq index hindex
    rw [← getElem_bytes file offset data.length index (by simpa using hindex)]
    simp only [heq]
  · intro hcell
    apply List.ext_getElem (by simp)
    intro index _ hindex
    rw [getElem_bytes]
    exact hcell index hindex

theorem bytes_add (file : Storage) (offset first second : ℕ) :
    file.bytes offset (first + second) =
      file.bytes offset first ++ file.bytes (offset + first) second := by
  simp [bytes, List.range_add, Nat.add_assoc, Function.comp_def]

theorem take_bytes (file : Storage) {offset length count : ℕ}
    (hcount : count ≤ length) :
    (file.bytes offset length).take count = file.bytes offset count := by
  obtain ⟨rest, rfl⟩ := Nat.exists_eq_add_of_le hcount
  rw [bytes_add, List.take_left' (length_bytes file offset count)]

theorem drop_bytes (file : Storage) {offset length count : ℕ}
    (hcount : count ≤ length) :
    (file.bytes offset length).drop count =
      file.bytes (offset + count) (length - count) := by
  obtain ⟨rest, rfl⟩ := Nat.exists_eq_add_of_le hcount
  rw [bytes_add, List.drop_left' (length_bytes file offset count)]
  simp

/-! ## One write -/

@[simp] theorem size_write (file : Storage) (offset : ℕ)
    (data : List Byte) :
    (file.write offset data).size =
      max file.size (offset + data.length) := rfl

theorem size_le_write (file : Storage) (offset : ℕ) (data : List Byte) :
    file.size ≤ (file.write offset data).size := le_max_left _ _

theorem cell_write_of_out {file : Storage} {offset index : ℕ}
    {data : List Byte}
    (hout : index < offset ∨ offset + data.length ≤ index) :
    (file.write offset data).cell index = file.cell index := by
  apply if_neg
  omega

theorem cell_write_of_in {file : Storage} {offset index : ℕ}
    {data : List Byte} (hindex : index < data.length) :
    (file.write offset data).cell (offset + index) = data[index] := by
  simp [write, hindex]

theorem bytes_write_same (file : Storage) (offset : ℕ)
    (data : List Byte) :
    (file.write offset data).bytes offset data.length = data := by
  rw [bytes_eq_iff rfl]
  intro index hindex
  exact cell_write_of_in hindex

theorem bytes_write_of_out {file : Storage} {offset other length : ℕ}
    {data : List Byte}
    (hout : other + length ≤ offset ∨ offset + data.length ≤ other) :
    (file.write offset data).bytes other length =
      file.bytes other length := by
  apply bytes_congr
  intro index hlow hhigh
  exact cell_write_of_out (by omega)

theorem bytes_write_slice {file : Storage} {offset length start : ℕ}
    {data : List Byte} (hfit : start + data.length ≤ length) :
    (file.write (offset + start) data).bytes offset length =
      (file.bytes offset length).take start ++ data ++
        (file.bytes offset length).drop (start + data.length) := by
  have hsplit : length =
      start + (data.length + (length - (start + data.length))) := by
    omega
  rw [take_bytes file (by omega), drop_bytes file (by omega)]
  conv_lhs => rw [hsplit]
  rw [bytes_add, bytes_add, bytes_write_same,
    bytes_write_of_out (Or.inl (by omega)),
    bytes_write_of_out (Or.inr (by omega))]
  simp [Nat.add_assoc]

/-- A write that is skipped when there is nothing to write. -/
def put (file : Storage) (offset : ℕ) (data : List Byte) : Storage :=
  if data = [] then file else file.write offset data

@[simp] theorem put_nil (file : Storage) (offset : ℕ) :
    file.put offset [] = file := if_pos rfl

theorem cell_put_of_out {file : Storage} {offset index : ℕ}
    {data : List Byte}
    (hout : index < offset ∨ offset + data.length ≤ index) :
    (file.put offset data).cell index = file.cell index := by
  unfold put
  split
  · rfl
  · exact cell_write_of_out hout

theorem bytes_put_same (file : Storage) (offset : ℕ) (data : List Byte) :
    (file.put offset data).bytes offset data.length = data := by
  unfold put
  split
  next hnil => simp [hnil]
  next => exact bytes_write_same file offset data

theorem bytes_put_of_out {file : Storage} {offset other length : ℕ}
    {data : List Byte}
    (hout : other + length ≤ offset ∨ offset + data.length ≤ other) :
    (file.put offset data).bytes other length =
      file.bytes other length := by
  apply bytes_congr
  intro index hlow hhigh
  exact cell_put_of_out (by omega)

theorem size_le_put (file : Storage) (offset : ℕ) (data : List Byte) :
    file.size ≤ (file.put offset data).size := by
  unfold put
  split
  · exact le_rfl
  · exact le_max_left _ _

theorem stop_le_put (file : Storage) (offset : ℕ) {data : List Byte}
    (hne : data ≠ []) :
    offset + data.length ≤ (file.put offset data).size := by
  rw [put, if_neg hne]
  exact le_max_right _ _

/-! ## Accesses confined to a range -/

/-- `file'` comes from `file` by allowed accesses. -/
structure Within (low high : ℕ) (reads : Prop) (file file' : Storage) :
    Prop where
  cell : ∀ index, index < low ∨ high ≤ index →
    file'.cell index = file.cell index
  size_le : file.size ≤ file'.size
  size_max : file'.size ≤ max file.size high
  log : ∃ recent, file'.log = recent ++ file.log ∧
    ∀ access ∈ recent, access.Allowed low high reads

namespace Within

variable {low high : ℕ} {reads : Prop} {file file' file'' : Storage}

theorem refl : Within low high reads file file where
  cell := fun _ _ => rfl
  size_le := le_rfl
  size_max := le_max_left _ _
  log := ⟨[], rfl, by simp⟩

theorem trans (hfirst : Within low high reads file file')
    (hsecond : Within low high reads file' file'') :
    Within low high reads file file'' where
  cell := fun index hout =>
    (hsecond.cell index hout).trans (hfirst.cell index hout)
  size_le := hfirst.size_le.trans hsecond.size_le
  size_max := by
    have hfirstMax := hfirst.size_max
    have hsecondMax := hsecond.size_max
    omega
  log := by
    obtain ⟨recent, hlog, hallowed⟩ := hfirst.log
    obtain ⟨recent', hlog', hallowed'⟩ := hsecond.log
    refine ⟨recent' ++ recent, by rw [hlog', hlog, List.append_assoc], ?_⟩
    intro access hmem
    rcases List.mem_append.mp hmem with hmem | hmem
    · exact hallowed' access hmem
    · exact hallowed access hmem

theorem write {offset : ℕ} {data : List Byte} (hlow : low ≤ offset)
    (hhigh : offset + data.length ≤ high) :
    Within low high reads file (file.write offset data) where
  cell := fun index hout => cell_write_of_out (by omega)
  size_le := le_max_left _ _
  size_max := by
    rw [size_write]
    omega
  log := by
    refine ⟨[.write offset data.length], rfl, ?_⟩
    intro access hmem
    rw [List.mem_singleton.mp hmem]
    exact ⟨hlow, hhigh⟩

theorem put {offset : ℕ} {data : List Byte} (hlow : low ≤ offset)
    (hhigh : offset + data.length ≤ high) :
    Within low high reads file (file.put offset data) := by
  unfold Storage.put
  split
  · exact refl
  · exact write hlow hhigh

theorem noteRead {offset length : ℕ}
    (hinside : reads → low ≤ offset ∧ offset + length ≤ high) :
    Within low high reads file (file.noteRead offset length) where
  cell := fun _ _ => rfl
  size_le := le_rfl
  size_max := le_max_left _ _
  log := by
    refine ⟨[.read offset length], rfl, ?_⟩
    intro access hmem
    rw [List.mem_singleton.mp hmem]
    exact hinside

end Within

/-- Outside `[low, high)` nothing changes. -/
structure Confined (low high : ℕ) (file file' : Storage) : Prop where
  cell : ∀ index, index < low ∨ high ≤ index →
    file'.cell index = file.cell index
  size_le : file.size ≤ file'.size

theorem Within.confined {low high : ℕ} {reads : Prop}
    {file file' : Storage} (h : Within low high reads file file') :
    Confined low high file file' := ⟨h.cell, h.size_le⟩

namespace Confined

variable {low high : ℕ} {file file' file'' : Storage}

theorem refl : Confined low high file file := ⟨fun _ _ => rfl, le_rfl⟩

theorem trans (hfirst : Confined low high file file')
    (hsecond : Confined low high file' file'') :
    Confined low high file file'' where
  cell := fun index hout =>
    (hsecond.cell index hout).trans (hfirst.cell index hout)
  size_le := hfirst.size_le.trans hsecond.size_le

theorem put {offset : ℕ} {data : List Byte} (hlow : low ≤ offset)
    (hhigh : offset + data.length ≤ high) :
    Confined low high file (file.put offset data) :=
  (@Within.put low high True file offset data hlow hhigh).confined

theorem write {offset : ℕ} {data : List Byte} (hlow : low ≤ offset)
    (hhigh : offset + data.length ≤ high) :
    Confined low high file (file.write offset data) :=
  (@Within.write low high True file offset data hlow hhigh).confined

end Confined

end Storage

end NosqlDbms
