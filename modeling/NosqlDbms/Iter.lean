import NosqlDbms.File
import NosqlDbms.QueryCheck
import Mathlib.Tactic

/-!
# Searching a file

`file_find` looks through one extents section, the iterator hops over the
sections.  Both are used while the file changes, so an iterator keeps what was
found in its section and looks at the next one only when it gets there.
-/

namespace NosqlDbms

/-- `Pair_Json_Entity`, with the offset that the document carries. -/
structure Found where
  foff : ℕ
  json : Json
  entity : Entity
  deriving DecidableEq

/-- The name that `sect_types_read` has set when it returns, with either
status; the attributes it goes on to read leave no trace. -/
def sectTypesReadName (soff : ℕ) : Prog Sect Str := do
  let entity ← sectTypesRdType soff
  let name ← sectHeadRead entity.namePtr entity.nameSize
  return stringCtor name

/-- `type->name` after `file_read_type`, none when it is still NULL. -/
def fileReadTypeName (foff : ℕ) : Prog File (Option Str) := do
  let read ← (fileAt .types foff sectTypesReadName).status
  return read.map Prod.snd

section Past

variable (past : Str → List Byte) (fuel : ℕ)

/-- The loop of `file_find`: what it has put into the list when it returns.
A document that cannot be read ends it.  `fuel` bounds the depth of the
documents. -/
def fileFindFrom (query : Query) : List ℕ → Prog File (List Found)
  | [] => pure []
  | foff :: rest => do
      match ← (fileRead fuel foff).status with
      | none => pure []
      | some read => do
          let name ← fileReadTypeName read.2.typePtr
          match queryCheck past query read.1 name with
          | none => Prog.stuck
          | some true => do
              let found ← fileFindFrom query rest
              return ⟨foff, read.1, read.2⟩ :: found
          | some false => fileFindFrom query rest

/-- `file_find`; its status is not looked at, only the list. -/
def fileFind (index : ℕ) (query : Query) : Prog File (List Found) := do
  match ← (File.onSect .extents index sectExtLoad).status with
  | none => pure []
  | some foffs => fileFindFrom past fuel query foffs

/-! ## The iterator -/

structure Iter where
  query : Query
  /-- The position of the section in the list, none for NULL. -/
  curSect : Option ℕ
  curCol : List Found

/-- The loop of `iter_ctor`, with `count` sections from `index` on. -/
def iterCtorFrom (query : Query) : ℕ → ℕ → Prog File Iter
  | 0, _ => pure ⟨query, none, []⟩
  | count + 1, index => do
      let found ← fileFind past fuel index query
      if found ≠ [] then return ⟨query, some index, found⟩
      else iterCtorFrom query count (index + 1)

/-- `iter_ctor`. -/
def iterCtor (query : Query) : Prog File Iter := do
  let file ← Prog.get
  iterCtorFrom past fuel query file.extents.length 0

/-- The loop of `iter_next`, with `count` sections behind `index`. -/
def iterNextFrom (query : Query) : ℕ → ℕ → Prog File Iter
  | 0, index => pure ⟨query, some index, []⟩
  | count + 1, index => do
      let found ← fileFind past fuel (index + 1) query
      if found ≠ [] then return ⟨query, some (index + 1), found⟩
      else iterNextFrom query count (index + 1)

/-- `iter_next`. -/
def iterNext (iter : Iter) : Prog File Iter := do
  match iter.curCol.tail, iter.curSect with
  | [], some index => do
      let file ← Prog.get
      iterNextFrom past fuel iter.query (file.extents.length - (index + 1))
        index
  | rest, curSect => return { iter with curSect := curSect, curCol := rest }

end Past

end NosqlDbms
