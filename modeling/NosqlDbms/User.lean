import NosqlDbms.Iter
import NosqlDbms.Network
import Mathlib.Tactic

/-!
# Commands and requests

`user/user.c` and the server's `Driver`.  A command is carried out on the file,
a request registers the type it names and becomes a command.  `depth` bounds
the depth of documents and `rounds` the rounds of the loops over an iterator.
-/

namespace NosqlDbms

inductive CommandType where
  | insert
  | read
  | update
  | delete
  deriving DecidableEq, Repr

structure Command where
  type : CommandType
  typeName : Str
  query : Query
  json : Json

def userAddType (type : DocType) : Prog File Unit := do
  let _ ← fileAddType type
  pure ()

def userDeleteType (name : Str) : Prog File Unit := fileDeleteType name

/-- `user_write`: the type has to be there and to be applied. -/
def userWrite (json : Json) (typeName : Str) : Prog File ℕ := do
  let found ← fileFindType typeName
  if jsonIsApplyType json found.2.2 then do
    let typeFoff ← fileSectFileoff .types found.1 found.2.1
    fileWrite json 0 typeFoff
  else Prog.fail

section Past

variable (past : Str → List Byte) (depth : ℕ)

def userRead (query : Query) : Prog File Iter := iterCtor past depth query

/-- The loop of `user_delete`. -/
def userDeleteFrom : ℕ → Iter → Prog File Unit
  | 0, _ => Prog.stuck
  | rounds + 1, iter =>
      match iter.curCol with
      | [] => pure ()
      | found :: _ => do
          fileDelete depth found.foff true
          let iter ← iterNext past depth iter
          userDeleteFrom rounds iter

def userDelete (rounds : ℕ) (query : Query) : Prog File Unit := do
  let iter ← iterCtor past depth query
  userDeleteFrom past depth rounds iter

/-- The loop of `user_update`. -/
def userUpdateFrom (newJson : Json) : ℕ → Iter → Prog File Unit
  | 0, _ => Prog.stuck
  | rounds + 1, iter =>
      match iter.curCol with
      | [] => pure ()
      | found :: _ => do
          fileDelete depth found.foff true
          let _ ← fileWrite newJson found.entity.famAddr.dadPtr
            found.entity.typePtr
          let iter ← iterNext past depth iter
          userUpdateFrom newJson rounds iter

def userUpdate (rounds : ℕ) (query : Query) (newJson : Json) :
    Prog File Unit := do
  let iter ← iterCtor past depth query
  userUpdateFrom past depth newJson rounds iter

/-- `user_apply`: the iterator of a READ. -/
def userApply (rounds : ℕ) (command : Command) : Prog File (Option Iter) :=
  match command.type with
  | .insert => do
      let _ ← userWrite command.json command.typeName
      return none
  | .read => do
      let iter ← userRead past depth command.query
      return some iter
  | .update => do
      userUpdate past depth rounds command.query command.json
      return none
  | .delete => do
      userDelete past depth rounds command.query
      return none

end Past

/-! ## Requests -/

namespace Network

/-- `Network::Request`; its document is that of a message and no NULL. -/
structure Request where
  type : CommandType
  typeName : List Byte
  query : List ServerItem
  json : ServerJson
  json_ne : json ≠ .null

/-- `operator Command`. -/
def Request.toCommand (request : Request) : Command where
  type := request.type
  typeName := stringCtor request.typeName
  query := toQuery request.query
  json := request.json.toJson

/-- `TYPE_INIT`: the name ends where `strlen` does. -/
def typeInit (name : List Byte) : DocType where
  name := stringCtor (name.takeWhile (· != 0))
  attrList := []

section Past

variable (past : Str → List Byte) (depth : ℕ)

/-- The loop of `Driver::execute`. -/
def collectFrom : ℕ → Iter → Prog File (List Found)
  | 0, _ => Prog.stuck
  | rounds + 1, iter =>
      match iter.curCol with
      | [] => pure []
      | found :: _ => do
          let iter ← iterNext past depth iter
          let rest ← collectFrom rounds iter
          return found :: rest

/-- `Driver::execute`: the status and the collection of the response. -/
def driverExecute (rounds : ℕ) (request : Request) :
    Prog File (Bool × List Found) := do
  let _ ← (userAddType (typeInit request.typeName)).status
  match ← (userApply past depth rounds request.toCommand).status with
  | none => return (false, [])
  | some none => return (true, [])
  | some (some iter) => do
      let collection ← collectFrom past depth rounds iter
      return (true, collection)

end Past

end Network

end NosqlDbms
