import NosqlDbms.Query
import Mathlib.Tactic

/-!
# Evaluating queries

`query_item_check` and `query_check`.  A buffer of a string need not end with a
NUL, and the functions of the C library read on; `past` is what lies in memory
behind the buffer of each string, the same behind strings of the same bytes.  A
condition without a defined value is `none`: a comparison that runs past all of
this, or that takes a pointer for a number, or another byte than 0 and 1 for a
`bool`.  With nothing in `past` an answer is one that C defines.
-/

namespace NosqlDbms

/-! ## Floats -/

def floatIsNan (bits : BitVec 32) : Bool :=
  decide (0x7F800000 < bits.toNat % 2 ^ 31)

/-- Floats that are not NaN are ordered as these; both zeros are one. -/
def floatKey (bits : BitVec 32) : ℤ :=
  if bits.toNat < 2 ^ 31 then bits.toNat else -((bits.toNat % 2 ^ 31 : ℕ) : ℤ)

/-- A comparison of two floats, false when one is NaN. -/
def floatTest (test : ℤ → ℤ → Bool) (first second : BitVec 32) : Bool :=
  !floatIsNan first && !floatIsNan second &&
    test (floatKey first) (floatKey second)

/-! ## Strings of the C library -/

/-- `strcmp(first, second) == 0` of two stretches of memory: it is over at the
first difference, and at a NUL in both. -/
def strcmpMemory : List Byte → List Byte → Option Bool
  | char :: rest, char' :: rest' =>
      if char ≠ char' then some false
      else if char = 0 then some true
      else strcmpMemory rest rest'
  | _, _ => none

section Past

variable (past : Str → List Byte)

/-- `strcmp(first, second) == 0`.  Only with an empty `past` is this what C
defines; any other one is a guess about the memory behind the buffers. -/
def strcmpEq (first second : Str) : Option Bool :=
  strcmpMemory (first.val ++ past first) (second.val ++ past second)

/-- The characters up to the first NUL in memory. -/
def cString (str : Str) : Option (List Byte) :=
  let memory := str.val ++ past str
  if 0 ∈ memory then some (memory.takeWhile (· != 0)) else none

/-- `strstr(first, second) != NULL`; both have to end. -/
def strstrFound (first second : Str) : Option Bool := do
  let first ← cString past first
  let second ← cString past second
  return decide (second <:+: first)

/-! ## Conditions -/

/-- The eight bytes of the union; a string keeps a pointer there. -/
def JsonValue.raw? : JsonValue → Option (BitVec 64)
  | .int32 raw => some raw
  | .float raw => some raw
  | .string _ => none
  | .bool raw => some raw
  | .object => some 0

/-- The inner `switch` of `TYPE_BOOL`, and what is behind it. -/
def boolItemCheck (cmpOp : Cmp) (value queryVal : BitVec 64) :
    Option Bool :=
  match cmpOp with
  | .eq => do
      let value ← unionBool? value
      let queryVal ← unionBool? queryVal
      return value == queryVal
  | _ => some false

/-- The inner `switch` of `TYPE_FLOAT`.  Its `default` does not end it: the
assertion holds, and `TYPE_BOOL` comes next. -/
def floatItemCheck (cmpOp : Cmp) (value queryVal : BitVec 64) :
    Option Bool :=
  match cmpOp with
  | .eq => some (floatTest (· == ·) (unionFloat value) (unionFloat queryVal))
  | .gt => some (floatTest (· > ·) (unionFloat value) (unionFloat queryVal))
  | .ge => some (floatTest (· ≥ ·) (unionFloat value) (unionFloat queryVal))
  | .lt => some (floatTest (· < ·) (unionFloat value) (unionFloat queryVal))
  | .le => some (floatTest (· ≤ ·) (unionFloat value) (unionFloat queryVal))
  | .in => boolItemCheck cmpOp value queryVal

/-- The inner `switch` of `TYPE_INT32`. -/
def int32ItemCheck (cmpOp : Cmp) (value queryVal : BitVec 64) :
    Option Bool :=
  match cmpOp with
  | .eq => some (unionInt32 value == unionInt32 queryVal)
  | .gt => some ((unionInt32 value).toInt > (unionInt32 queryVal).toInt)
  | .ge => some ((unionInt32 value).toInt ≥ (unionInt32 queryVal).toInt)
  | .lt => some ((unionInt32 value).toInt < (unionInt32 queryVal).toInt)
  | .le => some ((unionInt32 value).toInt ≤ (unionInt32 queryVal).toInt)
  | .in => floatItemCheck cmpOp value queryVal

/-- The inner `switch` of `TYPE_STRING`; the other operators go on to compare
the pointers as numbers. -/
def stringItemCheck (cmpOp : Cmp) (value queryVal : Str) : Option Bool :=
  match cmpOp with
  | .in => strstrFound past value queryVal
  | .eq => strcmpEq past value queryVal
  | _ => none

/-- The end of the path, null when a key is missing. -/
def drillDown : List Str → Json → Json
  | [], json => json
  | name :: rest, json =>
      match jsonSonByKey json name with
      | .null => .null
      | son => drillDown rest son

/-- The operators whose result depends on the union, for a condition on a
number or a boolean. -/
def Cmp.looks (cmpOp : Cmp) (type : JsonType) : Bool :=
  match type with
  | .bool => cmpOp == .eq
  | _ => cmpOp != .in

/-- A `switch` over the operator, at a node with the value. -/
def unionItemCheck (check : Cmp → BitVec 64 → BitVec 64 → Option Bool)
    (type : JsonType) (cmpOp : Cmp) (value : JsonValue)
    (queryVal : BitVec 64) : Option Bool :=
  match value.raw? with
  | some raw => check cmpOp raw queryVal
  | none => if cmpOp.looks type then none else some false

/-- `query_item_check`. -/
def queryItemCheck (item : QueryItem) (json : Json) : Option Bool :=
  match drillDown item.key json with
  | .null => some false
  | .node _ value _ _ =>
      match item.queryVal with
      | .string queryVal =>
          match value with
          | .string str => stringItemCheck past item.cmpOp str queryVal
          | _ => none
      | .int32 queryVal =>
          unionItemCheck int32ItemCheck .int32 item.cmpOp value queryVal
      | .float queryVal =>
          unionItemCheck floatItemCheck .float item.cmpOp value queryVal
      | .bool queryVal =>
          unionItemCheck boolItemCheck .bool item.cmpOp value queryVal
      | .object => some false

/-- `query_check_type`; `none` is a NULL name. -/
def queryCheckType (query : Query) (name : Option Str) : Bool :=
  match query.typeName, name with
  | none, _ => true
  | some _, none => false
  | some typeName, some name => stringCmp typeName name == 0

/-- The loop over the conditions. -/
def queryItemsCheck : List QueryItem → Json → Option Bool
  | [], _ => some true
  | item :: rest, json =>
      match queryItemCheck past item json with
      | none => none
      | some false => some false
      | some true => queryItemsCheck rest json

/-- `query_check`. -/
def queryCheck (query : Query) (json : Json) (name : Option Str) :
    Option Bool :=
  match queryItemsCheck past query.fQueryItm json with
  | none => none
  | some false => some false
  | some true => some (queryCheckType query name)

end Past

theorem queryCheckType_iff {query : Query} {name : Option Str}
    {typeName : Str} (hname : query.typeName = some typeName) :
    queryCheckType query name = true ↔ name = some typeName := by
  cases name with
  | none => simp [queryCheckType, hname]
  | some name =>
      simp only [queryCheckType, hname, beq_iff_eq, stringCmp_eq_zero_iff,
        Option.some.injEq]
      exact eq_comm

theorem queryCheck_type {past : Str → List Byte} {query : Query}
    {json : Json} {name : Option Str}
    (h : queryCheck past query json name = some true) :
    queryCheckType query name = true := by
  unfold queryCheck at h
  split at h
  · cases h
  · cases h
  · exact Option.some.inj h

end NosqlDbms
