import NosqlDbms.Json
import Mathlib.Tactic

/-!
# Queries

A query is a chain of conditions and the name of a type.  The unions of
documents and of conditions are filled and looked at member by member.
-/

namespace NosqlDbms

/-! ## Members of the value union -/

def boolByte (value : Bool) : ℕ := if value then 1 else 0

/-- The first `width` bytes of the union are written, the others stay. -/
def setLow (width : ℕ) (raw : BitVec 64) (value : ℕ) : BitVec 64 :=
  BitVec.ofNat 64 (raw.toNat / 256 ^ width * 256 ^ width + value)

def setInt32Val (raw : BitVec 64) (value : BitVec 32) : BitVec 64 :=
  setLow 4 raw value.toNat

def setFloatVal (raw : BitVec 64) (value : BitVec 32) : BitVec 64 :=
  setLow 4 raw value.toNat

def setBoolVal (raw : BitVec 64) (value : Bool) : BitVec 64 :=
  setLow 1 raw (boolByte value)

def unionInt32 (raw : BitVec 64) : BitVec 32 := BitVec.ofNat 32 raw.toNat

/-- The bits of the float. -/
def unionFloat (raw : BitVec 64) : BitVec 32 := BitVec.ofNat 32 raw.toNat

/-- The byte of the `bool`. -/
def unionByte (raw : BitVec 64) : ℕ := raw.toNat % 256

/-- A byte other than 0 and 1 is not a `bool`. -/
def unionBool? (raw : BitVec 64) : Option Bool :=
  match unionByte raw with
  | 0 => some false
  | 1 => some true
  | _ => none

theorem boolByte_lt (value : Bool) : boolByte value < 256 := by
  cases value <;> decide

theorem toNat_setFloatVal (raw : BitVec 64) (value : BitVec 32) :
    (setFloatVal raw value).toNat =
      raw.toNat / 2 ^ 32 * 2 ^ 32 + value.toNat := by
  have hraw := raw.isLt
  have hvalue := value.isLt
  rw [setFloatVal, setLow, BitVec.toNat_ofNat]
  omega

theorem toNat_setBoolVal (raw : BitVec 64) (value : Bool) :
    (setBoolVal raw value).toNat =
      raw.toNat / 256 * 256 + boolByte value := by
  have hraw := raw.isLt
  have hvalue := boolByte_lt value
  rw [setBoolVal, setLow, BitVec.toNat_ofNat]
  omega

theorem unionByte_setBoolVal (raw : BitVec 64) (value : Bool) :
    unionByte (setBoolVal raw value) = boolByte value := by
  have hlt := boolByte_lt value
  rw [unionByte, toNat_setBoolVal]
  omega

theorem unionBool?_setBoolVal (raw : BitVec 64) (value : Bool) :
    unionBool? (setBoolVal raw value) = some value := by
  rw [unionBool?, unionByte_setBoolVal]
  cases value <;> rfl

theorem word_setBoolVal_eq_iff (raw : BitVec 64) (bits word : BitVec 32)
    (value : Bool) :
    BitVec.ofNat 32 (setBoolVal (setFloatVal raw bits) value).toNat = word ↔
      bits.toNat / 256 = word.toNat / 256 ∧
        boolByte value = word.toNat % 256 := by
  have hraw := raw.isLt
  have hbits := bits.isLt
  have hword := word.isLt
  have hvalue := boolByte_lt value
  rw [toNat_setBoolVal, toNat_setFloatVal, BitVec.toNat_eq,
    BitVec.toNat_ofNat]
  omega

/-- The value that belongs to the tag. -/
inductive TypedValue where
  | int32 (value : BitVec 32)
  | float (bits : BitVec 32)
  | string (chars : List Byte)
  | bool (value : Option Bool)
  | object
  deriving DecidableEq

def JsonValue.typed : JsonValue → TypedValue
  | .int32 raw => .int32 (unionInt32 raw)
  | .float raw => .float (unionFloat raw)
  | .string str => .string str.val
  | .bool raw => .bool (unionBool? raw)
  | .object => .object

/-- A boolean is stored as 0 or 1. -/
def JsonValue.BoolSet : JsonValue → Prop
  | .bool raw => (unionBool? raw).isSome
  | _ => True

def Json.BoolsSet : Json → Prop
  | .null => True
  | .node _ value bro son => value.BoolSet ∧ bro.BoolsSet ∧ son.BoolsSet

/-! ## Conditions -/

inductive Cmp where
  | gt
  | ge
  | lt
  | le
  | in
  | eq
  deriving DecidableEq, Repr

structure QueryItem where
  key : List Str
  queryVal : JsonValue
  cmpOp : Cmp

structure Query where
  typeName : Option Str
  fQueryItm : List QueryItem

/-- `query_new`. -/
def queryNew : Query where
  typeName := none
  fQueryItm := []

/-- `query_item_add`: behind the first item. -/
def queryItemAdd (query : Query) (item : QueryItem) : Query :=
  match query.fQueryItm with
  | [] => { query with fQueryItm := [item] }
  | first :: rest => { query with fQueryItm := first :: item :: rest }

theorem queryItemAdd_perm (query : Query) (item : QueryItem) :
    (queryItemAdd query item).fQueryItm.Perm
      (query.fQueryItm ++ [item]) := by
  unfold queryItemAdd
  split
  · next hnil => rw [hnil, List.nil_append]
  · next first rest hcons =>
      rw [hcons, List.cons_append]
      exact (List.perm_append_singleton item rest).symm.cons first

/-- `query_ctor`, and `query_item_add` for each of the items. -/
def queryOf (typeName : Option Str) (items : List QueryItem) : Query :=
  items.foldl queryItemAdd { queryNew with typeName := typeName }

theorem foldl_queryItemAdd_perm (items : List QueryItem) (query : Query) :
    (items.foldl queryItemAdd query).fQueryItm.Perm
      (query.fQueryItm ++ items) := by
  induction items generalizing query with
  | nil => simp
  | cons item rest ih =>
      rw [List.foldl_cons]
      refine (ih _).trans ?_
      simpa using (queryItemAdd_perm query item).append_right rest

@[simp] theorem queryItemAdd_typeName (query : Query) (item : QueryItem) :
    (queryItemAdd query item).typeName = query.typeName := by
  unfold queryItemAdd
  split <;> rfl

@[simp] theorem queryOf_typeName (typeName : Option Str)
    (items : List QueryItem) :
    (queryOf typeName items).typeName = typeName := by
  have hfold : ∀ query : Query,
      (items.foldl queryItemAdd query).typeName = query.typeName := by
    induction items with
    | nil => exact fun _ => rfl
    | cons item rest ih =>
        intro query
        rw [List.foldl_cons, ih, queryItemAdd_typeName]
  exact hfold _

theorem queryOf_perm (typeName : Option Str) (items : List QueryItem) :
    (queryOf typeName items).fQueryItm.Perm items :=
  foldl_queryItemAdd_perm items _

end NosqlDbms
