import NosqlDbms.CountedString
import Mathlib.Tactic

/-!
# Documents, types and entities

The engine's `Json` is a node with two links: `bro`, the next node with the
same parent, and `son`, the first child.  `null` stands for a NULL pointer.
The links `dad` and `next` are left out: `json_new` clears them, nothing the
store runs sets them, and only the destructor follows `dad`.
-/

namespace NosqlDbms

inductive JsonType where
  | int32
  | float
  | string
  | bool
  | object
  deriving DecidableEq, Repr

def JsonType.code : JsonType → ℕ
  | .int32 => 0
  | .float => 1
  | .string => 2
  | .bool => 3
  | .object => 4

def JsonType.ofCode? : ℕ → Option JsonType
  | 0 => some .int32
  | 1 => some .float
  | 2 => some .string
  | 3 => some .bool
  | 4 => some .object
  | _ => none

@[simp] theorem JsonType.ofCode?_code (type : JsonType) :
    JsonType.ofCode? type.code = some type := by
  cases type <;> rfl

/-- The `value` union together with the tag that says which member is in use.
A scalar keeps all eight bytes of the union, because all of them are stored. -/
inductive JsonValue where
  | int32 (raw : BitVec 64)
  | float (raw : BitVec 64)
  | string (str : Str)
  | bool (raw : BitVec 64)
  | object
  deriving DecidableEq

def JsonValue.type : JsonValue → JsonType
  | .int32 _ => .int32
  | .float _ => .float
  | .string _ => .string
  | .bool _ => .bool
  | .object => .object

inductive Json where
  | null
  | node (key : Str) (value : JsonValue) (bro son : Json)
  deriving DecidableEq

/-- The bytes `json_val_ptr` points to, `json_val_size` of them. -/
def jsonValPtr : JsonValue → List Byte
  | .int32 raw => wordBytes raw.toNat
  | .float raw => wordBytes raw.toNat
  | .string str => str.val
  | .bool raw => wordBytes raw.toNat
  | .object => []

def jsonValSize : JsonValue → ℕ
  | .int32 _ => 8
  | .float _ => 8
  | .string str => str.cnt
  | .bool _ => 8
  | .object => 0

@[simp] theorem length_jsonValPtr (value : JsonValue) :
    (jsonValPtr value).length = jsonValSize value := by
  cases value <;> simp [jsonValPtr, jsonValSize, Str.cnt]

/-- The eight bytes of the union after `size` bytes were read into the cleared
union; more than eight would run over its end. -/
def readUnion (data : List Byte) : Option (BitVec 64) :=
  if data.length ≤ 8 then some (BitVec.ofNat 64 (leValue data)) else none

/-- The value `sect_ext_read` builds from a type and the stored bytes. -/
def readValue (type : JsonType) (data : List Byte) : Option JsonValue :=
  match type with
  | .int32 => (readUnion data).map .int32
  | .float => (readUnion data).map .float
  | .string => some (.string (stringCtor data))
  | .bool => (readUnion data).map .bool
  | .object => some .object

theorem readUnion_wordBytes (raw : BitVec 64) :
    readUnion (wordBytes raw.toNat) = some raw := by
  simp [readUnion]

theorem readValue_jsonValPtr (value : JsonValue) :
    readValue value.type (jsonValPtr value) = some value := by
  cases value <;>
    simp [readValue, jsonValPtr, JsonValue.type, readUnion_wordBytes]

namespace Json

def isNull : Json → Bool
  | .null => true
  | .node _ _ _ _ => false

/-- Keys and values of all nodes, a node before its brothers and these before
its sons. -/
def nodes : Json → List (Str × JsonValue)
  | .null => []
  | .node key value bro son => (key, value) :: (bro.nodes ++ son.nodes)

/-- The root has no brother. -/
def broless : Json → Bool
  | .null => true
  | .node _ _ bro _ => bro.isNull

end Json

/-- `json_add_bro`: append to the chain of brothers. -/
def jsonAddBro : Json → Json → Json
  | .null, _ => .null
  | .node key value .null son, bro => .node key value bro son
  | .node key value (.node key' value' bro' son') son, bro =>
      .node key value (jsonAddBro (.node key' value' bro' son') bro) son

/-- `json_add_son`: append to the chain of sons. -/
def jsonAddSon : Json → Json → Json
  | .null, _ => .null
  | .node key value bro .null, son => .node key value bro son
  | .node key value bro (.node key' value' bro' son'), son =>
      .node key value bro (jsonAddBro (.node key' value' bro' son') son)

/-- `json_son_by_key`: the first son with the key. -/
def jsonSonByKey (json : Json) (key : Str) : Json :=
  match json with
  | .null => .null
  | .node _ _ _ son => chain son
where
  chain : Json → Json
    | .null => .null
    | .node key' value bro son =>
        if stringCmp key' key = 0 then .node key' value bro son
        else chain bro

/-! ## Types of documents -/

structure Attr where
  name : Str
  type : JsonType
  deriving DecidableEq

structure DocType where
  name : Str
  attrList : List Attr
  deriving DecidableEq

/-- The loop of `json_is_apply_type`: `none` when two types differ, else the
attributes no son was found for.  It moves on through `next`, which is NULL in
every document, so only the first son is looked at. -/
def applyAttrs : List Attr → Json → Option (List Attr)
  | attrs, .null => some attrs
  | [], .node _ _ _ _ => some []
  | attr :: attrs, .node key value _ _ =>
      if stringCmp attr.name key = 0 then
        if attr.type ≠ value.type then none else some attrs
      else some (attr :: attrs)

/-- `json_is_apply_type(..) == OK`. -/
def jsonIsApplyType (json : Json) (type : DocType) : Bool :=
  match json with
  | .node _ .object _ son => applyAttrs type.attrList son == some []
  | _ => true

/-! ## Entities -/

def SECTION_SIZE : ℕ := 8192

def sizeofSectHeadEntity : ℕ := 32

def sizeofFileHeadEntity : ℕ := 8

def sizeofEntity : ℕ := 80

structure Tplgy where
  dadPtr : ℕ
  broPtr : ℕ
  sonPtr : ℕ
  deriving DecidableEq, Repr

structure Entity where
  keyPtr : ℕ
  keySize : ℕ
  valPtr : ℕ
  valSize : ℕ
  type : ℕ
  initRecSz : ℕ
  famAddr : Tplgy
  typePtr : ℕ
  deriving DecidableEq, Repr

/-- `offsetof(Entity, fam_addr) + offsetof(Tplgy, son_ptr)`. -/
def offsetofSonPtr : ℕ := 64

/-- `ENTITY_INIT`; the record pointers are still those of `entity_new`. -/
def entityInit (key : Str) (value : JsonValue) (dad bro son typePtr : ℕ) :
    Entity where
  keyPtr := 0
  keySize := key.cnt
  valPtr := 0
  valSize := jsonValSize value
  type := value.type.code
  initRecSz := key.cnt + jsonValSize value
  famAddr := ⟨dad, bro, son⟩
  typePtr := typePtr

/-- `entity_clear`. -/
def entityClear : Entity where
  keyPtr := 0
  keySize := 0
  valPtr := 0
  valSize := 0
  type := 0
  initRecSz := 0
  famAddr := ⟨0, 0, 0⟩
  typePtr := 0

def entityRecSz (entity : Entity) : ℕ := entity.keySize + entity.valSize

namespace Entity

def words (entity : Entity) : List ℕ :=
  [entity.keyPtr, entity.keySize, entity.valPtr, entity.valSize, entity.type,
    entity.initRecSz, entity.famAddr.dadPtr, entity.famAddr.broPtr,
    entity.famAddr.sonPtr, entity.typePtr]

/-- The entity as it lies in memory and in the file. -/
def bytes (entity : Entity) : List Byte := wordsBytes entity.words

def ofBytes (data : List Byte) : Entity where
  keyPtr := wordAt data 0
  keySize := wordAt data 1
  valPtr := wordAt data 2
  valSize := wordAt data 3
  type := wordAt data 4
  initRecSz := wordAt data 5
  famAddr := ⟨wordAt data 6, wordAt data 7, wordAt data 8⟩
  typePtr := wordAt data 9

@[simp] theorem length_words (entity : Entity) :
    entity.words.length = 10 := rfl

@[simp] theorem length_bytes (entity : Entity) :
    entity.bytes.length = sizeofEntity := by
  simp [bytes, sizeofEntity]

@[simp] theorem ofBytes_bytes (entity : Entity) :
    ofBytes entity.bytes = entity := by
  have hword (index : ℕ) (hindex : index < entity.words.length) :
      wordAt entity.bytes index = entity.words[index] :=
    wordAt_wordsBytes hindex
  simp only [ofBytes, hword 0 (by simp), hword 1 (by simp),
    hword 2 (by simp), hword 3 (by simp), hword 4 (by simp),
    hword 5 (by simp), hword 6 (by simp), hword 7 (by simp),
    hword 8 (by simp), hword 9 (by simp)]
  rfl

theorem bytes_inj {first second : Entity}
    (h : first.bytes = second.bytes) : first = second := by
  rw [← ofBytes_bytes first, h, ofBytes_bytes]

theorem bytes_entityClear :
    entityClear.bytes = List.replicate sizeofEntity 0 := by
  apply wordsBytes_eq_zero_iff.mpr
  simp [words, entityClear]

theorem splice_sonPtr (entity : Entity) (son : ℕ) :
    entity.bytes.take offsetofSonPtr ++ wordBytes son ++
        entity.bytes.drop (offsetofSonPtr + 8) =
      Entity.bytes { entity with
        famAddr := { entity.famAddr with sonPtr := son } } :=
  wordsBytes_set entity.words 8 (by simp)

end Entity

end NosqlDbms
