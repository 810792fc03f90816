import NosqlDbms.Query
import Mathlib.Tactic

/-!
# Requests on the wire

A document and a condition travel from the client's struct through a message
to the server's struct and on to the engine.  The first three keep all four
value fields side by side, the engine one union, which the server fills member
by member.  The links `dad` are left out: no client sets them.
-/

namespace NosqlDbms

namespace Network

/-- `JsonType` of the message. -/
inductive ProtoType where
  | int32
  | float
  | string
  | bool
  | object
  deriving DecidableEq, Repr

/-- `Cmp` of the message. -/
inductive ProtoCmp where
  | gt
  | ge
  | lt
  | le
  | in
  | eq
  deriving DecidableEq, Repr

/-- `static_cast<Json_type>`. -/
def ProtoType.cast : ProtoType → JsonType
  | .int32 => .int32
  | .float => .float
  | .string => .string
  | .bool => .bool
  | .object => .object

/-- `static_cast<Cmp>`. -/
def ProtoCmp.cast : ProtoCmp → Cmp
  | .gt => .gt
  | .ge => .ge
  | .lt => .lt
  | .le => .le
  | .in => .in
  | .eq => .eq

/-- The four value fields; a float is its bits. -/
structure Values where
  int32Val : BitVec 32
  floatVal : BitVec 32
  stringVal : List Byte
  boolVal : Bool

/-! ## Documents -/

/-- `Network::Json` of the client. -/
inductive ClientJson where
  | null
  | node (type : ProtoType) (key : List Byte) (values : Values)
      (bro son : ClientJson)

/-- `dbms::Json`, the message. -/
inductive ProtoJson where
  | null
  | node (type : ProtoType) (key : List Byte) (values : Values)
      (bro son : ProtoJson)

/-- `Network::Json` of the server. -/
inductive ServerJson where
  | null
  | node (type : JsonType) (key : List Byte) (values : Values)
      (bro son : ServerJson)

/-- `operator dbms::Json *` of the client. -/
def ClientJson.toProto : ClientJson → ProtoJson
  | .null => .null
  | .node type key values bro son =>
      .node type key values bro.toProto son.toProto

/-- `Json(const dbms::Json &)` of the server. -/
def ServerJson.ofProto : ProtoJson → ServerJson
  | .null => .null
  | .node type key values bro son =>
      .node type.cast key values (ofProto bro) (ofProto son)

/-- The union after the three assignments, from a cleared one. -/
def Values.union (values : Values) : BitVec 64 :=
  setBoolVal (setFloatVal (setInt32Val 0 values.int32Val) values.floatVal)
    values.boolVal

/-- Type and value as the engine gets them. -/
def Values.toValue (values : Values) : JsonType → JsonValue
  | .string => .string (stringCtor values.stringVal)
  | .object => .object
  | .int32 => .int32 values.union
  | .float => .float values.union
  | .bool => .bool values.union

/-- `operator ::Json *` of the server. -/
def ServerJson.toJson : ServerJson → Json
  | .null => .null
  | .node type key values bro son =>
      .node (stringCtor key) (values.toValue type) bro.toJson son.toJson

/-! ## Conditions -/

/-- `Network::ConditionalItem` of the client. -/
structure ClientItem where
  type : ProtoType
  key : List (List Byte)
  cmp : ProtoCmp
  values : Values

/-- `dbms::ConditionalItem`, the message. -/
structure ProtoItem where
  type : ProtoType
  key : List (List Byte)
  cmp : ProtoCmp
  values : Values

/-- `Network::ConditionalItem` of the server. -/
structure ServerItem where
  type : JsonType
  key : List (List Byte)
  cmp : Cmp
  values : Values

/-- `operator dbms::ConditionalItem *` of the client. -/
def ClientItem.toProto (item : ClientItem) : ProtoItem where
  type := item.type
  key := item.key
  cmp := item.cmp
  values := item.values

/-- `ConditionalItem(dbms::ConditionalItem)` of the server. -/
def ServerItem.ofProto (item : ProtoItem) : ServerItem where
  type := item.type.cast
  key := item.key
  cmp := item.cmp.cast
  values := item.values

def toListPath (key : List (List Byte)) : List Str := key.map stringCtor

/-- `operator Query_item *` of the server. -/
def ServerItem.toQueryItem (item : ServerItem) : QueryItem where
  key := toListPath item.key
  queryVal := item.values.toValue item.type
  cmpOp := item.cmp

/-- `operator dbms::Conditional *` of the client. -/
def clientConditional (items : List ClientItem) : List ProtoItem :=
  items.map ClientItem.toProto

/-- `Conditional(dbms::Conditional)` of the server. -/
def serverConditional (items : List ProtoItem) : List ServerItem :=
  items.map ServerItem.ofProto

/-- `operator ::Query *` of the server. -/
def toQuery (items : List ServerItem) : Query :=
  items.foldl (fun query item => queryItemAdd query item.toQueryItem) queryNew

/-! ## What arrives -/

def receivedJson (json : ClientJson) : Json :=
  (ServerJson.ofProto json.toProto).toJson

def receivedItem (item : ClientItem) : QueryItem :=
  (ServerItem.ofProto item.toProto).toQueryItem

def receivedQuery (items : List ClientItem) : Query :=
  toQuery (serverConditional (clientConditional items))

/-- The value of the field that belongs to the type. -/
def Values.typed (values : Values) : ProtoType → TypedValue
  | .int32 => .int32 values.int32Val
  | .float => .float values.floatVal
  | .string => .string values.stringVal
  | .bool => .bool (some values.boolVal)
  | .object => .object

/-- Same shape, and at every node the same key, type and value. -/
def Agrees : ClientJson → Json → Prop
  | .null, .null => True
  | .node type key values bro son, .node key' value bro' son' =>
      key'.val = key ∧ value.typed = values.typed type ∧
        Agrees bro bro' ∧ Agrees son son'
  | _, _ => False

structure ItemAgrees (item : ClientItem) (queryItem : QueryItem) : Prop where
  key : queryItem.key.map Str.val = item.key
  cmp : queryItem.cmpOp = item.cmp.cast
  value : queryItem.queryVal.typed = item.values.typed item.type

structure RequestLaw (json : ClientJson) (items : List ClientItem) :
    Prop where
  document : Agrees json (receivedJson json)
  conditions : ∀ item ∈ items, ItemAgrees item (receivedItem item)
  query : (receivedQuery items).fQueryItm.Perm (items.map receivedItem)

/-! ## When it arrives -/

/-- Behind the first NUL there are only NULs. -/
def CutsNothing (chars : List Byte) : Prop :=
  ∀ char ∈ chars.dropWhile (· != 0), char = 0

/-- The fields that are stored last into the union leave the value there. -/
def Values.Survives (values : Values) : ProtoType → Prop
  | .int32 =>
      values.floatVal.toNat / 256 = values.int32Val.toNat / 256 ∧
        boolByte values.boolVal = values.int32Val.toNat % 256
  | .float => boolByte values.boolVal = values.floatVal.toNat % 256
  | .string => CutsNothing values.stringVal
  | .bool => True
  | .object => True

def ClientJson.Survives : ClientJson → Prop
  | .null => True
  | .node type key values bro son =>
      CutsNothing key ∧ values.Survives type ∧ bro.Survives ∧ son.Survives

def ClientItem.Survives (item : ClientItem) : Prop :=
  (∀ name ∈ item.key, CutsNothing name) ∧ item.values.Survives item.type

theorem strncpy_eq_self_iff (chars : List Byte) :
    strncpy chars = chars ↔ CutsNothing chars := by
  unfold CutsNothing
  induction chars with
  | nil => simp [strncpy]
  | cons char rest ih =>
      by_cases hchar : char = 0
      · subst hchar
        rw [strncpy, if_pos rfl, eq_comm, List.eq_replicate_iff]
        simp
      · rw [strncpy, if_neg hchar, List.cons.injEq, and_iff_right rfl, ih,
          List.dropWhile_cons_of_pos (by simpa using hchar)]

theorem Values.typed_toValue_iff (values : Values) (type : ProtoType) :
    (values.toValue type.cast).typed = values.typed type ↔
      values.Survives type := by
  cases type with
  | int32 =>
      simp only [ProtoType.cast, toValue, JsonValue.typed, typed,
        TypedValue.int32.injEq, Survives, union, unionInt32,
        word_setBoolVal_eq_iff]
  | float =>
      simp only [ProtoType.cast, toValue, JsonValue.typed, typed,
        TypedValue.float.injEq, Survives, union, unionFloat,
        word_setBoolVal_eq_iff, true_and]
  | string =>
      simp only [ProtoType.cast, toValue, JsonValue.typed, typed,
        TypedValue.string.injEq, Survives]
      exact strncpy_eq_self_iff values.stringVal
  | bool =>
      simp only [ProtoType.cast, toValue, JsonValue.typed, typed, Survives,
        union, unionBool?_setBoolVal]
  | object =>
      simp only [ProtoType.cast, toValue, JsonValue.typed, typed, Survives]

theorem agrees_receivedJson_iff (json : ClientJson) :
    Agrees json (receivedJson json) ↔ json.Survives := by
  induction json with
  | null => exact Iff.rfl
  | node type key values bro son ihBro ihSon =>
      unfold receivedJson at ihBro ihSon ⊢
      rw [ClientJson.toProto, ServerJson.ofProto, ServerJson.toJson, Agrees,
        ClientJson.Survives, ihBro, ihSon, values.typed_toValue_iff type]
      exact and_congr_left' (strncpy_eq_self_iff key)

theorem itemAgrees_receivedItem_iff (item : ClientItem) :
    ItemAgrees item (receivedItem item) ↔ item.Survives := by
  have hkey : (receivedItem item).key.map Str.val = item.key ↔
      ∀ name ∈ item.key, CutsNothing name := by
    have hpath : (receivedItem item).key.map Str.val =
        item.key.map strncpy := List.map_map ..
    rw [hpath]
    conv_lhs => rhs; rw [← List.map_id item.key]
    rw [List.map_inj_left]
    exact forall₂_congr (fun name _ => strncpy_eq_self_iff name)
  have hvalue := item.values.typed_toValue_iff item.type
  constructor
  · rintro ⟨hpath, -, htyped⟩
    exact ⟨hkey.mp hpath, hvalue.mp htyped⟩
  · rintro ⟨hnames, hsurvives⟩
    exact ⟨hkey.mpr hnames, rfl, hvalue.mpr hsurvives⟩

theorem receivedQuery_perm (items : List ClientItem) :
    (receivedQuery items).fQueryItm.Perm (items.map receivedItem) := by
  have hperm := foldl_queryItemAdd_perm
    ((serverConditional (clientConditional items)).map
      ServerItem.toQueryItem) queryNew
  have hmap : (serverConditional (clientConditional items)).map
      ServerItem.toQueryItem = items.map receivedItem := by
    rw [serverConditional, clientConditional, List.map_map, List.map_map]
    rfl
  rw [List.foldl_map, hmap] at hperm
  exact hperm

/-- A request arrives with the values that were sent exactly when no string is
cut at a NUL and the fields that do not belong to a node or a condition leave
its value in the union. -/
theorem requestLaw_iff (json : ClientJson) (items : List ClientItem) :
    RequestLaw json items ↔
      json.Survives ∧ ∀ item ∈ items, item.Survives := by
  constructor
  · intro hlaw
    exact ⟨(agrees_receivedJson_iff json).mp hlaw.document, fun item hmem =>
      (itemAgrees_receivedItem_iff item).mp (hlaw.conditions item hmem)⟩
  · rintro ⟨hjson, hitems⟩
    exact ⟨(agrees_receivedJson_iff json).mpr hjson, fun item hmem =>
      (itemAgrees_receivedItem_iff item).mpr (hitems item hmem),
      receivedQuery_perm items⟩

/-- The number 5 arrives as 0, because the float beside it is stored over it. -/
theorem requestLaw_fails : ¬ ∀ (json : ClientJson) (items : List ClientItem),
    RequestLaw json items := by
  intro hlaw
  have hjson := (hlaw (.node .int32 [97] ⟨5, 0, [], false⟩ .null .null)
    []).document
  obtain ⟨-, hvalue, -, -⟩ := hjson
  exact absurd hvalue (by decide)

end Network

end NosqlDbms
