import NosqlDbms.User
import Mathlib.Tactic

/-!
# Responses on the wire

The way back: a document of the engine becomes the server's struct, a message
and the client's struct.  The server's constructor sets only the members that
belong to the type, and two of the others have no initializer.
-/

namespace NosqlDbms

namespace Network

/-- `static_cast<dbms::JsonType>`. -/
def ProtoType.ofCast : JsonType → ProtoType
  | .int32 => .int32
  | .float => .float
  | .string => .string
  | .bool => .bool
  | .object => .object

/-- What the members without an initializer happen to hold. -/
structure Unset where
  floatVal : BitVec 32
  boolVal : Bool

/-- The three members are read from the union; what comes of a byte that is no
`bool` is open. -/
def Unset.copied (unset : Unset) (raw : BitVec 64) : Values :=
  ⟨unionInt32 raw, unionFloat raw, [], (unionBool? raw).getD unset.boolVal⟩

/-- The members after `Json(const ::Json &)`. -/
def Unset.values (unset : Unset) : JsonValue → Values
  | .string str => ⟨0, unset.floatVal, str.val, unset.boolVal⟩
  | .object => ⟨0, unset.floatVal, [], unset.boolVal⟩
  | .int32 raw => unset.copied raw
  | .float raw => unset.copied raw
  | .bool raw => unset.copied raw

/-- `Json(const ::Json &)` of the server.  A node is known by the way to it
from the root, with true for each step to a son. -/
def ServerJson.ofJson (unset : List Bool → Unset) : Json → ServerJson
  | .null => .null
  | .node key value bro son =>
      .node value.type key.val ((unset []).values value)
        (ofJson (fun way => unset (false :: way)) bro)
        (ofJson (fun way => unset (true :: way)) son)

/-- `operator dbms::Json *` of the server. -/
def ServerJson.toProto : ServerJson → ProtoJson
  | .null => .null
  | .node type key values bro son =>
      .node (.ofCast type) key values bro.toProto son.toProto

/-- `Json(const dbms::Json &)` of the client. -/
def ClientJson.ofProto : ProtoJson → ClientJson
  | .null => .null
  | .node type key values bro son =>
      .node type key values (ofProto bro) (ofProto son)

/-- `Network::Response` of the server. -/
structure Response where
  status : Bool
  collection : List ServerJson

/-- `OperationResponse`, the message. -/
structure OperationResponse where
  status : Bool
  collection : List ProtoJson

/-- `Network::Response` of the client. -/
structure ClientResponse where
  status : Bool
  collection : List ClientJson

/-- The response that `Driver::execute` builds. -/
def Response.ofFound (unset : ℕ → List Bool → Unset) (status : Bool)
    (collection : List Found) : Response where
  status := status
  collection := collection.map (fun found =>
    ServerJson.ofJson (unset found.foff) found.json)

/-- `operator OperationResponse`. -/
def Response.toProto (response : Response) : OperationResponse where
  status := response.status
  collection := response.collection.map ServerJson.toProto

/-- `Response(const dbms::OperationResponse &)` of the client. -/
def ClientResponse.ofProto (response : OperationResponse) :
    ClientResponse where
  status := response.status
  collection := response.collection.map ClientJson.ofProto

/-! ## What comes back -/

def answeredJson (unset : List Bool → Unset) (json : Json) : ClientJson :=
  ClientJson.ofProto (ServerJson.ofJson unset json).toProto

def answered (unset : ℕ → List Bool → Unset) (status : Bool)
    (collection : List Found) : ClientResponse :=
  ClientResponse.ofProto (Response.ofFound unset status collection).toProto

/-- Same shape, and at every node the same key, type and value. -/
def ClientJson.Same : ClientJson → ClientJson → Prop
  | .null, .null => True
  | .node type key values bro son, .node type' key' values' bro' son' =>
      key = key' ∧ values.typed type = values'.typed type' ∧
        bro.Same bro' ∧ son.Same son'
  | _, _ => False

theorem Unset.typed_values_iff (unset : Unset) (value : JsonValue) :
    (unset.values value).typed (.ofCast value.type) = value.typed ↔
      value.BoolSet := by
  cases value with
  | bool raw =>
      change TypedValue.bool (some ((unionBool? raw).getD unset.boolVal)) =
        TypedValue.bool (unionBool? raw) ↔ (unionBool? raw).isSome
      cases unionBool? raw with
      | none => simp
      | some flag => simp
  | int32 raw => exact iff_of_true rfl trivial
  | float raw => exact iff_of_true rfl trivial
  | string str => exact iff_of_true rfl trivial
  | object => exact iff_of_true rfl trivial

theorem agrees_answeredJson_iff (unset : List Bool → Unset) (json : Json) :
    Agrees (answeredJson unset json) json ↔ json.BoolsSet := by
  induction json generalizing unset with
  | null => exact Iff.rfl
  | node key value bro son ihBro ihSon =>
      rw [Json.BoolsSet, ← (unset []).typed_values_iff value,
        ← ihBro (fun way => unset (false :: way)),
        ← ihSon (fun way => unset (true :: way))]
      exact (and_iff_right rfl).trans (and_congr_left' eq_comm)

theorem Values.boolSet_toValue (values : Values) (type : JsonType) :
    (values.toValue type).BoolSet := by
  cases type with
  | bool =>
      change (unionBool? (setBoolVal _ values.boolVal)).isSome
      rw [unionBool?_setBoolVal]
      rfl
  | int32 => trivial
  | float => trivial
  | string => trivial
  | object => trivial

theorem ServerJson.boolsSet_toJson (json : ServerJson) :
    json.toJson.BoolsSet := by
  induction json with
  | null => trivial
  | node type key values bro son ihBro ihSon =>
      exact ⟨values.boolSet_toValue type, ihBro, ihSon⟩

theorem collection_answered (unset : ℕ → List Bool → Unset) (status : Bool)
    (collection : List Found) :
    (answered unset status collection).collection = collection.map
      (fun found => answeredJson (unset found.foff) found.json) := by
  rw [answered, ClientResponse.ofProto, Response.toProto, Response.ofFound,
    List.map_map, List.map_map]
  rfl

end Network

end NosqlDbms
