import NosqlDbms.Network
import Mathlib.Tactic

/-!
# The client's syntax tree and its documents

`Node.hpp`: the tree that the parser builds for a document and its translation
to the client's `Json`.  The root is the translation of the last plain field
list, or a `Json` whose type nobody sets.
-/

namespace NosqlDbms

namespace Network

/-- `Json::addBro`: to the end of the chain of brothers. -/
def ClientJson.addBro : ClientJson → ClientJson → ClientJson
  | .null, _ => .null
  | .node type key values .null son, rhs => .node type key values rhs son
  | .node type key values (.node type' key' values' bro' son') son, rhs =>
      .node type key values
        (addBro (.node type' key' values' bro' son') rhs) son

/-- `Json::addSon`. -/
def ClientJson.addSon : ClientJson → ClientJson → ClientJson
  | .null, _ => .null
  | .node type key values bro .null, rhs => .node type key values bro rhs
  | .node type key values bro (.node type' key' values' bro' son'), rhs =>
      .node type key values bro
        (addBro (.node type' key' values' bro' son') rhs)

/-- What the fields of a `new Json` without an initializer happen to hold. -/
structure Uninit where
  type : ProtoType
  floatVal : BitVec 32
  boolVal : Bool

def Uninit.values (uninit : Uninit) : Values where
  int32Val := 0
  floatVal := uninit.floatVal
  stringVal := []
  boolVal := uninit.boolVal

/-- The members of a field that its constructor does not set are in `values`
as well. -/
structure FieldNode where
  type : ProtoType
  name : List Byte
  values : Values

def FieldNode.toJson (field : FieldNode) : ClientJson :=
  .node field.type field.name field.values .null .null

/-- The loop of `FieldListNode::toJson`. -/
def fieldListToJson (fields : List FieldNode) : ClientJson :=
  fields.foldl (fun fSon field =>
    match fSon with
    | .null => field.toJson
    | son => son.addBro field.toJson) .null

structure EntityNode where
  isRoot : Bool
  nodeName : List Byte
  fields : List FieldNode

/-- `EntityNode(fieldListNode)`. -/
def EntityNode.plain (fields : List FieldNode) : EntityNode :=
  ⟨true, [], fields⟩

/-- `EntityNode(nodeName, fieldListNode)`. -/
def EntityNode.named (nodeName : List Byte) (fields : List FieldNode) :
    EntityNode :=
  ⟨false, nodeName, fields⟩

section Uninit

variable (uninit : Uninit)

/-- The document of `EntityNode::toJson`. -/
def EntityNode.toJson (entity : EntityNode) : ClientJson :=
  (ClientJson.node .object entity.nodeName uninit.values .null .null).addSon
    (fieldListToJson entity.fields)

/-- The body of the first loop of `EntityListNode::toJson`. -/
def pickRoot (rootJson : ClientJson) (entity : EntityNode) : ClientJson :=
  if entity.isRoot then entity.toJson uninit else rootJson

/-- The body of its second loop. -/
def hangNested (rootJson : ClientJson) (entity : EntityNode) : ClientJson :=
  if entity.isRoot then rootJson
  else rootJson.addSon (entity.toJson uninit)

/-- `EntityListNode::toJson`. -/
def entityListToJson (entities : List EntityNode) : ClientJson :=
  let rootJson := entities.foldl (pickRoot uninit)
    (.node uninit.type [] uninit.values .null .null)
  entities.foldl (hangNested uninit) rootJson

end Uninit

/-! ## The document that is meant -/

/-- A node and its brothers, each without the link to the next. -/
def ClientJson.chain : ClientJson → List ClientJson
  | .null => []
  | .node type key values bro son =>
      .node type key values .null son :: bro.chain

def ClientJson.sons : ClientJson → List ClientJson
  | .null => []
  | .node _ _ _ _ son => son.chain

/-- A field of the document, or an object with fields. -/
inductive Entry where
  | field (node : FieldNode)
  | object (name : List Byte) (fields : List FieldNode)

def EntityNode.entries (entity : EntityNode) : List Entry :=
  if entity.isRoot then entity.fields.map Entry.field
  else [.object entity.nodeName entity.fields]

/-- The node is the entry. -/
def Entry.Describes : Entry → ClientJson → Prop
  | field node, json => json = node.toJson
  | object name fields, json =>
      json.sons = fields.map FieldNode.toJson ∧
        ∃ values son, json = .node .object name values .null son

/-- An object, alone, with the entries as its sons in some order. -/
structure ClientJson.IsDocument (json : ClientJson) (entries : List Entry) :
    Prop where
  root : ∃ key values son, json = .node .object key values .null son
  sons : ∃ ordered, ordered.Perm entries ∧
    List.Forall₂ Entry.Describes ordered json.sons

/-- The translation keeps the whole document, whatever uninitialized members
hold. -/
def TranslationLaw (entities : List EntityNode) : Prop :=
  ∀ uninit, (entityListToJson uninit entities).IsDocument
    (entities.flatMap EntityNode.entries)

/-- There is a plain field list, and none with a field before the last one. -/
def LastPlain (entities : List EntityNode) : Prop :=
  ∃ front last, entities.filter EntityNode.isRoot = front ++ [last] ∧
    ∀ entity ∈ front, entity.fields = []

/-! ## Chains -/

theorem ClientJson.chain_addBro {json rhs : ClientJson}
    (hne : json ≠ .null) :
    (json.addBro rhs).chain = json.chain ++ rhs.chain := by
  induction json with
  | null => exact absurd rfl hne
  | node type key values bro son ihBro _ =>
      cases bro with
      | null => rfl
      | node type' key' values' bro' son' =>
          rw [addBro, chain, ihBro (by simp)]
          rfl

theorem ClientJson.addSon_node (type : ProtoType) (key : List Byte)
    (values : Values) (bro son rhs : ClientJson) :
    ∃ son', (ClientJson.node type key values bro son).addSon rhs =
      .node type key values bro son' ∧
        son'.chain = son.chain ++ rhs.chain := by
  cases son with
  | null => exact ⟨rhs, rfl, rfl⟩
  | node type' key' values' bro' son' =>
      exact ⟨_, rfl, chain_addBro (by simp)⟩

theorem FieldNode.chain_toJson (field : FieldNode) :
    field.toJson.chain = [field.toJson] := rfl

theorem chain_fieldListToJson (fields : List FieldNode) :
    (fieldListToJson fields).chain = fields.map FieldNode.toJson := by
  have hfold : ∀ fSon : ClientJson,
      (fields.foldl (fun fSon field =>
        match fSon with
        | .null => field.toJson
        | son => son.addBro field.toJson) fSon).chain =
          fSon.chain ++ fields.map FieldNode.toJson := by
    induction fields with
    | nil => exact fun fSon => (List.append_nil _).symm
    | cons field rest ih =>
        intro fSon
        rw [List.foldl_cons, ih, List.map_cons]
        cases fSon with
        | null => rfl
        | node type key values bro son =>
            dsimp only
            rw [ClientJson.chain_addBro (by simp), field.chain_toJson,
              List.append_assoc]
            rfl
  exact hfold .null

section Uninit

variable (uninit : Uninit)

theorem EntityNode.toJson_eq (entity : EntityNode) :
    ∃ son, entity.toJson uninit =
        .node .object entity.nodeName uninit.values .null son ∧
      son.chain = entity.fields.map FieldNode.toJson := by
  obtain ⟨son, hson, hchain⟩ := ClientJson.addSon_node .object
    entity.nodeName uninit.values .null .null
    (fieldListToJson entity.fields)
  exact ⟨son, hson, by rw [hchain, chain_fieldListToJson]; rfl⟩

theorem foldl_hangNested (entities : List EntityNode) (type : ProtoType)
    (key : List Byte) (values : Values) (son : ClientJson) :
    ∃ son', entities.foldl (hangNested uninit)
        (.node type key values .null son) =
          .node type key values .null son' ∧
      son'.chain = son.chain ++
        (entities.filter (fun entity => !entity.isRoot)).map
          (EntityNode.toJson uninit) := by
  induction entities generalizing son with
  | nil => exact ⟨son, rfl, by simp⟩
  | cons entity rest ih =>
      rw [List.foldl_cons, hangNested]
      by_cases hroot : entity.isRoot
      · obtain ⟨son', hson', hchain⟩ := ih son
        refine ⟨son', by rw [if_pos hroot, hson'], ?_⟩
        rw [hchain, List.filter_cons_of_neg (by simp [hroot])]
      · obtain ⟨middle, hmiddle, hchainMiddle⟩ :=
          ClientJson.addSon_node type key values .null son
            (entity.toJson uninit)
        obtain ⟨son', hson', hchain⟩ := ih middle
        obtain ⟨sonEntity, hentity, -⟩ := entity.toJson_eq uninit
        refine ⟨son', by rw [if_neg hroot, hmiddle, hson'], ?_⟩
        rw [hchain, hchainMiddle, List.filter_cons_of_pos (by simp [hroot]),
          List.map_cons, List.append_assoc, hentity]
        rfl

theorem foldl_pickRoot (entities : List EntityNode) (root : ClientJson) :
    entities.foldl (pickRoot uninit) root =
      ((entities.filter EntityNode.isRoot).getLast?.map
        (EntityNode.toJson uninit)).getD root := by
  induction entities generalizing root with
  | nil => rfl
  | cons entity rest ih =>
      rw [List.foldl_cons, ih, pickRoot]
      by_cases hroot : entity.isRoot
      · rw [if_pos hroot, List.filter_cons_of_pos hroot,
          List.getLast?_cons]
        cases (rest.filter EntityNode.isRoot).getLast? <;> rfl
      · rw [if_neg hroot, List.filter_cons_of_neg hroot]

end Uninit

/-! ## The translation -/

def nestedOf (entities : List EntityNode) : List EntityNode :=
  entities.filter (fun entity => !entity.isRoot)

theorem entries_perm (entities : List EntityNode) :
    (entities.flatMap EntityNode.entries).Perm
      ((entities.filter EntityNode.isRoot).flatMap
          (fun entity => entity.fields.map Entry.field) ++
        (nestedOf entities).map
          (fun entity => Entry.object entity.nodeName entity.fields)) := by
  induction entities with
  | nil => exact .nil
  | cons entity rest ih =>
      rw [List.flatMap_cons, nestedOf, EntityNode.entries]
      by_cases hroot : entity.isRoot
      · rw [if_pos hroot, List.filter_cons_of_pos hroot,
          List.filter_cons_of_neg (by simp [hroot]), List.flatMap_cons,
          List.append_assoc]
        exact ih.append_left _
      · rw [if_neg hroot, List.filter_cons_of_neg hroot,
          List.filter_cons_of_pos (by simp [hroot]), List.map_cons]
        exact (ih.cons _).trans List.perm_middle.symm

theorem entityListToJson_no_plain (uninit : Uninit)
    {entities : List EntityNode}
    (hnone : entities.filter EntityNode.isRoot = []) :
    ∃ son, entityListToJson uninit entities =
      .node uninit.type [] uninit.values .null son := by
  obtain ⟨son, hson, -⟩ := foldl_hangNested uninit entities uninit.type []
    uninit.values .null
  refine ⟨son, ?_⟩
  rw [entityListToJson, foldl_pickRoot, hnone]
  exact hson

theorem entityListToJson_plain (uninit : Uninit) {entities : List EntityNode}
    {front : List EntityNode} {last : EntityNode}
    (hsplit : entities.filter EntityNode.isRoot = front ++ [last]) :
    ∃ son, entityListToJson uninit entities =
        .node .object last.nodeName uninit.values .null son ∧
      son.chain = last.fields.map FieldNode.toJson ++
        (nestedOf entities).map (EntityNode.toJson uninit) := by
  obtain ⟨sonRoot, hroot, hchainRoot⟩ := last.toJson_eq uninit
  obtain ⟨son, hson, hchain⟩ := foldl_hangNested uninit entities .object
    last.nodeName uninit.values sonRoot
  refine ⟨son, ?_, by rw [hchain, hchainRoot]; rfl⟩
  rw [entityListToJson, foldl_pickRoot, hsplit, List.getLast?_concat]
  dsimp only [Option.map_some, Option.getD_some]
  rw [hroot, hson]

theorem describes_sons (uninit : Uninit) (fields : List FieldNode)
    (nested : List EntityNode) :
    List.Forall₂ Entry.Describes
      (fields.map Entry.field ++ nested.map
        (fun entity => Entry.object entity.nodeName entity.fields))
      (fields.map FieldNode.toJson ++
        nested.map (EntityNode.toJson uninit)) := by
  apply List.rel_append
  · rw [List.forall₂_map_left_iff, List.forall₂_map_right_iff,
      List.forall₂_same]
    exact fun field _ => rfl
  · rw [List.forall₂_map_left_iff, List.forall₂_map_right_iff,
      List.forall₂_same]
    intro entity _
    obtain ⟨son, hson, hchain⟩ := entity.toJson_eq uninit
    exact ⟨by rw [hson]; exact hchain, _, _, hson⟩

theorem length_entries (entities : List EntityNode) :
    (entities.flatMap EntityNode.entries).length =
      ((entities.filter EntityNode.isRoot).map
          (fun entity => entity.fields.length)).sum +
        (nestedOf entities).length := by
  rw [(entries_perm entities).length_eq, List.length_append,
    List.length_flatMap, List.length_map]
  simp

/-- The document is kept exactly when its plain fields are all in the last
plain field list, and there is one. -/
theorem translationLaw_iff (entities : List EntityNode) :
    TranslationLaw entities ↔ LastPlain entities := by
  constructor
  · intro h
    rcases List.eq_nil_or_concat' (entities.filter EntityNode.isRoot) with
      hnone | ⟨front, last, hsplit⟩
    · obtain ⟨son, hson⟩ :=
        entityListToJson_no_plain ⟨.int32, 0, false⟩ hnone
      obtain ⟨key, values, son', hroot⟩ := (h ⟨.int32, 0, false⟩).root
      rw [hson] at hroot
      cases hroot
    · refine ⟨front, last, hsplit, ?_⟩
      obtain ⟨son, hson, hchain⟩ :=
        entityListToJson_plain ⟨.int32, 0, false⟩ hsplit
      obtain ⟨ordered, hperm, hdescribes⟩ := (h ⟨.int32, 0, false⟩).sons
      have hlength := hdescribes.length_eq
      rw [hperm.length_eq, length_entries, hsplit, hson,
        ClientJson.sons, hchain] at hlength
      simp only [List.map_append, List.sum_append, List.map_cons,
        List.map_nil, List.sum_cons, List.sum_nil, List.length_append,
        List.length_map] at hlength
      have hzero : (front.map
          (fun entity => entity.fields.length)).sum = 0 := by omega
      intro entity hmem
      have hle := List.le_sum_of_mem
        (List.mem_map_of_mem (f := fun entity : EntityNode =>
          entity.fields.length) hmem)
      exact List.eq_nil_of_length_eq_zero (by omega)
  · rintro ⟨front, last, hsplit, hempty⟩ uninit
    obtain ⟨son, hson, hchain⟩ := entityListToJson_plain uninit hsplit
    refine ⟨⟨_, _, _, hson⟩, _, ?_, by
      rw [hson, ClientJson.sons, hchain]
      exact describes_sons uninit last.fields (nestedOf entities)⟩
    have hfront : front.flatMap (fun entity =>
        entity.fields.map Entry.field) = [] := by
      rw [List.flatMap_eq_nil_iff]
      intro entity hmem
      rw [hempty entity hmem]
      rfl
    have hperm := entries_perm entities
    rw [hsplit, List.flatMap_append, hfront, List.nil_append,
      List.flatMap_singleton] at hperm
    exact hperm.symm

/-- A document of one nested entity has a root whose type nobody sets. -/
theorem translationLaw_fails : ¬ ∀ entities : List EntityNode,
    entities ≠ [] → TranslationLaw entities := by
  intro h
  let field : FieldNode := ⟨.int32, [98], ⟨1, 0, [], false⟩⟩
  obtain ⟨key, values, son, hroot⟩ :=
    (h [.named [97] [field]] (by simp) ⟨.int32, 0, false⟩).root
  cases hroot

end Network

end NosqlDbms
