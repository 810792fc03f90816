import NosqlDbms.FileWrite
import NosqlDbms.QueryCheck
import NosqlDbms.User
import Mathlib.Tactic

/-!
# A store of documents

What the commands are for, without sections, slots and pointers: there are
types and a bag of documents, each with the name of its type.
-/

namespace NosqlDbms

/-- What a query is put to: an object with the brothers behind it, and the
name of its type.  Only the document itself has one. -/
structure Part where
  json : Json
  typeName : Option Str

structure Doc where
  typeName : Str
  json : Json
  deriving DecidableEq

structure Store where
  types : List DocType
  docs : Multiset Doc

/-- A node, what is behind it and what is inside it. -/
def Json.parts : Json → Option Str → List Part
  | .null, _ => []
  | .node key value bro son, typeName =>
      ⟨.node key value bro son, typeName⟩ ::
        (bro.parts none ++ son.parts none)

def Doc.self (doc : Doc) : Part := ⟨doc.json, some doc.typeName⟩

def Doc.parts (doc : Doc) : List Part := doc.json.parts (some doc.typeName)

def Doc.inner (doc : Doc) : List Part := doc.parts.tail

section Query

variable (past : Str → List Byte) (query : Query)

def Part.check (part : Part) : Option Bool :=
  queryCheck past query part.json part.typeName

def Part.meets (part : Part) : Bool :=
  part.check past query == some true

/-- The query has a result for every part and holds of no inner one. -/
def Doc.Whole (doc : Doc) : Prop :=
  (∀ part ∈ doc.parts, part.check past query ≠ none) ∧
    ∀ part ∈ doc.inner, part.meets past query = false

/-- The query is false of the document and of all that is inside. -/
def Doc.Outside (doc : Doc) : Prop :=
  ∀ part ∈ doc.parts, part.check past query = some false

namespace Store

def parts (store : Store) : Multiset Part :=
  store.docs.bind (fun doc => ↑doc.parts)

def read (store : Store) : Multiset Json :=
  (store.parts.filter (fun part => part.meets past query)).map Part.json

def delete (store : Store) : Store :=
  { store with
    docs := store.docs.filter (fun doc =>
      doc.self.meets past query = false) }

def update (newJson : Json) (store : Store) : Store :=
  { store with
    docs := store.docs.map (fun doc =>
      if doc.self.meets past query then ⟨doc.typeName, newJson⟩ else doc) }

end Store

end Query

namespace Store

/-- A type is taken when an empty section has room for it. -/
def addType (type : DocType) (store : Store) : Store :=
  if typePhSz type ≤ 8160 then
    { store with types := type :: store.types }
  else store

/-- There is a type of the name, and the document applies it. -/
def accepts (store : Store) (typeName : Str) (json : Json) : Bool :=
  store.types.any (fun type =>
    decide (type.name = typeName) && jsonIsApplyType json type)

def insert (typeName : Str) (json : Json) (store : Store) : Store :=
  if store.accepts typeName json then
    { store with docs := ⟨typeName, json⟩ ::ₘ store.docs }
  else store

def apply (past : Str → List Byte) (command : Command) (store : Store) :
    Store :=
  match command.type with
  | .insert => store.insert command.typeName command.json
  | .read => store
  | .update => store.update past command.query command.json
  | .delete => store.delete past command.query

/-- Types of one name are the same. -/
def Agrees (store : Store) : Prop :=
  ∀ type ∈ store.types, ∀ type' ∈ store.types, type.name = type'.name →
    type = type'

def Conforms (store : Store) : Prop :=
  ∀ doc ∈ store.docs, store.accepts doc.typeName doc.json = true

theorem accepts_iff {store : Store} {typeName : Str} {json : Json} :
    store.accepts typeName json = true ↔ ∃ type ∈ store.types,
      type.name = typeName ∧ jsonIsApplyType json type = true := by
  simp only [accepts, List.any_eq_true, Bool.and_eq_true, decide_eq_true_eq]

theorem Agrees.accepts_eq {store : Store} (h : store.Agrees) {type : DocType}
    (hmem : type ∈ store.types) (json : Json) :
    store.accepts type.name json = jsonIsApplyType json type := by
  rw [Bool.eq_iff_iff, accepts_iff]
  constructor
  · rintro ⟨type', hmem', hname, happly⟩
    rw [← h type' hmem' type hmem hname]
    exact happly
  · exact fun happly => ⟨type, hmem, rfl, happly⟩

/-! ## Conformance -/

section Conforms

variable {store : Store}

theorem mem_types_addType {type type' : DocType} :
    type' ∈ (store.addType type).types ↔
      (type' = type ∧ typePhSz type ≤ 8160) ∨ type' ∈ store.types := by
  rw [addType]
  split
  next hfits => rw [List.mem_cons, and_iff_left hfits]
  next hbig => exact (or_iff_right (fun h => hbig h.2)).symm

theorem Agrees.addType (h : store.Agrees) {type : DocType}
    (hsame : ∀ known ∈ store.types, known.name = type.name → known = type) :
    (store.addType type).Agrees := by
  intro first hfirst second hsecond hname
  rcases mem_types_addType.mp hfirst with ⟨heq, -⟩ | hold
  · rcases mem_types_addType.mp hsecond with ⟨heq', -⟩ | hold'
    · rw [heq, heq']
    · rw [heq] at hname ⊢
      exact (hsame second hold' hname.symm).symm
  · rcases mem_types_addType.mp hsecond with ⟨heq', -⟩ | hold'
    · rw [heq'] at hname ⊢
      exact hsame first hold hname
    · exact h first hold second hold' hname

theorem docs_addType (type : DocType) :
    (store.addType type).docs = store.docs := by
  rw [Store.addType]
  split <;> rfl

theorem Conforms.addType (h : store.Conforms) (type : DocType) :
    (store.addType type).Conforms := by
  intro doc hmem
  rw [docs_addType] at hmem
  obtain ⟨known, hknown, happlies⟩ := accepts_iff.mp (h doc hmem)
  exact accepts_iff.mpr
    ⟨known, mem_types_addType.mpr (Or.inr hknown), happlies⟩

theorem types_insert (typeName : Str) (json : Json) :
    (store.insert typeName json).types = store.types := by
  rw [Store.insert]
  split <;> rfl

theorem Conforms.insert (h : store.Conforms) (typeName : Str) (json : Json) :
    (store.insert typeName json).Conforms := by
  rw [Store.insert]
  split
  next haccepts =>
    intro doc hmem
    rcases Multiset.mem_cons.mp hmem with rfl | hmem
    · exact haccepts
    · exact h doc hmem
  next => exact h

variable {past : Str → List Byte} {query : Query}

theorem Conforms.delete (h : store.Conforms) :
    (store.delete past query).Conforms :=
  fun doc hmem => h doc (Multiset.mem_filter.mp hmem).1

theorem Conforms.update (h : store.Conforms) {newJson : Json}
    (hnew : ∀ doc ∈ store.docs, doc.self.meets past query = true →
      store.accepts doc.typeName newJson = true) :
    (store.update past query newJson).Conforms := by
  intro doc hmem
  obtain ⟨old, hold, rfl⟩ := Multiset.mem_map.mp hmem
  split
  next hmeets => exact hnew old hold hmeets
  next => exact h old hold

end Conforms

end Store

end NosqlDbms
