import NosqlDbms.Json
import Mathlib.Tactic

/-!
# Conformance to a type

A document conforms to a type when it has every field the type declares.
`json_is_apply_type` moves on through `next` and not through `bro`, so it
compares the attributes with the first son at most.
-/

namespace NosqlDbms

/-- Keys and values of a node and its brothers, in order. -/
def Json.brothers : Json → List (Str × JsonValue)
  | .null => []
  | .node key value bro _ => (key, value) :: bro.brothers

/-- A son has the name and the type of the attribute. -/
def Attr.Matches (attr : Attr) (son : Str × JsonValue) : Prop :=
  son.1.val = attr.name.val ∧ son.2.type = attr.type

/-- Each declared field is there. -/
def DocType.Declares (type : DocType) (sons : List (Str × JsonValue)) :
    Prop :=
  ∀ attr ∈ type.attrList, ∃ son ∈ sons, attr.Matches son

/-- `json_is_apply_type` accepts an object with the sons exactly when they
have all that is declared. -/
def ConformanceLaw (type : DocType) (sons : Json) : Prop :=
  ∀ key bro, jsonIsApplyType (.node key .object bro sons) type = true ↔
    type.Declares sons.brothers

/-- What one look at the first son can tell: nothing is declared, or one field
that this son is. -/
def DocType.InFirst (type : DocType) (sons : List (Str × JsonValue)) :
    Prop :=
  type.attrList = [] ∨ ∃ attr son,
    type.attrList = [attr] ∧ sons.head? = some son ∧ attr.Matches son

theorem DocType.InFirst.declares {type : DocType}
    {sons : List (Str × JsonValue)} (h : type.InFirst sons) :
    type.Declares sons := by
  intro attr hattr
  rcases h with hnil | ⟨attr', son, hattrs, hson, hmatches⟩
  · rw [hnil] at hattr
    cases hattr
  · rw [hattrs, List.mem_singleton] at hattr
    subst attr
    exact ⟨son, List.mem_of_mem_head? hson, hmatches⟩

theorem applyAttrs_iff (attrs : List Attr) (son : Json) :
    applyAttrs attrs son = some [] ↔ attrs = [] ∨ ∃ attr first,
      attrs = [attr] ∧ son.brothers.head? = some first ∧
        attr.Matches first := by
  cases attrs with
  | nil => cases son <;> simp [applyAttrs]
  | cons attr rest =>
      cases son with
      | null => simp [applyAttrs, Json.brothers]
      | node key value bro son =>
          by_cases hkey : attr.name = key
          · subst key
            by_cases htype : attr.type = value.type
            · simp [applyAttrs, Json.brothers, Attr.Matches, htype,
                stringCmp_eq_zero_iff]
            · simp [applyAttrs, Json.brothers, Attr.Matches, htype,
                stringCmp_eq_zero_iff, Ne.symm htype]
          · have hval : key.val ≠ attr.name.val :=
              fun h => hkey (Str.ext h.symm)
            simp [applyAttrs, Json.brothers, Attr.Matches, hkey, hval,
              stringCmp_eq_zero_iff]

theorem jsonIsApplyType_iff (type : DocType) (key : Str) (bro sons : Json) :
    jsonIsApplyType (.node key .object bro sons) type = true ↔
      type.InFirst sons.brothers := by
  rw [jsonIsApplyType, beq_iff_eq, applyAttrs_iff]
  rfl

/-- The answer is right when a declared field is missing, and when the first
son is all that is declared. -/
theorem conformanceLaw_iff (type : DocType) (sons : Json) :
    ConformanceLaw type sons ↔
      type.InFirst sons.brothers ∨
        ∃ attr ∈ type.attrList, ∀ son ∈ sons.brothers,
          ¬ attr.Matches son := by
  have hmissing : (∃ attr ∈ type.attrList, ∀ son ∈ sons.brothers,
      ¬ attr.Matches son) ↔ ¬ type.Declares sons.brothers := by
    simp [DocType.Declares]
  rw [hmissing]
  constructor
  · intro h
    have hlaw := h (stringCtor []) .null
    rw [jsonIsApplyType_iff] at hlaw
    rw [hlaw]
    exact em _
  · intro h key bro
    rw [jsonIsApplyType_iff]
    rcases h with hfirst | hnot
    · exact iff_of_true hfirst hfirst.declares
    · exact iff_of_false (fun hfirst => hnot hfirst.declares) hnot

/-- An object with the two fields its type declares is refused. -/
theorem conformanceLaw_fails : ¬ ∀ (type : DocType) (sons : Json),
    (type.attrList.map Attr.name).Nodup →
    (sons.brothers.map Prod.fst).Nodup → ConformanceLaw type sons := by
  intro h
  let type : DocType := ⟨stringCtor [116],
    [⟨stringCtor [97], .int32⟩, ⟨stringCtor [98], .int32⟩]⟩
  let sons : Json := .node (stringCtor [97]) (.int32 1)
    (.node (stringCtor [98]) (.int32 2) .null .null) .null
  have hlaw := h type sons (by decide) (by decide) (stringCtor []) .null
  have hrefused : jsonIsApplyType
      (.node (stringCtor []) .object .null sons) type = false := by decide
  have hdeclares : type.Declares sons.brothers := by
    intro attr hattr
    simp only [type, List.mem_cons, List.not_mem_nil, or_false] at hattr
    rcases hattr with rfl | rfl
    · exact ⟨(stringCtor [97], .int32 1), by simp [sons, Json.brothers],
        rfl, rfl⟩
    · exact ⟨(stringCtor [98], .int32 2), by simp [sons, Json.brothers],
        rfl, rfl⟩
  rw [hlaw.mpr hdeclares] at hrefused
  cases hrefused

end NosqlDbms
