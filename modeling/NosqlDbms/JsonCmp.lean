import NosqlDbms.QueryCheck
import Mathlib.Tactic

/-!
# Comparing nodes

`json_cmp` compares two nodes by type, key and value.  The result is announced
as that of an order, but for numbers and booleans it only tells whether the
values differ: two such nodes are each greater than the other.
-/

namespace NosqlDbms

/-- A node without its links, which `json_cmp` does not follow. -/
structure JsonNode where
  key : Str
  value : JsonValue
  deriving DecidableEq

/-- The `switch` of `json_cmp`, entered with values of one type. -/
def jsonValueCmp (first second : JsonValue) : ℤ :=
  match first with
  | .string first =>
      match second with
      | .string second => stringCmp first second
      | _ => 1
  | .int32 first =>
      match second with
      | .int32 second =>
          if unionInt32 first = unionInt32 second then 0 else 1
      | _ => 1
  | .float first =>
      match second with
      | .float second =>
          if floatTest (· == ·) (unionFloat first) (unionFloat second) then 0
          else 1
      | _ => 1
  | .bool first =>
      match second with
      | .bool second => if unionByte first = unionByte second then 0 else 1
      | _ => 1
  | .object =>
      match second with
      | .object => 0
      | _ => 1

/-- `json_cmp`. -/
def jsonCmp (first second : JsonNode) : ℤ :=
  if second.value.type.code < first.value.type.code then 1
  else if first.value.type.code < second.value.type.code then -1
  else
    let keyCmp := stringCmp first.key second.key
    if keyCmp ≠ 0 then keyCmp
    else jsonValueCmp first.value second.value

/-! ## What the comment promises -/

/-- The values are equal; a NaN is not equal to itself. -/
def JsonValue.Same (first second : JsonValue) : Prop :=
  match first with
  | .string first =>
      match second with
      | .string second => first.val = second.val
      | _ => False
  | .int32 first =>
      match second with
      | .int32 second => unionInt32 first = unionInt32 second
      | _ => False
  | .float first =>
      match second with
      | .float second =>
          floatIsNan (unionFloat first) = false ∧
            floatIsNan (unionFloat second) = false ∧
            floatKey (unionFloat first) = floatKey (unionFloat second)
      | _ => False
  | .bool first =>
      match second with
      | .bool second => unionByte first = unionByte second
      | _ => False
  | .object =>
      match second with
      | .object => True
      | _ => False

structure JsonCmpLaw (first second third : JsonNode) : Prop where
  zero : jsonCmp first second = 0 ↔
    first.value.type = second.value.type ∧
      first.key.val = second.key.val ∧ first.value.Same second.value
  swap : jsonCmp first second < 0 ↔ 0 < jsonCmp second first
  trans : jsonCmp first second ≤ 0 → jsonCmp second third ≤ 0 →
    jsonCmp first third ≤ 0

/-- The values are of a type that `json_cmp` does not order. -/
def JsonType.Unordered : JsonType → Prop
  | .int32 => True
  | .float => True
  | .bool => True
  | .string => False
  | .object => False

/-- Nodes that differ in a value `json_cmp` does not order, and in nothing
before it. -/
structure JsonNode.Clash (first second : JsonNode) : Prop where
  type : first.value.type = second.value.type
  unordered : first.value.type.Unordered
  key : first.key.val = second.key.val
  differ : ¬ first.value.Same second.value

/-! ## The comparison as a whole -/

theorem JsonType.code_inj {first second : JsonType} :
    first.code = second.code ↔ first = second := by
  constructor
  · intro h
    have hcode := congrArg JsonType.ofCode? h
    rwa [ofCode?_code, ofCode?_code, Option.some.injEq] at hcode
  · rintro rfl
    rfl

theorem stringCmp_eq_zero_iff_val (first second : Str) :
    stringCmp first second = 0 ↔ first.val = second.val := by
  rw [stringCmp_eq_zero_iff]
  exact ⟨fun h => by rw [h], Str.ext⟩

/-- Type and key, before the value is looked at. -/
def jsonHeadCmp : JsonNode → JsonNode → ℤ :=
  cmpLex
    (fun first second =>
      natCmp first.value.type.code second.value.type.code)
    (fun first second => stringCmp first.key second.key)

theorem jsonCmp_eq_cmpLex : jsonCmp =
    cmpLex jsonHeadCmp
      (fun first second => jsonValueCmp first.value second.value) := by
  funext first second
  unfold jsonCmp jsonHeadCmp cmpLex natCmp
  by_cases hgt : second.value.type.code < first.value.type.code
  · simp [hgt]
  · by_cases hlt : first.value.type.code < second.value.type.code
    · simp [hgt, hlt]
    · simp [hgt, hlt]

theorem jsonHeadCmp_eq_zero_iff (first second : JsonNode) :
    jsonHeadCmp first second = 0 ↔
      first.value.type = second.value.type ∧
        first.key.val = second.key.val := by
  rw [jsonHeadCmp, cmpLex_eq_zero_iff, natCmp_eq_zero_iff,
    JsonType.code_inj, stringCmp_eq_zero_iff_val]

theorem jsonHeadCmp_swaps : CmpSwaps jsonHeadCmp := by
  intro first second
  refine ((natCmp_swaps
    (fun node : JsonNode => node.value.type.code)).lex_iff _ _).mpr ?_
  intro _
  exact stringCmp_swaps first.key second.key

theorem jsonHeadCmp_trans : CmpTrans jsonHeadCmp := by
  refine (natCmp_trans (fun node : JsonNode => node.value.type.code)).lex
    (natCmp_swaps (fun node : JsonNode => node.value.type.code)) ?_
  intro first second third _ _
  exact stringCmp_trans first.key second.key third.key

/-! ## Values -/

theorem floatTest_beq_iff (first second : BitVec 32) :
    floatTest (· == ·) first second = true ↔
      floatIsNan first = false ∧ floatIsNan second = false ∧
        floatKey first = floatKey second := by
  simp [floatTest, and_assoc]

theorem jsonValueCmp_eq_zero_iff (first second : JsonValue) :
    jsonValueCmp first second = 0 ↔ first.Same second := by
  cases first <;> cases second <;>
    simp [jsonValueCmp, JsonValue.Same, stringCmp_eq_zero_iff_val,
      floatTest_beq_iff]

theorem jsonValueCmp_nonneg {first second : JsonValue}
    (hnot : first.type ≠ .string) : 0 ≤ jsonValueCmp first second := by
  cases first <;> cases second <;>
    simp [jsonValueCmp, JsonValue.type] at hnot ⊢ <;> split <;> simp

theorem jsonValueCmp_unordered {first second : JsonValue}
    (hunordered : first.type.Unordered) :
    jsonValueCmp first second = 0 ∨ jsonValueCmp first second = 1 := by
  have hone : ¬ first.Same second → jsonValueCmp first second = 1 := by
    intro hdiffer
    cases first <;> cases second <;>
      simp [jsonValueCmp, JsonValue.Same, JsonValue.type,
        JsonType.Unordered, floatTest_beq_iff] at hunordered hdiffer ⊢ <;>
      exact hdiffer
  by_cases hsame : first.Same second
  · exact .inl ((jsonValueCmp_eq_zero_iff first second).mpr hsame)
  · exact .inr (hone hsame)

theorem JsonValue.Same.symm {first second : JsonValue}
    (h : first.Same second) : second.Same first := by
  cases first <;> cases second <;> simp only [Same] at h ⊢
  · exact h.symm
  · exact ⟨h.2.1, h.1, h.2.2.symm⟩
  · exact h.symm
  · exact h.symm

theorem JsonValue.Same.trans {first second third : JsonValue}
    (h : first.Same second) (h' : second.Same third) :
    first.Same third := by
  cases first <;> cases second <;> simp only [Same] at h <;>
    cases third <;> simp only [Same] at h' ⊢
  · exact Eq.trans h h'
  · exact ⟨h.1, h'.2.1, h.2.2.trans h'.2.2⟩
  · exact Eq.trans h h'
  · exact Eq.trans h h'

theorem jsonValueCmp_trans : CmpTrans jsonValueCmp := by
  intro first second third hle hle'
  by_cases hstring : first.type = .string
  · cases first <;> simp only [JsonValue.type, reduceCtorEq] at hstring
    cases second <;> simp only [jsonValueCmp] at hle <;>
      try exact absurd hle (by decide)
    cases third <;> simp only [jsonValueCmp] at hle' ⊢ <;>
      try exact absurd hle' (by decide)
    exact stringCmp_trans _ _ _ hle hle'
  · have hsame := (jsonValueCmp_eq_zero_iff first second).mp
      (le_antisymm hle (jsonValueCmp_nonneg hstring))
    have hstring' : second.type ≠ .string := by
      cases first <;> cases second <;>
        simp [JsonValue.Same, JsonValue.type] at hsame hstring ⊢
    have hsame' := (jsonValueCmp_eq_zero_iff second third).mp
      (le_antisymm hle' (jsonValueCmp_nonneg hstring'))
    exact ((jsonValueCmp_eq_zero_iff first third).mpr
      (hsame.trans hsame')).le

theorem jsonValueCmp_swap_iff {first second : JsonValue}
    (htype : first.type = second.type) :
    (jsonValueCmp first second < 0 ↔ 0 < jsonValueCmp second first) ↔
      (first.type.Unordered → first.Same second) := by
  by_cases hunordered : first.type.Unordered
  · rw [imp_iff_right hunordered]
    have hcmp := @jsonValueCmp_unordered first second hunordered
    have hcmp' := @jsonValueCmp_unordered second first (htype ▸ hunordered)
    have hzero := jsonValueCmp_eq_zero_iff first second
    have hzero' := jsonValueCmp_eq_zero_iff second first
    have hsymm : second.Same first ↔ first.Same second := ⟨.symm, .symm⟩
    rw [← hzero]
    rw [hsymm, ← hzero] at hzero'
    omega
  · refine iff_of_true ?_ (fun habs => absurd habs hunordered)
    cases first <;> cases second <;>
      simp [JsonValue.type, JsonType.Unordered] at htype hunordered
    · exact stringCmp_swaps _ _
    · simp [jsonValueCmp]

/-! ## When it is an order -/

/-- The comment of `json_cmp` holds of the nodes unless they clash. -/
theorem jsonCmpLaw_iff (first second third : JsonNode) :
    JsonCmpLaw first second third ↔ ¬ first.Clash second := by
  have hswap : (jsonCmp first second < 0 ↔ 0 < jsonCmp second first) ↔
      ¬ first.Clash second := by
    rw [jsonCmp_eq_cmpLex, jsonHeadCmp_swaps.lex_iff,
      jsonHeadCmp_eq_zero_iff]
    constructor
    · intro h hclash
      have hvalue := h ⟨hclash.type, hclash.key⟩
      exact hclash.differ
        ((jsonValueCmp_swap_iff hclash.type).mp hvalue hclash.unordered)
    · rintro h ⟨htype, hkey⟩
      refine (jsonValueCmp_swap_iff htype).mpr ?_
      intro hunordered
      by_contra hdiffer
      exact h ⟨htype, hunordered, hkey, hdiffer⟩
  constructor
  · intro h
    exact hswap.mp h.swap
  · intro h
    refine ⟨?_, hswap.mpr h, ?_⟩
    · rw [jsonCmp_eq_cmpLex, cmpLex_eq_zero_iff, jsonHeadCmp_eq_zero_iff,
        jsonValueCmp_eq_zero_iff, and_assoc]
    · rw [jsonCmp_eq_cmpLex]
      refine jsonHeadCmp_trans.lex jsonHeadCmp_swaps ?_ first second third
      intro first second third _ _
      exact jsonValueCmp_trans first.value second.value third.value

/-- Without a NUL in its strings, and no NaN. -/
structure JsonNode.Plain (node : JsonNode) : Prop where
  key : 0 ∉ node.key.val
  string : ∀ str, node.value = .string str → 0 ∉ str.val
  float : ∀ raw, node.value = .float raw →
    floatIsNan (unionFloat raw) = false

/-- Of the numbers 1 and 2 under one key each is greater. -/
theorem jsonCmpLaw_fails : ¬ ∀ first second third : JsonNode,
    first.Plain → second.Plain → third.Plain →
      JsonCmpLaw first second third := by
  intro h
  let one : JsonNode := ⟨stringCtor [107], .int32 1⟩
  let two : JsonNode := ⟨stringCtor [107], .int32 2⟩
  have hplain : ∀ raw, JsonNode.Plain ⟨stringCtor [107], .int32 raw⟩ := by
    intro raw
    have hkey : (0 : Byte) ∉ (stringCtor [107]).val := by decide
    refine ⟨hkey, ?_, ?_⟩
    · intro str hstr
      cases hstr
    · intro raw' hraw
      cases hraw
  have hswap := (h one two one (hplain 1) (hplain 2) (hplain 1)).swap
  have hone : jsonCmp one two = 1 := by decide
  have htwo : jsonCmp two one = 1 := by decide
  rw [hone, htwo] at hswap
  exact absurd (hswap.mpr one_pos) (by decide)

end NosqlDbms
