import NosqlDbms.QueryCheck
import NosqlDbms.Network
import Mathlib.Data.List.TakeWhile
import Mathlib.Tactic

/-!
# What a query means

A condition holds of a document when its path leads to a value and the
operator, where it is defined, holds of the value.  `query_item_check` gives
this answer as long as no comparison is of strings without an end or of values
of different kinds, and no string has a NUL inside what it counts.
-/

namespace NosqlDbms

/-! ## The reference -/

def Json.chain : Json → List Json
  | .null => []
  | .node key value bro son => .node key value bro son :: bro.chain

def Json.hasKey (name : Str) : Json → Bool
  | .null => false
  | .node key _ _ _ => key.val == name.val

def Json.sons : Json → List Json
  | .null => []
  | .node _ _ _ son => son.chain

/-- The node at the end of the path, by the first son with the key each
time. -/
def Json.follow : List Str → Json → Option Json
  | [], json => some json
  | name :: rest, json =>
      (json.sons.find? (Json.hasKey name)).bind (Json.follow rest)

def Json.value? : Json → Option JsonValue
  | .null => none
  | .node _ value _ _ => some value

/-- The value a condition is about. -/
def Json.valueAt (path : List Str) (json : Json) : Option JsonValue :=
  (json.follow path).bind Json.value?

/-- The relation an operator stands for. -/
def Cmp.Orders (cmpOp : Cmp) (first second : ℤ) : Prop :=
  match cmpOp with
  | .gt => first > second
  | .ge => first ≥ second
  | .lt => first < second
  | .le => first ≤ second
  | .eq => first = second
  | .in => False

/-- The operator holds of a value, with strings read as `text`. -/
def Cmp.Meets (text : Str → List Byte) (cmpOp : Cmp)
    (value queryVal : JsonValue) : Prop :=
  match queryVal with
  | .string queryStr =>
      match value with
      | .string str =>
          match cmpOp with
          | .eq => text str = text queryStr
          | .in => text queryStr <:+: text str
          | _ => False
      | _ => False
  | .int32 queryRaw =>
      ∃ raw, value.raw? = some raw ∧
        cmpOp.Orders (unionInt32 raw).toInt (unionInt32 queryRaw).toInt
  | .float queryRaw =>
      ∃ raw, value.raw? = some raw ∧
        floatIsNan (unionFloat raw) = false ∧
        floatIsNan (unionFloat queryRaw) = false ∧
        cmpOp.Orders (floatKey (unionFloat raw))
          (floatKey (unionFloat queryRaw))
  | .bool queryRaw =>
      ∃ raw flag, value.raw? = some raw ∧ cmpOp = .eq ∧
        unionBool? raw = some flag ∧ unionBool? queryRaw = some flag
  | .object => False

/-- What the string counts up to its first NUL. -/
def Str.text (str : Str) : List Byte := str.val.takeWhile (· != 0)

/-- The condition holds, by the bytes the strings count. -/
def QueryItem.Holds (item : QueryItem) (json : Json) : Prop :=
  ∃ value, json.valueAt item.key = some value ∧
    item.cmpOp.Meets Str.val value item.queryVal

/-- The condition holds, by the bytes up to the first NUL. -/
def QueryItem.TextHolds (item : QueryItem) (json : Json) : Prop :=
  ∃ value, json.valueAt item.key = some value ∧
    item.cmpOp.Meets Str.text value item.queryVal

/-- A query without a name fits every type. -/
def TypeFits (typeName name : Option Str) : Prop :=
  ∀ wanted, typeName = some wanted → name = some wanted

/-- The answer of a query is its meaning, whatever lies behind the strings. -/
def QueryLaw (typeName : Option Str) (items : List QueryItem) (json : Json)
    (name : Option Str) : Prop :=
  ∀ past, ∃ answer,
    queryCheck past (queryOf typeName items) json name = some answer ∧
      (answer = true ↔
        TypeFits typeName name ∧ ∀ item ∈ items, item.Holds json)

/-! ## When it is -/

/-- The strings differ, or end both, before one of them runs out. -/
def Str.Stops (first second : Str) : Prop :=
  ¬ (first.val <+: second.val ∧ 0 ∉ first.val) ∧
    ¬ (second.val <+: first.val ∧ 0 ∉ second.val)

/-- A comparison that does not leave the two values. -/
def Cmp.Decided (cmpOp : Cmp) (value queryVal : JsonValue) : Prop :=
  match queryVal with
  | .string queryStr =>
      match value with
      | .string str =>
          match cmpOp with
          | .eq => str.Stops queryStr
          | .in => 0 ∈ str.val ∧ 0 ∈ queryStr.val
          | _ => False
      | _ => False
  | .int32 _ => value.type = .string → cmpOp = .in
  | .float _ => value.type = .string → cmpOp = .in
  | .bool queryRaw => cmpOp = .eq → ∃ raw, value.raw? = some raw ∧
      (unionBool? raw).isSome ∧ (unionBool? queryRaw).isSome
  | .object => True

def QueryItem.Decided (item : QueryItem) (json : Json) : Prop :=
  ∀ value, json.valueAt item.key = some value →
    item.cmpOp.Decided value item.queryVal

/-- Before each condition that leaves its values there is one that does not
and is false. -/
def ChainDecided (chain : List QueryItem) (json : Json) : Prop :=
  ∀ before item after, chain = before ++ item :: after →
    ¬ item.Decided json →
      ∃ earlier ∈ before, earlier.Decided json ∧ ¬ earlier.TextHolds json

/-- No answer hangs on other memory, and what holds up to the first NUL
holds. -/
structure QueryClear (typeName : Option Str) (chain : List QueryItem)
    (json : Json) (name : Option Str) : Prop where
  decided : ChainDecided chain json
  counted : TypeFits typeName name →
    (∀ item ∈ chain, item.TextHolds json) →
      ∀ item ∈ chain, item.Holds json

/-! ## Paths -/

theorem jsonSonByKey_eq (json : Json) (name : Str) :
    jsonSonByKey json name =
      (json.sons.find? (Json.hasKey name)).getD .null := by
  have hchain : ∀ json : Json, jsonSonByKey.chain name json =
      (json.chain.find? (Json.hasKey name)).getD .null := by
    intro json
    induction json with
    | null => rfl
    | node key value bro son ihBro _ =>
        rw [jsonSonByKey.chain, Json.chain, List.find?_cons, ihBro]
        by_cases hkey : key.val = name.val
        · have hcmp : stringCmp key name = 0 :=
            (stringCmp_eq_zero_iff key name).mpr (Str.ext hkey)
          simp [Json.hasKey, hkey, hcmp]
        · have hcmp : stringCmp key name ≠ 0 := by
            rw [Ne, stringCmp_eq_zero_iff]
            exact fun h => hkey (by rw [h])
          have hbeq : (key.val == name.val) = false :=
            beq_eq_false_iff_ne.mpr hkey
          simp [Json.hasKey, hbeq, hcmp]
  cases json with
  | null => rfl
  | node key value bro son => exact hchain son

theorem Json.follow_null (path : List Str) :
    (Json.null.follow path).bind Json.value? = none := by
  cases path <;> rfl

theorem drillDown_value? (path : List Str) (json : Json) :
    (drillDown path json).value? = json.valueAt path := by
  unfold Json.valueAt
  induction path generalizing json with
  | nil => rfl
  | cons name rest ih =>
      rw [drillDown, jsonSonByKey_eq, Json.follow]
      cases hfind : json.sons.find? (Json.hasKey name) with
      | none => rfl
      | some son =>
          cases son with
          | null => exact (Json.follow_null rest).symm
          | node key value bro son => exact ih _

/-! ## Strings -/

theorem Str.text_cons {char : Byte} {rest : List Byte} :
    (char :: rest).takeWhile (· != 0) =
      if char = 0 then [] else char :: rest.takeWhile (· != 0) := by
  by_cases hzero : char = 0
  · simp [hzero]
  · simp [hzero]

theorem strcmpMemory_decided {past past' : List Byte} :
    ∀ first second : List Byte,
      ¬ (first <+: second ∧ 0 ∉ first) →
      ¬ (second <+: first ∧ 0 ∉ second) →
      strcmpMemory (first ++ past) (second ++ past') =
        some (decide (first.takeWhile (· != 0) =
          second.takeWhile (· != 0)))
  | [], _, hfirst, _ => absurd ⟨List.nil_prefix, List.not_mem_nil⟩ hfirst
  | _ :: _, [], _, hsecond =>
      absurd ⟨List.nil_prefix, List.not_mem_nil⟩ hsecond
  | char :: rest, char' :: rest', hfirst, hsecond => by
      rw [List.cons_append, List.cons_append, strcmpMemory, Str.text_cons,
        Str.text_cons]
      by_cases hchar : char = char'
      · subst char'
        by_cases hzero : char = 0
        · simp [hzero]
        · have ih := @strcmpMemory_decided past past' rest rest'
            (fun h => hfirst ⟨by simpa using h.1,
              by simpa [Ne.symm hzero] using h.2⟩)
            (fun h => hsecond ⟨by simpa using h.1,
              by simpa [Ne.symm hzero] using h.2⟩)
          simp [hzero, ih]
      · rw [if_pos hchar]
        by_cases hzero : char = 0
        · have hzero' : char' ≠ 0 := fun h => hchar (hzero.trans h.symm)
          simp [hzero, hzero']
        · by_cases hzero' : char' = 0
          · simp [hzero, hzero']
          · simp [hzero, hzero', hchar]

theorem strcmpMemory_undecided : ∀ {first second : List Byte},
    (first <+: second ∧ 0 ∉ first ∨ second <+: first ∧ 0 ∉ second) →
      strcmpMemory first second = none
  | [], [], _ => rfl
  | [], _ :: _, _ => rfl
  | _ :: _, [], _ => rfl
  | char :: rest, char' :: rest', h => by
      have hhead : char = char' ∧ char ≠ 0 ∧
          (rest <+: rest' ∧ 0 ∉ rest ∨ rest' <+: rest ∧ 0 ∉ rest') := by
        rcases h with ⟨hleading, hnul⟩ | ⟨hleading, hnul⟩
        · rw [List.cons_prefix_cons] at hleading
          rw [List.mem_cons, not_or] at hnul
          exact ⟨hleading.1, Ne.symm hnul.1, .inl ⟨hleading.2, hnul.2⟩⟩
        · rw [List.cons_prefix_cons] at hleading
          rw [List.mem_cons, not_or] at hnul
          exact ⟨hleading.1.symm, hleading.1 ▸ Ne.symm hnul.1,
            .inr ⟨hleading.2, hnul.2⟩⟩
      obtain ⟨rfl, hzero, hrest⟩ := hhead
      rw [strcmpMemory, if_neg (not_not.mpr rfl), if_neg hzero]
      exact strcmpMemory_undecided hrest

theorem cString_of_mem {past : Str → List Byte} {str : Str}
    (h : 0 ∈ str.val) : cString past str = some str.text := by
  have hmem : 0 ∈ str.val ++ past str := List.mem_append_left _ h
  have hlength : (str.val.takeWhile (· != 0)).length ≠ str.val.length := by
    intro hfull
    have heq : str.val.takeWhile (· != 0) = str.val :=
      (List.takeWhile_prefix _).eq_of_length hfull
    rw [← heq] at h
    exact absurd (List.mem_takeWhile_imp h) (by decide)
  rw [cString, if_pos hmem, Str.text, List.takeWhile_append,
    if_neg hlength]

theorem cString_of_not_mem {str : Str} (h : 0 ∉ str.val) :
    cString (fun _ => []) str = none := by
  rw [cString, if_neg (by simpa using h)]

theorem Str.val_eq (str : Str) :
    ∃ count, str.val = str.text ++ List.replicate count 0 := by
  refine ⟨(str.val.dropWhile (· != 0)).length, ?_⟩
  have hzeros : str.val.dropWhile (· != 0) =
      List.replicate (str.val.dropWhile (· != 0)).length 0 := by
    apply List.eq_replicate_of_mem
    exact (Network.strncpy_eq_self_iff str.val).mp str.built
  rw [← hzeros]
  exact List.takeWhile_append_dropWhile.symm

theorem prefix_of_last_ne_zero {chars text : List Byte} {count : ℕ}
    (hleading : chars <+: text ++ List.replicate count 0)
    (hlast : ∀ char, chars.getLast? = some char → char ≠ 0) :
    chars <+: text := by
  rcases List.prefix_or_prefix_of_prefix hleading
    (List.prefix_append text _) with hinside | ⟨rest, rfl⟩
  · exact hinside
  · rw [List.prefix_append_right_inj] at hleading
    cases hrest : rest.getLast? with
    | none =>
        rw [List.getLast?_eq_none_iff.mp hrest, List.append_nil]
    | some char =>
        have hzero : char = 0 :=
          List.eq_of_mem_replicate
            (hleading.subset (List.mem_of_getLast? hrest))
        exact absurd hzero (hlast char (by simp [hrest]))

theorem Str.text_ne_zero {str : Str} {char : Byte} (h : char ∈ str.text) :
    char ≠ 0 := by
  simpa using List.mem_takeWhile_imp h

theorem Str.text_infix {first second : Str}
    (h : first.val <:+: second.val) : first.text <:+: second.text := by
  obtain ⟨count, hfirst⟩ := first.val_eq
  obtain ⟨count', hsecond⟩ := second.val_eq
  obtain ⟨before, after, happ⟩ := h
  by_cases hnil : first.text = []
  · rw [hnil]
    exact List.nil_infix
  · have hleading : before ++ first.text <+:
        second.text ++ List.replicate count' 0 := by
      rw [← hsecond, ← happ, hfirst]
      exact ⟨List.replicate count 0 ++ after, by simp⟩
    have hinside := prefix_of_last_ne_zero hleading (by
      intro char hchar
      rw [List.getLast?_append_of_ne_nil _ hnil] at hchar
      exact Str.text_ne_zero (List.mem_of_getLast? hchar))
    exact (List.suffix_append before first.text).isInfix.trans
      hinside.isInfix

/-! ## One condition -/

theorem Cmp.Meets.text {cmpOp : Cmp} {value queryVal : JsonValue}
    (h : cmpOp.Meets Str.val value queryVal) :
    cmpOp.Meets Str.text value queryVal := by
  cases queryVal with
  | string queryStr =>
      cases value with
      | string str =>
          cases cmpOp with
          | eq => exact congrArg (List.takeWhile (· != 0)) h
          | «in» => exact Str.text_infix h
          | gt => exact h
          | ge => exact h
          | lt => exact h
          | le => exact h
      | int32 raw => exact h
      | float raw => exact h
      | bool raw => exact h
      | object => exact h
  | int32 raw => exact h
  | float raw => exact h
  | bool raw => exact h
  | object => exact h

theorem QueryItem.Holds.text {item : QueryItem} {json : Json}
    (h : item.Holds json) : item.TextHolds json := by
  obtain ⟨value, hvalue, hmeets⟩ := h
  exact ⟨value, hvalue, hmeets.text⟩

theorem boolItemCheck_decided {cmpOp : Cmp} {raw queryRaw : BitVec 64}
    (hdefined : cmpOp = .eq →
      (unionBool? raw).isSome ∧ (unionBool? queryRaw).isSome) :
    ∃ answer, boolItemCheck cmpOp raw queryRaw = some answer ∧
      (answer = true ↔ ∃ flag, cmpOp = .eq ∧
        unionBool? raw = some flag ∧ unionBool? queryRaw = some flag) := by
  by_cases heq : cmpOp = .eq
  · subst cmpOp
    obtain ⟨hraw, hquery⟩ := hdefined rfl
    obtain ⟨flag, hflag⟩ := Option.isSome_iff_exists.mp hraw
    obtain ⟨flag', hflag'⟩ := Option.isSome_iff_exists.mp hquery
    refine ⟨flag == flag', by simp [boolItemCheck, hflag, hflag'], ?_⟩
    rw [hflag, hflag', beq_iff_eq]
    simp only [Option.some.injEq, true_and, exists_eq_left']
    exact eq_comm
  · refine ⟨false, ?_, by simp [heq]⟩
    cases cmpOp <;> first | rfl | exact absurd rfl heq

theorem boolItemCheck_undecided {raw queryRaw : BitVec 64}
    (h : ¬ ((unionBool? raw).isSome ∧ (unionBool? queryRaw).isSome)) :
    boolItemCheck .eq raw queryRaw = none := by
  cases hraw : unionBool? raw with
  | none => simp [boolItemCheck, hraw]
  | some flag =>
      cases hquery : unionBool? queryRaw with
      | none => simp [boolItemCheck, hraw, hquery]
      | some flag' => exact absurd (by simp [hraw, hquery]) h

theorem floatItemCheck_decided (cmpOp : Cmp) (raw queryRaw : BitVec 64) :
    ∃ answer, floatItemCheck cmpOp raw queryRaw = some answer ∧
      (answer = true ↔
        floatIsNan (unionFloat raw) = false ∧
          floatIsNan (unionFloat queryRaw) = false ∧
          cmpOp.Orders (floatKey (unionFloat raw))
            (floatKey (unionFloat queryRaw))) := by
  cases cmpOp <;>
    simp [floatItemCheck, floatTest, Cmp.Orders, boolItemCheck, and_assoc]

theorem int32ItemCheck_decided (cmpOp : Cmp) (raw queryRaw : BitVec 64) :
    ∃ answer, int32ItemCheck cmpOp raw queryRaw = some answer ∧
      (answer = true ↔
        cmpOp.Orders (unionInt32 raw).toInt (unionInt32 queryRaw).toInt) := by
  cases cmpOp <;>
    simp [int32ItemCheck, Cmp.Orders, floatItemCheck, boolItemCheck,
      BitVec.toInt_inj]

/-- `query_item_check` at the end of the path. -/
def valueItemCheck (past : Str → List Byte) (cmpOp : Cmp)
    (value queryVal : JsonValue) : Option Bool :=
  match queryVal with
  | .string queryStr =>
      match value with
      | .string str => stringItemCheck past cmpOp str queryStr
      | _ => none
  | .int32 queryRaw =>
      unionItemCheck int32ItemCheck .int32 cmpOp value queryRaw
  | .float queryRaw =>
      unionItemCheck floatItemCheck .float cmpOp value queryRaw
  | .bool queryRaw =>
      unionItemCheck boolItemCheck .bool cmpOp value queryRaw
  | .object => some false

theorem queryItemCheck_eq (past : Str → List Byte) (item : QueryItem)
    (json : Json) :
    queryItemCheck past item json =
      match json.valueAt item.key with
      | none => some false
      | some value => valueItemCheck past item.cmpOp value item.queryVal := by
  rw [← drillDown_value?, queryItemCheck]
  cases drillDown item.key json with
  | null => rfl
  | node key value bro son => rfl

theorem JsonValue.raw?_eq_none_iff (value : JsonValue) :
    value.raw? = none ↔ value.type = .string := by
  cases value <;> simp [raw?, type]

theorem unionItemCheck_decided
    {check : Cmp → BitVec 64 → BitVec 64 → Option Bool}
    {type : JsonType} {cmpOp : Cmp} {value : JsonValue}
    {queryRaw : BitVec 64} {meets : BitVec 64 → Prop}
    (hcheck : ∀ raw, value.raw? = some raw →
      ∃ answer, check cmpOp raw queryRaw = some answer ∧
        (answer = true ↔ meets raw))
    (hdecided : value.type = .string → cmpOp.looks type = false) :
    ∃ answer, unionItemCheck check type cmpOp value queryRaw = some answer ∧
      (answer = true ↔ ∃ raw, value.raw? = some raw ∧ meets raw) := by
  unfold unionItemCheck
  cases hraw : value.raw? with
  | some raw =>
      obtain ⟨answer, hanswer, hiff⟩ := hcheck raw hraw
      exact ⟨answer, hanswer, by simpa using hiff⟩
  | none =>
      have hlooks := hdecided ((value.raw?_eq_none_iff).mp hraw)
      exact ⟨false, by rw [if_neg (by simp [hlooks])], by simp⟩

theorem unionItemCheck_undecided
    {check : Cmp → BitVec 64 → BitVec 64 → Option Bool} {type : JsonType} {cmpOp : Cmp}
    {value : JsonValue} {queryRaw : BitVec 64}
    (hstring : value.type = .string)
    (hlooks : cmpOp.looks type = true) :
    unionItemCheck check type cmpOp value queryRaw = none := by
  rw [unionItemCheck, (value.raw?_eq_none_iff).mpr hstring]
  exact if_pos hlooks

theorem valueItemCheck_decided (past : Str → List Byte) {cmpOp : Cmp}
    {value queryVal : JsonValue} (hdecided : cmpOp.Decided value queryVal) :
    ∃ answer, valueItemCheck past cmpOp value queryVal = some answer ∧
      (answer = true ↔ cmpOp.Meets Str.text value queryVal) := by
  cases queryVal with
  | string queryStr =>
      cases value with
      | string str =>
          cases cmpOp with
          | eq =>
              refine ⟨_, strcmpMemory_decided _ _ hdecided.1 hdecided.2, ?_⟩
              exact decide_eq_true_iff
          | «in» =>
              refine ⟨decide (queryStr.text <:+: str.text), ?_,
                decide_eq_true_iff⟩
              simp only [valueItemCheck, stringItemCheck, strstrFound,
                cString_of_mem hdecided.1, cString_of_mem hdecided.2]
              rfl
          | gt => exact hdecided.elim
          | ge => exact hdecided.elim
          | lt => exact hdecided.elim
          | le => exact hdecided.elim
      | int32 raw => exact hdecided.elim
      | float raw => exact hdecided.elim
      | bool raw => exact hdecided.elim
      | object => exact hdecided.elim
  | int32 queryRaw =>
      exact unionItemCheck_decided
        (fun raw _ => int32ItemCheck_decided cmpOp raw queryRaw)
        (fun hstring => by simp [Cmp.looks, hdecided hstring])
  | float queryRaw =>
      exact unionItemCheck_decided
        (fun raw _ => floatItemCheck_decided cmpOp raw queryRaw)
        (fun hstring => by simp [Cmp.looks, hdecided hstring])
  | bool queryRaw =>
      have hstring : value.type = .string → cmpOp.looks .bool = false := by
        intro hstring
        refine beq_eq_false_iff_ne.mpr (fun heq => ?_)
        obtain ⟨raw, hraw, -⟩ := hdecided heq
        rw [(value.raw?_eq_none_iff).mpr hstring] at hraw
        cases hraw
      have hdefined : ∀ raw, value.raw? = some raw → cmpOp = .eq →
          (unionBool? raw).isSome ∧ (unionBool? queryRaw).isSome := by
        intro raw hraw heq
        obtain ⟨raw', hraw', hboth⟩ := hdecided heq
        rw [hraw, Option.some.injEq] at hraw'
        exact hraw' ▸ hboth
      obtain ⟨answer, hanswer, hiff⟩ := unionItemCheck_decided
        (fun raw hraw => boolItemCheck_decided (hdefined raw hraw)) hstring
      refine ⟨answer, hanswer, hiff.trans ?_⟩
      simp [Cmp.Meets]
  | object => exact ⟨false, rfl, by simp [Cmp.Meets]⟩

theorem valueItemCheck_undecided {cmpOp : Cmp} {value queryVal : JsonValue}
    (hundecided : ¬ cmpOp.Decided value queryVal) :
    valueItemCheck (fun _ => []) cmpOp value queryVal = none := by
  cases queryVal with
  | string queryStr =>
      cases value with
      | string str =>
          cases cmpOp with
          | eq =>
              have hruns : str.val <+: queryStr.val ∧ 0 ∉ str.val ∨
                  queryStr.val <+: str.val ∧ 0 ∉ queryStr.val := by
                by_contra hnot
                rw [not_or] at hnot
                exact hundecided hnot
              have hnone := strcmpMemory_undecided hruns
              simpa [valueItemCheck, stringItemCheck, strcmpEq] using hnone
          | «in» =>
              by_cases hstr : 0 ∈ str.val
              · have hquery : 0 ∉ queryStr.val :=
                  fun h => hundecided ⟨hstr, h⟩
                simp only [valueItemCheck, stringItemCheck, strstrFound,
                  cString_of_mem hstr, cString_of_not_mem hquery]
                rfl
              · simp only [valueItemCheck, stringItemCheck, strstrFound,
                  cString_of_not_mem hstr]
                rfl
          | gt => rfl
          | ge => rfl
          | lt => rfl
          | le => rfl
      | int32 raw => rfl
      | float raw => rfl
      | bool raw => rfl
      | object => rfl
  | int32 queryRaw =>
      have hboth := Classical.not_imp.mp hundecided
      exact unionItemCheck_undecided hboth.1 (by simp [Cmp.looks, hboth.2])
  | float queryRaw =>
      have hboth := Classical.not_imp.mp hundecided
      exact unionItemCheck_undecided hboth.1 (by simp [Cmp.looks, hboth.2])
  | bool queryRaw =>
      obtain ⟨rfl, hnot⟩ := Classical.not_imp.mp hundecided
      change unionItemCheck boolItemCheck .bool .eq value queryRaw = none
      unfold unionItemCheck
      cases hraw : value.raw? with
      | none => rfl
      | some raw => exact boolItemCheck_undecided (fun h => hnot ⟨raw, hraw, h⟩)
  | object => exact (hundecided trivial).elim

theorem queryItemCheck_decided (past : Str → List Byte) {item : QueryItem}
    {json : Json} (hdecided : item.Decided json) :
    ∃ answer, queryItemCheck past item json = some answer ∧
      (answer = true ↔ item.TextHolds json) := by
  rw [queryItemCheck_eq]
  unfold QueryItem.TextHolds
  cases hvalue : json.valueAt item.key with
  | none => exact ⟨false, rfl, by simp⟩
  | some value =>
      obtain ⟨answer, hanswer, hiff⟩ :=
        valueItemCheck_decided past (hdecided value hvalue)
      exact ⟨answer, hanswer, by simpa using hiff⟩

theorem queryItemCheck_undecided {item : QueryItem} {json : Json}
    (hundecided : ¬ item.Decided json) :
    queryItemCheck (fun _ => []) item json = none := by
  rw [queryItemCheck_eq]
  unfold QueryItem.Decided at hundecided
  push Not at hundecided
  obtain ⟨value, hvalue, hnot⟩ := hundecided
  rw [hvalue]
  exact valueItemCheck_undecided hnot

/-! ## The chain -/

theorem ChainDecided.head {item : QueryItem} {rest : List QueryItem}
    {json : Json} (h : ChainDecided (item :: rest) json) :
    item.Decided json := by
  by_contra hnot
  obtain ⟨earlier, hmem, -⟩ := h [] item rest rfl hnot
  cases hmem

theorem ChainDecided.tail {item : QueryItem} {rest : List QueryItem}
    {json : Json} (h : ChainDecided (item :: rest) json)
    (hholds : item.TextHolds json) : ChainDecided rest json := by
  intro before item' after happ hnot
  obtain ⟨earlier, hmem, hearlier⟩ :=
    h (item :: before) item' after (by rw [happ]; rfl) hnot
  rcases List.mem_cons.mp hmem with rfl | hmem'
  · exact absurd hholds hearlier.2
  · exact ⟨earlier, hmem', hearlier⟩

/-- The loop answers when the chain is decided, and says whether all of it
holds. -/
theorem queryItemsCheck_decided (past : Str → List Byte)
    {chain : List QueryItem} {json : Json}
    (hdecided : ChainDecided chain json) :
    ∃ answer, queryItemsCheck past chain json = some answer ∧
      (answer = true ↔ ∀ item ∈ chain, item.TextHolds json) := by
  induction chain with
  | nil => exact ⟨true, rfl, by simp⟩
  | cons item rest ih =>
      obtain ⟨answer, hanswer, hiff⟩ :=
        queryItemCheck_decided past hdecided.head
      cases answer with
      | false =>
          refine ⟨false, by rw [queryItemsCheck, hanswer], ?_⟩
          have hfails : ¬ item.TextHolds json := fun h => by
            cases hiff.mpr h
          simp [hfails]
      | true =>
          have hholds := hiff.mp rfl
          obtain ⟨answer', hanswer', hiff'⟩ := ih (hdecided.tail hholds)
          refine ⟨answer', by rw [queryItemsCheck, hanswer, hanswer'], ?_⟩
          rw [hiff', List.forall_mem_cons, and_iff_right hholds]

theorem chainDecided_of_queryItemsCheck {chain : List QueryItem}
    {json : Json} {answer : Bool}
    (h : queryItemsCheck (fun _ => []) chain json = some answer) :
    ChainDecided chain json := by
  induction chain with
  | nil =>
      intro before item after happ
      cases before <;> cases happ
  | cons item rest ih =>
      have hhead : item.Decided json := by
        by_contra hnot
        rw [queryItemsCheck, queryItemCheck_undecided hnot] at h
        cases h
      obtain ⟨answer', hanswer', hiff⟩ :=
        queryItemCheck_decided (fun _ => []) hhead
      intro before item' after happ hnot
      cases before with
      | nil =>
          obtain ⟨rfl, -⟩ := List.cons.inj happ
          exact absurd hhead hnot
      | cons first before =>
          obtain ⟨rfl, happ'⟩ := List.cons.inj happ
          by_cases hholds : item.TextHolds json
          · rw [queryItemsCheck, hanswer', hiff.mpr hholds] at h
            obtain ⟨earlier, hmem, hearlier⟩ :=
              ih h before item' after happ' hnot
            exact ⟨earlier, List.mem_cons_of_mem _ hmem, hearlier⟩
          · exact ⟨item, List.mem_cons_self, hhead, hholds⟩

/-! ## The query -/

theorem queryCheckType_fits (query : Query) (name : Option Str) :
    queryCheckType query name = true ↔ TypeFits query.typeName name := by
  cases htype : query.typeName with
  | none => simp [queryCheckType, htype, TypeFits]
  | some wanted =>
      rw [queryCheckType_iff htype]
      simp [TypeFits]

theorem queryCheck_decided (past : Str → List Byte)
    {typeName name : Option Str} {items : List QueryItem} {json : Json}
    (hdecided : ChainDecided (queryOf typeName items).fQueryItm json) :
    ∃ answer,
      queryCheck past (queryOf typeName items) json name = some answer ∧
        (answer = true ↔ TypeFits typeName name ∧
          ∀ item ∈ items, item.TextHolds json) := by
  obtain ⟨answer, hanswer, hiff⟩ := queryItemsCheck_decided past hdecided
  have hmem : (∀ item ∈ (queryOf typeName items).fQueryItm,
      item.TextHolds json) ↔ ∀ item ∈ items, item.TextHolds json :=
    forall_congr' (fun item => by
      rw [(queryOf_perm typeName items).mem_iff])
  rw [hmem] at hiff
  cases answer with
  | false =>
      refine ⟨false, by rw [queryCheck, hanswer], ?_⟩
      have hfails : ¬ ∀ item ∈ items, item.TextHolds json := fun h => by
        cases hiff.mpr h
      simp [hfails]
  | true =>
      refine ⟨_, by rw [queryCheck, hanswer], ?_⟩
      rw [queryCheckType_fits, queryOf_typeName,
        and_iff_left (hiff.mp rfl)]

/-- A query answers with its meaning exactly when it is clear. -/
theorem queryLaw_iff (typeName : Option Str) (items : List QueryItem)
    (json : Json) (name : Option Str) :
    QueryLaw typeName items json name ↔
      QueryClear typeName (queryOf typeName items).fQueryItm json name := by
  have hmem : ∀ holds : QueryItem → Prop,
      (∀ item ∈ (queryOf typeName items).fQueryItm, holds item) ↔
        ∀ item ∈ items, holds item := fun holds =>
    forall_congr' (fun item => by
      rw [(queryOf_perm typeName items).mem_iff])
  constructor
  · intro h
    have hdecided : ChainDecided (queryOf typeName items).fQueryItm json := by
      obtain ⟨answer, hanswer, -⟩ := h (fun _ => [])
      unfold queryCheck at hanswer
      cases hitems : queryItemsCheck (fun _ => [])
          (queryOf typeName items).fQueryItm json with
      | none =>
          rw [hitems] at hanswer
          cases hanswer
      | some answer' => exact chainDecided_of_queryItemsCheck hitems
    refine ⟨hdecided, ?_⟩
    intro hfits hholds
    obtain ⟨answer, hanswer, hiff⟩ := h (fun _ => [])
    obtain ⟨answer', hanswer', hiff'⟩ :=
      @queryCheck_decided (fun _ => []) typeName name items json hdecided
    rw [hanswer, Option.some.injEq] at hanswer'
    subst answer'
    have htrue := hiff'.mpr ⟨hfits, (hmem _).mp hholds⟩
    exact (hmem _).mpr (hiff.mp htrue).2
  · intro h past
    obtain ⟨answer, hanswer, hiff⟩ :=
      @queryCheck_decided past typeName name items json h.decided
    refine ⟨answer, hanswer, hiff.trans ?_⟩
    constructor
    · rintro ⟨hfits, hholds⟩
      exact ⟨hfits, (hmem _).mp (h.counted hfits ((hmem _).mpr hholds))⟩
    · rintro ⟨hfits, hholds⟩
      exact ⟨hfits, fun item hitem => (hholds item hitem).text⟩

/-- Behind the one byte of a condition lies a `b`, and `a` equals `ab`. -/
theorem queryLaw_fails : ¬ ∀ (typeName : Option Str)
    (items : List QueryItem) (json : Json) (name : Option Str),
    QueryLaw typeName items json name := by
  intro h
  let path : List Str := [stringCtor [107]]
  let item : QueryItem := ⟨path, .string (stringCtor [97]), .eq⟩
  let json : Json := .node (stringCtor []) .object .null
    (.node (stringCtor [107]) (.string (stringCtor [97, 98])) .null .null)
  let past : Str → List Byte := fun str =>
    if str.val = [97] then [98, 0] else [0]
  obtain ⟨answer, hanswer, hiff⟩ := h none [item] json none past
  have htrue : queryCheck past (queryOf none [item]) json none =
      some true := by decide
  rw [htrue, Option.some.injEq] at hanswer
  have hholds := (hiff.mp hanswer.symm).2 item (List.mem_singleton_self _)
  obtain ⟨value, hvalue, hmeets⟩ := hholds
  have hstr : json.valueAt item.key =
      some (.string (stringCtor [97, 98])) := by decide
  rw [hstr, Option.some.injEq] at hvalue
  subst value
  have hbytes : (stringCtor [97, 98]).val = (stringCtor [97]).val := hmeets
  exact absurd hbytes (by decide)

end NosqlDbms
