import NosqlDbms.QueryGrammar
import Mathlib.Tactic

/-!
# Document bodies in the client's parser

What the rules derive from `entity_body`, and what the parser does with it in
an INSERT and in an UPDATE.  Behind a plain field the parser shifts the next
WORD for another field of the same list, and cannot go on where an LB follows.
-/

namespace NosqlDbms

namespace Gql

open Lalr Token Nonterminal

/-! ## What is derivable -/

inductive Literal where
  | string
  | int
  | float
  | bool

def Literal.token : Literal → Token
  | .string => .string
  | .int => .int
  | .float => .float
  | .bool => .bool

def Several (part : List Token → Prop) (tokens : List Token) : Prop :=
  ∃ first rest, part first ∧ (∀ tokens ∈ rest, part tokens) ∧
    tokens = first ++ List.flatten rest

def IsField (tokens : List Token) : Prop :=
  ∃ literal : Literal, tokens = [word, colon, literal.token]

/-- A plain field, or a nested entity with its fields. -/
inductive IsElement : List Token → Prop where
  | field (literal : Literal) : IsElement [word, colon, literal.token]
  | nested {fields : List Token} (hfields : Several IsField fields) :
      IsElement (word :: colon :: lb :: (fields ++ [rb]))

def properties : List (List Token) :=
  [[word, .in, string], [word, eq, string],
    [word, cmp, int], [word, eq, int],
    [word, cmp, float], [word, eq, float],
    [word, cmp, bool], [word, eq, bool]]

/-- What the nonterminals of documents and conditions derive. -/
def Spelled : Nonterminal → List Token → Prop
  | field, tokens => IsField tokens
  | fieldList, tokens => Several IsField tokens
  | entity, tokens => Several IsElement tokens
  | entityList, tokens => Several IsElement tokens
  | entityBody, tokens =>
      ∃ elements, Several IsElement elements ∧
        tokens = word :: lp :: lb :: (elements ++ [rb, rp])
  | property, tokens => tokens ∈ properties
  | propertyList, tokens => Several (fun tokens => tokens ∈ properties) tokens
  | condition, tokens =>
      ∃ list, Several (fun tokens => tokens ∈ properties) list ∧
        tokens = lb :: (list ++ [rb])
  | conditionBody, tokens =>
      ∃ list, Several (fun tokens => tokens ∈ properties) list ∧
        tokens = word :: lp :: lb :: (list ++ [rb, rp])
  | _, _ => True

theorem Several.one {part : List Token → Prop} {tokens : List Token}
    (h : part tokens) : Several part tokens :=
  ⟨tokens, [], h, by simp, by simp⟩

theorem Several.append {part : List Token → Prop} {left right : List Token}
    (hleft : Several part left) (hright : Several part right) :
    Several part (left ++ right) := by
  obtain ⟨first, rest, hfirst, hrest, rfl⟩ := hleft
  obtain ⟨middle, more, hmiddle, hmore, rfl⟩ := hright
  refine ⟨first, rest ++ middle :: more, hfirst, ?_, by simp⟩
  simp only [List.forall_mem_append, List.forall_mem_cons]
  exact ⟨hrest, hmiddle, hmore⟩

theorem Several.mono {part part' : List Token → Prop} {tokens : List Token}
    (h : Several part tokens) (himp : ∀ tokens, part tokens → part' tokens) :
    Several part' tokens := by
  obtain ⟨first, rest, hfirst, hrest, rfl⟩ := h
  exact ⟨first, rest, himp first hfirst,
    fun tokens hmem => himp tokens (hrest tokens hmem), rfl⟩

theorem IsField.isElement {tokens : List Token} (h : IsField tokens) :
    IsElement tokens := by
  obtain ⟨literal, rfl⟩ := h
  exact IsElement.field literal

section Rules

variable {tokens : List Token}

theorem spelled_one {name : Nonterminal}
    (hspells : Spells Spelled [n name] tokens) : Spelled name tokens := by
  obtain ⟨head, tail, rfl, hhead, rfl⟩ := hspells
  rw [List.append_nil]
  exact hhead

theorem spelled_two {left right : Nonterminal}
    (hspells : Spells Spelled [n left, n right] tokens) :
    ∃ head tail, tokens = head ++ tail ∧ Spelled left head ∧
      Spelled right tail := by
  obtain ⟨head, tail, rfl, hhead, htail⟩ := hspells
  exact ⟨head, tail, rfl, hhead, spelled_one htail⟩

theorem spelled_three {first second third : Token}
    (hspells : Spells Spelled [t first, t second, t third] tokens) :
    tokens = [first, second, third] := by
  obtain ⟨_, rfl, _, rfl, _, rfl, rfl⟩ := hspells
  rfl

end Rules

theorem spelled_of_rule :
    ∀ rule ∈ queryRules, ∀ tokens, Spells Spelled rule.output tokens →
      Spelled rule.input tokens := by
  intro rule hrule tokens hspells
  rw [queryRules] at hrule
  fin_cases hrule
  -- the start rule, the lists of queries and the queries
  iterate 13 exact trivial
  -- entity_body
  · obtain ⟨_, rfl, _, rfl, _, rfl, elements, _, rfl, helements, hend⟩ :=
      hspells
    obtain ⟨_, rfl, _, rfl, rfl⟩ := hend
    exact ⟨elements, helements, rfl⟩
  -- entity_list
  · exact spelled_one hspells
  · obtain ⟨left, right, rfl, hleft, hright⟩ := spelled_two hspells
    exact Several.append hleft hright
  -- entity
  · obtain ⟨_, rfl, _, rfl, _, rfl, fields, _, rfl, hfields, hend⟩ := hspells
    obtain ⟨_, rfl, rfl⟩ := hend
    exact Several.one (IsElement.nested hfields)
  · exact (spelled_one hspells).mono (fun _ h => h.isElement)
  -- condition_body
  · obtain ⟨_, rfl, _, rfl, _, _, rfl, ⟨list, hlist, rfl⟩, hend⟩ := hspells
    obtain ⟨_, rfl, rfl⟩ := hend
    exact ⟨list, hlist, by simp⟩
  -- condition
  · obtain ⟨_, rfl, list, _, rfl, hlist, hend⟩ := hspells
    obtain ⟨_, rfl, rfl⟩ := hend
    exact ⟨list, hlist, rfl⟩
  -- property_list
  · exact Several.one (spelled_one hspells)
  · obtain ⟨left, right, rfl, hleft, hright⟩ := spelled_two hspells
    exact Several.append hleft (Several.one hright)
  -- field_list
  · exact Several.one (spelled_one hspells)
  · obtain ⟨left, right, rfl, hleft, hright⟩ := spelled_two hspells
    exact Several.append hleft (Several.one hright)
  -- property
  iterate 8
    rw [spelled_three hspells]
    simp [Spelled, properties]
  -- field
  · exact ⟨.string, spelled_three hspells⟩
  · exact ⟨.int, spelled_three hspells⟩
  · exact ⟨.float, spelled_three hspells⟩
  · exact ⟨.bool, spelled_three hspells⟩

theorem spelled_derivable {name : Nonterminal} {tokens : List Token}
    (hderivable : Derivable queryRules name tokens) : Spelled name tokens :=
  Lalr.Derivable.spelled spelled_of_rule hderivable

/-! The rules for lists take one more part at the end. -/

theorem Several.derivable {part : List Token → Prop} {name : Nonterminal}
    (hone : ∀ tokens, part tokens → Derivable queryRules name tokens)
    (hmore : ∀ left right, Derivable queryRules name left → part right →
      Derivable queryRules name (left ++ right))
    {tokens : List Token} (hseveral : Several part tokens) :
    Derivable queryRules name tokens := by
  obtain ⟨first, rest, hfirst, hrest, rfl⟩ := hseveral
  induction rest using List.reverseRecOn with
  | nil =>
      rw [List.flatten_nil, List.append_nil]
      exact hone first hfirst
  | append_singleton rest last ih =>
      rw [List.forall_mem_append, List.forall_mem_singleton] at hrest
      have hderivable := hmore _ last (ih hrest.1) hrest.2
      simpa [List.flatten_append] using hderivable

theorem IsField.derivable {tokens : List Token} (hfield : IsField tokens) :
    Derivable queryRules field tokens := by
  obtain ⟨literal, rfl⟩ := hfield
  have hrule : ⟨field, [t word, t colon, t literal.token]⟩ ∈ queryRules := by
    cases literal <;> simp [queryRules, Literal.token]
  exact derivable_of_rule hrule ⟨_, rfl, _, rfl, _, rfl, rfl⟩

theorem derivable_fieldList {fields : List Token}
    (hfields : Several IsField fields) :
    Derivable queryRules fieldList fields := by
  have hone : ⟨fieldList, [n field]⟩ ∈ queryRules := by simp [queryRules]
  have hmore : ⟨fieldList, [n fieldList, n field]⟩ ∈ queryRules := by
    simp [queryRules]
  apply hfields.derivable
  · intro tokens hfield
    exact derivable_of_rule hone
      ⟨tokens, [], (List.append_nil tokens).symm, hfield.derivable, rfl⟩
  · intro left right hleft hfield
    exact derivable_of_rule hmore ⟨left, right, rfl, hleft, right, [],
      (List.append_nil right).symm, hfield.derivable, rfl⟩

theorem IsElement.derivable {element : List Token}
    (helement : IsElement element) : Derivable queryRules entity element := by
  have hplain : ⟨entity, [n fieldList]⟩ ∈ queryRules := by simp [queryRules]
  have hnested : ⟨entity, [t word, t colon, t lb, n fieldList, t rb]⟩ ∈
      queryRules := by simp [queryRules]
  cases helement with
  | field literal =>
      have hfield : IsField [word, colon, literal.token] := ⟨literal, rfl⟩
      exact derivable_of_rule hplain ⟨_, [], (List.append_nil _).symm,
        derivable_fieldList (Several.one hfield), rfl⟩
  | nested hfields =>
      exact derivable_of_rule hnested ⟨_, rfl, _, rfl, _, rfl, _, _, rfl,
        derivable_fieldList hfields, _, rfl, rfl⟩

theorem derivable_entityList {elements : List Token}
    (helements : Several IsElement elements) :
    Derivable queryRules entityList elements := by
  have hone : ⟨entityList, [n entity]⟩ ∈ queryRules := by simp [queryRules]
  have hmore : ⟨entityList, [n entityList, n entity]⟩ ∈ queryRules := by
    simp [queryRules]
  apply helements.derivable
  · intro tokens helement
    exact derivable_of_rule hone
      ⟨tokens, [], (List.append_nil tokens).symm, helement.derivable, rfl⟩
  · intro left right hleft helement
    exact derivable_of_rule hmore ⟨left, right, rfl, hleft, right, [],
      (List.append_nil right).symm, helement.derivable, rfl⟩

/-- The bodies are the lists of plain fields and nested entities. -/
theorem derivable_entityBody_iff {tokens : List Token} :
    Derivable queryRules entityBody tokens ↔
      ∃ elements, Several IsElement elements ∧
        tokens = word :: lp :: lb :: (elements ++ [rb, rp]) := by
  constructor
  · exact spelled_derivable
  · rintro ⟨elements, helements, rfl⟩
    have hrule : ⟨entityBody,
        [t word, t lp, t lb, n entityList, t rb, t rp]⟩ ∈ queryRules := by
      simp [queryRules]
    exact derivable_of_rule hrule ⟨_, rfl, _, rfl, _, rfl, elements, _, rfl,
      derivable_entityList helements, _, rfl, _, rfl, rfl⟩

/-! ## Plain fields in front of nested entities -/

def Crosses (tokens : List Token) : Prop :=
  ∃ literal : Literal, [literal.token, word, colon, lb] <:+: tokens

theorem crosses_cons {token : Token} {tokens : List Token}
    (htoken : ∀ literal : Literal, literal.token ≠ token) :
    Crosses (token :: tokens) ↔ Crosses tokens := by
  simp only [Crosses, List.infix_cons_iff, List.cons_prefix_cons, htoken,
    false_and, false_or]

theorem crosses_literal (literal : Literal) (tokens : List Token) :
    Crosses (literal.token :: tokens) ↔
      [word, colon, lb] <+: tokens ∨ Crosses tokens := by
  simp only [Crosses, List.infix_cons_iff, List.cons_prefix_cons, exists_or]
  apply or_congr_left
  constructor
  · rintro ⟨_, _, hleading⟩
    exact hleading
  · intro hleading
    exact ⟨literal, rfl, hleading⟩

section Crosses

variable (tokens : List Token)

@[simp] theorem crosses_word : Crosses (word :: tokens) ↔ Crosses tokens :=
  crosses_cons (by intro literal; cases literal <;> decide)

@[simp] theorem crosses_colon : Crosses (colon :: tokens) ↔ Crosses tokens :=
  crosses_cons (by intro literal; cases literal <;> decide)

@[simp] theorem crosses_lb : Crosses (lb :: tokens) ↔ Crosses tokens :=
  crosses_cons (by intro literal; cases literal <;> decide)

@[simp] theorem crosses_rb : Crosses (rb :: tokens) ↔ Crosses tokens :=
  crosses_cons (by intro literal; cases literal <;> decide)

@[simp] theorem crosses_lp : Crosses (lp :: tokens) ↔ Crosses tokens :=
  crosses_cons (by intro literal; cases literal <;> decide)

@[simp] theorem crosses_rp : Crosses (rp :: tokens) ↔ Crosses tokens :=
  crosses_cons (by intro literal; cases literal <;> decide)

@[simp] theorem not_crosses_nil : ¬Crosses [] := by
  simp [Crosses]

theorem not_prefix_field (literal : Literal) :
    ¬[word, colon, lb] <+: word :: colon :: literal.token :: tokens := by
  cases literal <;> simp [List.cons_prefix_cons, Literal.token]

theorem crosses_fields {fields : List (List Token)}
    (hfields : ∀ field ∈ fields, IsField field) :
    (¬[word, colon, lb] <+: fields.flatten ++ rb :: tokens) ∧
      (Crosses (fields.flatten ++ rb :: tokens) ↔ Crosses tokens) := by
  induction fields with
  | nil => simp [List.cons_prefix_cons]
  | cons field fields ih =>
      rw [List.forall_mem_cons] at hfields
      obtain ⟨⟨literal, rfl⟩, hrest⟩ := hfields
      obtain ⟨hleading, hcrosses⟩ := ih hrest
      constructor
      · exact not_prefix_field _ literal
      · simp only [List.flatten_cons, List.cons_append, List.nil_append,
          crosses_word, crosses_colon, crosses_literal, hleading, false_or,
          hcrosses]

theorem crosses_nested {fields : List Token}
    (hfields : Several IsField fields) :
    Crosses (word :: colon :: lb :: (fields ++ rb :: tokens)) ↔
      Crosses tokens := by
  obtain ⟨_, rest, hfirst, hrest, rfl⟩ := hfields
  have hfields := crosses_fields tokens
    (List.forall_mem_cons.mpr ⟨hfirst, hrest⟩)
  simpa using hfields.2

end Crosses

/-! ## The parser on the elements -/

/-- The first token is one that can stand behind an element. -/
def Listed (input : List Token) : Prop :=
  ∃ tail, input = rb :: tail ∨ input = word :: tail

/-- Where an element of an `entity_list` can begin: at its start, or behind
the elements so far. -/
def AtElement (below stack : List ℕ) : Prop :=
  stack = 30 :: below ∨ stack = 35 :: 30 :: below

section Elements

variable {below stack : List ℕ} {input : List Token}

theorem IsElement.listed {element : List Token} (helement : IsElement element)
    (input : List Token) : Listed (element ++ input) := by
  cases helement with
  | field literal => exact ⟨_, Or.inr rfl⟩
  | nested hfields => exact ⟨_, Or.inr rfl⟩

theorem listed_flatten {rest : List (List Token)}
    (hrest : ∀ element ∈ rest, IsElement element) (input : List Token) :
    Listed (rest.flatten ++ rb :: input) := by
  cases rest with
  | nil => exact ⟨input, Or.inl rfl⟩
  | cons element rest =>
      rw [List.forall_mem_cons] at hrest
      rw [List.flatten_cons, List.append_assoc]
      exact hrest.1.listed _

theorem accepts_firstField (hstack : AtElement below stack)
    (literal : Literal) (hinput : Listed input) :
    tables.Accepts ⟨stack, word :: colon :: literal.token :: input⟩ ↔
      tables.Accepts ⟨37 :: stack, input⟩ := by
  obtain ⟨tail, rfl | rfl⟩ := hinput <;> obtain rfl | rfl := hstack <;>
    cases literal <;> exact Parser.accepts_steps 5 rfl

theorem accepts_nextField (hstack : AtElement below stack)
    (literal : Literal) (hinput : Listed input) :
    tables.Accepts
        ⟨37 :: stack, word :: colon :: literal.token :: input⟩ ↔
      tables.Accepts ⟨37 :: stack, input⟩ := by
  obtain ⟨tail, rfl | rfl⟩ := hinput <;> obtain rfl | rfl := hstack <;>
    cases literal <;> exact Parser.accepts_steps 5 rfl

theorem accepts_fieldsEnd (hstack : AtElement below stack)
    (input : List Token) :
    tables.Accepts ⟨37 :: stack, rb :: input⟩ ↔
      tables.Accepts ⟨35 :: 30 :: below, rb :: input⟩ := by
  obtain rfl | rfl := hstack <;> exact Parser.accepts_steps 2 rfl

theorem not_accepts_crossing (stack : List ℕ) (input : List Token) :
    ¬tables.Accepts ⟨37 :: stack, word :: colon :: lb :: input⟩ := by
  have hsteps :
      tables.steps 2 ⟨37 :: stack, word :: colon :: lb :: input⟩ =
        some ⟨54 :: 46 :: 37 :: stack, lb :: input⟩ := rfl
  rw [Parser.accepts_steps 2 hsteps]
  exact Parser.not_accepts_error rfl

theorem accepts_innerFields {fields : List (List Token)}
    (hfields : ∀ field ∈ fields, IsField field) (stack : List ℕ)
    (input : List Token) :
    tables.Accepts ⟨68 :: 55 :: stack, fields.flatten ++ rb :: input⟩ ↔
      tables.Accepts ⟨68 :: 55 :: stack, rb :: input⟩ := by
  induction fields with
  | nil => rfl
  | cons field fields ih =>
      rw [List.forall_mem_cons] at hfields
      obtain ⟨⟨literal, rfl⟩, hrest⟩ := hfields
      have hlisted := listed_flatten
        (fun field hmem => (hrest field hmem).isElement) input
      have ih := ih hrest
      rw [← ih]
      rw [List.flatten_cons, List.append_assoc]
      generalize fields.flatten ++ rb :: input = tokens at hlisted
      obtain ⟨tail, rfl | rfl⟩ := hlisted <;> cases literal <;>
        exact Parser.accepts_steps 5 rfl

theorem accepts_nested (hstack : AtElement below stack)
    {fields : List Token} (hfields : Several IsField fields)
    (hinput : Listed input) :
    tables.Accepts
        ⟨stack, word :: colon :: lb :: (fields ++ rb :: input)⟩ ↔
      tables.Accepts ⟨35 :: 30 :: below, input⟩ := by
  obtain ⟨_, rest, ⟨literal, rfl⟩, hrest, rfl⟩ := hfields
  have hlisted := listed_flatten
    (fun field hmem => (hrest field hmem).isElement) input
  have hinner := accepts_innerFields hrest (47 :: 38 :: stack) input
  rw [List.append_assoc]
  generalize rest.flatten ++ rb :: input = tokens at hlisted hinner
  have hfirst :
      tables.Accepts ⟨stack, word :: colon :: lb ::
          word :: colon :: literal.token :: tokens⟩ ↔
        tables.Accepts ⟨68 :: 55 :: 47 :: 38 :: stack, tokens⟩ := by
    obtain ⟨tail, rfl | rfl⟩ := hlisted <;> obtain rfl | rfl := hstack <;>
      cases literal <;> exact Parser.accepts_steps 8 rfl
  have hend :
      tables.Accepts ⟨68 :: 55 :: 47 :: 38 :: stack, rb :: input⟩ ↔
        tables.Accepts ⟨35 :: 30 :: below, input⟩ := by
    obtain ⟨tail, rfl | rfl⟩ := hinput <;> obtain rfl | rfl := hstack <;>
      exact Parser.accepts_steps 3 rfl
  exact hfirst.trans (hinner.trans hend)

theorem accepts_elements {rest : List (List Token)}
    (hrest : ∀ element ∈ rest, IsElement element) (input : List Token) :
    (∀ stack, AtElement below stack →
      (tables.Accepts ⟨37 :: stack, rest.flatten ++ rb :: input⟩ ↔
        ¬([word, colon, lb] <+: rest.flatten ++ [rb, rp] ∨
            Crosses (rest.flatten ++ [rb, rp])) ∧
          tables.Accepts ⟨35 :: 30 :: below, rb :: input⟩)) ∧
      (tables.Accepts ⟨35 :: 30 :: below, rest.flatten ++ rb :: input⟩ ↔
        ¬Crosses (rest.flatten ++ [rb, rp]) ∧
          tables.Accepts ⟨35 :: 30 :: below, rb :: input⟩) := by
  induction rest with
  | nil =>
      constructor
      · intro stack hstack
        rw [List.flatten_nil, List.nil_append, accepts_fieldsEnd hstack]
        simp [List.cons_prefix_cons]
      · simp
  | cons element rest ih =>
      rw [List.forall_mem_cons] at hrest
      obtain ⟨helement, hrest⟩ := hrest
      obtain ⟨ihField, ihNested⟩ := ih hrest
      have hlisted := listed_flatten hrest input
      rw [List.flatten_cons, List.append_assoc, List.append_assoc]
      cases helement with
      | field literal =>
          have hnot := not_prefix_field (rest.flatten ++ [rb, rp]) literal
          simp only [List.cons_append, List.nil_append, hnot, false_or,
            crosses_word, crosses_colon, crosses_literal]
          constructor
          · intro stack hstack
            rw [accepts_nextField hstack literal hlisted]
            exact ihField stack hstack
          · rw [accepts_firstField (Or.inr rfl) literal hlisted]
            exact ihField _ (Or.inr rfl)
      | nested hfields =>
          simp only [List.append_assoc, List.cons_append, List.nil_append]
          constructor
          · intro stack _
            simp [not_accepts_crossing, List.cons_prefix_cons]
          · rw [accepts_nested (Or.inr rfl) hfields hlisted, ihNested,
              crosses_nested _ hfields]

theorem accepts_entityList {elements : List Token}
    (helements : Several IsElement elements) (input : List Token) :
    tables.Accepts ⟨30 :: below, elements ++ rb :: input⟩ ↔
      ¬Crosses (elements ++ [rb, rp]) ∧
        tables.Accepts ⟨35 :: 30 :: below, rb :: input⟩ := by
  obtain ⟨_, rest, hfirst, hrest, rfl⟩ := helements
  have hlisted := listed_flatten hrest input
  obtain ⟨hfield, hnested⟩ := @accepts_elements below rest hrest input
  rw [List.append_assoc, List.append_assoc]
  cases hfirst with
  | field literal =>
      simp only [List.cons_append, List.nil_append, crosses_word,
        crosses_colon, crosses_literal]
      rw [accepts_firstField (Or.inl rfl) literal hlisted]
      exact hfield _ (Or.inl rfl)
  | nested hfields =>
      simp only [List.append_assoc, List.cons_append, List.nil_append]
      rw [accepts_nested (Or.inl rfl) hfields hlisted, hnested,
        crosses_nested _ hfields]

end Elements

/-! ## The two queries with a document -/

section Conditions

variable (below : List ℕ) {input : List Token}

theorem accepts_firstProperty {property : List Token}
    (hproperty : property ∈ properties) (hinput : Listed input) :
    tables.Accepts ⟨32 :: below, property ++ input⟩ ↔
      tables.Accepts ⟨41 :: 32 :: below, input⟩ := by
  obtain ⟨tail, rfl | rfl⟩ := hinput <;> rw [properties] at hproperty <;>
    fin_cases hproperty <;> exact Parser.accepts_steps 5 rfl

theorem accepts_nextProperty {property : List Token}
    (hproperty : property ∈ properties) (hinput : Listed input) :
    tables.Accepts ⟨41 :: 32 :: below, property ++ input⟩ ↔
      tables.Accepts ⟨41 :: 32 :: below, input⟩ := by
  obtain ⟨tail, rfl | rfl⟩ := hinput <;> rw [properties] at hproperty <;>
    fin_cases hproperty <;> exact Parser.accepts_steps 5 rfl

theorem listed_properties {rest : List (List Token)}
    (hrest : ∀ property ∈ rest, property ∈ properties)
    (input : List Token) : Listed (rest.flatten ++ rb :: input) := by
  cases rest with
  | nil => exact ⟨input, Or.inl rfl⟩
  | cons property rest =>
      rw [List.forall_mem_cons, properties] at hrest
      obtain ⟨hproperty, _⟩ := hrest
      fin_cases hproperty <;> exact ⟨_, Or.inr rfl⟩

theorem accepts_properties {rest : List (List Token)}
    (hrest : ∀ property ∈ rest, property ∈ properties)
    (input : List Token) :
    tables.Accepts ⟨41 :: 32 :: below, rest.flatten ++ rb :: input⟩ ↔
      tables.Accepts ⟨41 :: 32 :: below, rb :: input⟩ := by
  induction rest with
  | nil => rfl
  | cons property rest ih =>
      rw [List.forall_mem_cons] at hrest
      obtain ⟨hproperty, hrest⟩ := hrest
      have hlisted := listed_properties hrest input
      rw [List.flatten_cons, List.append_assoc,
        accepts_nextProperty below hproperty hlisted]
      exact ih hrest

theorem accepts_condition {condition : List Token}
    (hcondition : Derivable queryRules conditionBody condition) :
    tables.Accepts ⟨[0], update :: lb :: (condition ++ word :: input)⟩ ↔
      tables.Accepts ⟨[23, 17, 9, 0], word :: input⟩ := by
  obtain ⟨_, ⟨first, rest, hfirst, hrest, rfl⟩, rfl⟩ :=
    spelled_derivable hcondition
  simp only [List.cons_append, List.append_assoc, List.nil_append]
  have hlisted := listed_properties hrest (rp :: word :: input)
  have hstart :
      tables.Accepts ⟨[0], update :: lb :: word :: lp :: lb :: (first ++
          (rest.flatten ++ rb :: rp :: word :: input))⟩ ↔
        tables.Accepts ⟨[32, 27, 21, 17, 9, 0], first ++
          (rest.flatten ++ rb :: rp :: word :: input)⟩ :=
    Parser.accepts_steps 5 rfl
  have hend :
      tables.Accepts ⟨[41, 32, 27, 21, 17, 9, 0],
          rb :: rp :: word :: input⟩ ↔
        tables.Accepts ⟨[23, 17, 9, 0], word :: input⟩ :=
    Parser.accepts_steps 4 rfl
  rw [hstart, accepts_firstProperty _ hfirst hlisted,
    accepts_properties _ hrest, hend]

end Conditions

def insertTokens (body : List Token) : List Token :=
  insert :: lb :: (body ++ [rb])

def updateTokens (condition body : List Token) : List Token :=
  update :: lb :: (condition ++ (body ++ [rb]))

/-- The parser accepts the body in an INSERT, and behind every condition in an
UPDATE. -/
def BodyAccepted (body : List Token) : Prop :=
  queryParser.Parses (insertTokens body) ∧
    ∀ condition, Derivable queryRules conditionBody condition →
      queryParser.Parses (updateTokens condition body)

theorem parses_insert {elements : List Token}
    (helements : Several IsElement elements) :
    tables.Parses
        (insertTokens (word :: lp :: lb :: (elements ++ [rb, rp]))) ↔
      ¬Crosses (elements ++ [rb, rp]) := by
  have hstart :
      tables.Accepts ⟨[0], insert :: lb :: word :: lp :: lb ::
          (elements ++ [rb, rp, rb])⟩ ↔
        tables.Accepts ⟨[30, 25, 19, 14, 6, 0],
          elements ++ [rb, rp, rb]⟩ :=
    Parser.accepts_steps 5 rfl
  have hend :
      tables.Accepts ⟨[35, 30, 25, 19, 14, 6, 0], [rb, rp, rb]⟩ ↔
        tables.Accepts ⟨[5, 0], []⟩ :=
    Parser.accepts_steps 6 rfl
  have haccept : tables.Accepts ⟨[5, 0], []⟩ := Parser.Accepts.accept rfl
  simp only [Parser.Parses, insertTokens, List.cons_append,
    List.append_assoc, List.nil_append]
  rw [hstart, accepts_entityList helements, hend]
  simp only [haccept, and_true]

theorem parses_update {condition elements : List Token}
    (hcondition : Derivable queryRules conditionBody condition)
    (helements : Several IsElement elements) :
    tables.Parses (updateTokens condition
        (word :: lp :: lb :: (elements ++ [rb, rp]))) ↔
      ¬Crosses (elements ++ [rb, rp]) := by
  have hstart :
      tables.Accepts ⟨[23, 17, 9, 0], word :: lp :: lb ::
          (elements ++ [rb, rp, rb])⟩ ↔
        tables.Accepts ⟨[30, 25, 19, 23, 17, 9, 0],
          elements ++ [rb, rp, rb]⟩ :=
    Parser.accepts_steps 3 rfl
  have hend :
      tables.Accepts ⟨[35, 30, 25, 19, 23, 17, 9, 0], [rb, rp, rb]⟩ ↔
        tables.Accepts ⟨[5, 0], []⟩ :=
    Parser.accepts_steps 6 rfl
  have haccept : tables.Accepts ⟨[5, 0], []⟩ := Parser.Accepts.accept rfl
  simp only [Parser.Parses, updateTokens, List.cons_append,
    List.append_assoc, List.nil_append]
  rw [accepts_condition hcondition, hstart, accepts_entityList helements,
    hend]
  simp only [haccept, and_true]

/-- Exactly the bodies are accepted in which no literal is directly followed
by a nested entity. -/
theorem bodyAccepted_iff {body : List Token}
    (hbody : Derivable queryRules entityBody body) :
    BodyAccepted body ↔ ¬Crosses body := by
  obtain ⟨elements, helements, rfl⟩ := derivable_entityBody_iff.mp hbody
  rw [BodyAccepted, queryParser_eq_tables, parses_insert helements,
    crosses_word, crosses_lp, crosses_lb]
  constructor
  · intro haccepted
    exact haccepted.1
  · intro hnot
    exact ⟨hnot, fun condition hcondition =>
      (parses_update hcondition helements).mpr hnot⟩

/-- A nested entity in front of a plain field. -/
theorem bodyAccepted_iff_nested_first :
    BodyAccepted [word, lp, lb, word, colon, lb, word, colon, int, rb,
        word, colon, int, rb, rp] ↔
      ¬Crosses [word, lp, lb, word, colon, lb, word, colon, int, rb,
        word, colon, int, rb, rp] := by
  have hint : IsField [word, colon, int] := ⟨.int, rfl⟩
  have hnested := IsElement.nested (Several.one hint)
  have helements := (Several.one hnested).append (Several.one hint.isElement)
  exact bodyAccepted_iff
    (derivable_entityBody_iff.mpr ⟨_, helements, rfl⟩)

/-- A plain field in front of a nested entity. -/
theorem derivable_not_accepted :
    ¬∀ body, Derivable queryRules entityBody body → BodyAccepted body := by
  intro hall
  have hint : IsField [word, colon, int] := ⟨.int, rfl⟩
  have hnested := IsElement.nested (Several.one hint)
  have helements := (Several.one hint.isElement).append (Several.one hnested)
  have haccepted := hall _ (derivable_entityBody_iff.mpr ⟨_, helements, rfl⟩)
  have hparses := haccepted.1
  rw [queryParser_eq_tables, parses_insert helements] at hparses
  exact hparses ⟨.int, [word, colon], [word, colon, int, rb, rb, rp], rfl⟩

end Gql

end NosqlDbms
