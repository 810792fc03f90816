import Mathlib.Computability.ContextFreeGrammar
import Mathlib.Tactic

/-!
# LALR(1) parsers

The automaton of a grammar, built as bison builds it: states are sets of items
with the tokens that may follow, and states with the same items are one.  Where
a token can be shifted it is, whatever could be reduced.

The first rule of a grammar is the start rule, nothing else has its left side,
and no right side is empty.
-/

namespace NosqlDbms

namespace Lalr

variable {T N : Type}

abbrev Grammar (T N : Type) : Type := List (ContextFreeRule T N)

structure Item where
  rule : ℕ
  dot : ℕ
  deriving DecidableEq

/-- An item and the tokens that may follow its rule; `none` is the end. -/
structure Looking (T : Type) where
  item : Item
  follow : List (Option T)
  deriving DecidableEq

structure State (T N : Type) where
  kernel : List (Looking T)
  gotos : List (Symbol T N × ℕ)
  deriving DecidableEq

/-! ## The automaton -/

/-- `f` again and again, until the weight stays. -/
def settle {α : Type} (weight : α → ℕ) (f : α → α) : ℕ → α → α
  | 0, x => x
  | fuel + 1, x =>
      let next := f x
      if weight next = weight x then x else settle weight f fuel next

def itemsWeight (items : List (Looking T)) : ℕ :=
  (items.map (fun looking => looking.follow.length + 1)).sum

def statesWeight (states : List (State T N)) : ℕ :=
  (states.map (fun state =>
    itemsWeight state.kernel + state.gotos.length + 1)).sum

def State.core (state : State T N) : List Item :=
  state.kernel.map Looking.item

section Construction

variable [DecidableEq T] [DecidableEq N] (rules : Grammar T N)

def afterDot (item : Item) : List (Symbol T N) :=
  match rules[item.rule]? with
  | none => []
  | some rule => rule.output.drop item.dot

def addLooking (items : List (Looking T)) (more : Looking T) :
    List (Looking T) :=
  match items with
  | [] => [more]
  | first :: rest =>
      if first.item = more.item then
        ⟨first.item, first.follow ++
          more.follow.filter (fun token => token ∉ first.follow)⟩ :: rest
      else first :: addLooking rest more

/-- Adds the nonterminals that one of `names` may begin with. -/
def addCorners (names : List N) : List N :=
  rules.foldl (fun names rule =>
    match rule.output with
    | .nonterminal name :: _ =>
        if rule.input ∈ names ∧ name ∉ names then names ++ [name] else names
    | _ => names) names

def firstTokens : Symbol T N → List (Option T)
  | .terminal token => [some token]
  | .nonterminal name =>
      let names := settle List.length (addCorners rules) rules.length [name]
      rules.foldl (fun tokens rule =>
        match rule.output with
        | .terminal token :: _ =>
            if rule.input ∈ names ∧ some token ∉ tokens then
              tokens ++ [some token]
            else tokens
        | _ => tokens) []

def expansions (looking : Looking T) : List (Looking T) :=
  match afterDot rules looking.item with
  | .nonterminal name :: rest =>
      let follow := match rest with
        | [] => looking.follow
        | symbol :: _ => firstTokens rules symbol
      (rules.zipIdx.filter (fun rule => rule.1.input = name)).map
        (fun rule => ⟨⟨rule.2, 0⟩, follow⟩)
  | _ => []

def closure (kernel : List (Looking T)) : List (Looking T) :=
  settle itemsWeight
    (fun items => (items.flatMap (expansions rules)).foldl addLooking items)
    100 kernel

def nextSymbols (items : List (Looking T)) : List (Symbol T N) :=
  (items.filterMap (fun looking => (afterDot rules looking.item).head?)).dedup

/-- The items that have `symbol` behind the dot, with the dot moved over it. -/
def moveOver (items : List (Looking T)) (symbol : Symbol T N) :
    List (Looking T) :=
  (items.filter (fun looking =>
    (afterDot rules looking.item).head? = some symbol)).map
    (fun looking =>
      ⟨⟨looking.item.rule, looking.item.dot + 1⟩, looking.follow⟩)

/-- Into the state with the same items, or as a new state at the end. -/
def addState (kernel : List (Looking T)) :
    List (State T N) → List (State T N)
  | [] => [⟨kernel, []⟩]
  | state :: rest =>
      if state.core = kernel.map Looking.item then
        ⟨kernel.foldl addLooking state.kernel, state.gotos⟩ :: rest
      else state :: addState kernel rest

def addGoto (index : ℕ) (items : List (Looking T))
    (states : List (State T N)) (symbol : Symbol T N) : List (State T N) :=
  let kernel := moveOver rules items symbol
  let states := addState kernel states
  let target := states.findIdx (fun state =>
    state.core = kernel.map Looking.item)
  states.modify index (fun state =>
    if (state.gotos.lookup symbol).isSome then state
    else ⟨state.kernel, state.gotos ++ [(symbol, target)]⟩)

def addGotos (states : List (State T N)) (index : ℕ) : List (State T N) :=
  match states[index]? with
  | none => states
  | some state =>
      let items := closure rules state.kernel
      (nextSymbols rules items).foldl (addGoto rules index items) states

/-- The states from `index` on, those that come up on the way included. -/
def addAllGotos : ℕ → ℕ → List (State T N) → List (State T N)
  | 0, _, states => states
  | fuel + 1, index, states =>
      if index < states.length then
        addAllGotos fuel (index + 1) (addGotos rules states index)
      else states

/-- The passes end when the tokens that may follow have reached every state. -/
def lalrStates : List (State T N) :=
  settle statesWeight (addAllGotos rules 1000 0) 100
    [⟨[⟨⟨0, 0⟩, [none]⟩], []⟩]

end Construction

/-! ## The parser -/

/-- What the parser needs of a state: the rules that are complete, each with
the tokens in front of which it is reduced. -/
structure Row (T N : Type) where
  gotos : List (Symbol T N × ℕ)
  reductions : List (ℕ × List (Option T))
  deriving DecidableEq

structure Parser (T N : Type) where
  rules : Grammar T N
  rows : List (Row T N)

inductive Action where
  | shift (next : ℕ)
  | reduce (rule : ℕ)
  | accept
  | error

/-- The stack of states, the top first, and the tokens to come. -/
structure Config (T : Type) where
  stack : List ℕ
  input : List T

section Parser

variable [DecidableEq T] [DecidableEq N]

def State.row (rules : Grammar T N) (state : State T N) : Row T N where
  gotos := state.gotos
  reductions :=
    (state.kernel.filter (fun looking =>
      afterDot rules looking.item = [])).map
      (fun looking => (looking.item.rule, looking.follow))

def lalrParser (rules : Grammar T N) : Parser T N :=
  ⟨rules, (lalrStates rules).map (State.row rules)⟩

def Row.action (row : Row T N) (look : Option T) : Action :=
  match look.bind (fun token => row.gotos.lookup (.terminal token)) with
  | some next => .shift next
  | none =>
      -- of several rules the earlier one
      match ((row.reductions.filter (fun reduction =>
          look ∈ reduction.2)).map Prod.fst).min? with
      | none => .error
      | some 0 => .accept
      | some rule => .reduce rule

def Parser.row (parser : Parser T N) (stack : List ℕ) : Row T N :=
  parser.rows.getD (stack.headD 0) ⟨[], []⟩

def Parser.action (parser : Parser T N) (config : Config T) : Action :=
  (parser.row config.stack).action config.input.head?

def Parser.step (parser : Parser T N) (config : Config T) :
    Option (Config T) :=
  match parser.action config with
  | .shift next => some ⟨next :: config.stack, config.input.tail⟩
  | .reduce rule =>
      match parser.rules[rule]? with
      | none => none
      | some rule =>
          let stack := config.stack.drop rule.output.length
          ((parser.row stack).gotos.lookup (.nonterminal rule.input)).map
            (fun next => ⟨next :: stack, config.input⟩)
  | .accept => none
  | .error => none

def Parser.steps (parser : Parser T N) : ℕ → Config T → Option (Config T)
  | 0, config => some config
  | count + 1, config =>
      (parser.step config).bind (parser.steps count)

/-- The steps from a configuration end with the start rule. -/
inductive Parser.Accepts (parser : Parser T N) : Config T → Prop where
  | accept {config : Config T} (haction : parser.action config = .accept) :
      parser.Accepts config
  | step {config next : Config T} (hstep : parser.step config = some next)
      (haccepts : parser.Accepts next) : parser.Accepts config

/-- The parser accepts the tokens from its first state on. -/
def Parser.Parses (parser : Parser T N) (tokens : List T) : Prop :=
  parser.Accepts ⟨[0], tokens⟩

variable {parser : Parser T N} {config next : Config T}

theorem Parser.accepts_step (hstep : parser.step config = some next) :
    parser.Accepts config ↔ parser.Accepts next := by
  constructor
  · intro haccepts
    cases haccepts with
    | accept haction => simp [Parser.step, haction] at hstep
    | step hstep' hnext =>
        rw [hstep] at hstep'
        cases hstep'
        exact hnext
  · exact Parser.Accepts.step hstep

theorem Parser.accepts_steps (count : ℕ)
    (hsteps : parser.steps count config = some next) :
    parser.Accepts config ↔ parser.Accepts next := by
  induction count generalizing config with
  | zero =>
      cases hsteps
      rfl
  | succ count ih =>
      obtain ⟨middle, hstep, hrest⟩ := Option.bind_eq_some_iff.mp hsteps
      rw [Parser.accepts_step hstep]
      exact ih hrest

theorem Parser.not_accepts_error (haction : parser.action config = .error) :
    ¬parser.Accepts config := by
  intro haccepts
  cases haccepts with
  | accept haccept =>
      rw [haction] at haccept
      cases haccept
  | step hstep _ => simp [Parser.step, haction] at hstep

end Parser

/-! ## What the rules derive -/

section Derivable

/-- The tokens of a sequence of symbols, where `spelled` says how the
nonterminals can be spelled. -/
def Spells (spelled : N → List T → Prop) :
    List (Symbol T N) → List T → Prop
  | [], tokens => tokens = []
  | .terminal token :: rest, tokens =>
      ∃ tail, tokens = token :: tail ∧ Spells spelled rest tail
  | .nonterminal name :: rest, tokens =>
      ∃ head tail, tokens = head ++ tail ∧ spelled name head ∧
        Spells spelled rest tail

theorem Spells.append {spelled : N → List T → Prop}
    {left right : List (Symbol T N)} {tokens : List T} :
    Spells spelled (left ++ right) tokens ↔
      ∃ head tail, tokens = head ++ tail ∧ Spells spelled left head ∧
        Spells spelled right tail := by
  induction left generalizing tokens with
  | nil => simp [Spells]
  | cons symbol left ih =>
      cases symbol with
      | terminal token =>
          simp only [List.cons_append, Spells, ih]
          constructor
          · rintro ⟨_, rfl, head, tail, rfl, hhead, htail⟩
            exact ⟨token :: head, tail, rfl, ⟨head, rfl, hhead⟩, htail⟩
          · rintro ⟨_, tail, rfl, ⟨head, rfl, hhead⟩, htail⟩
            exact ⟨head ++ tail, rfl, head, tail, rfl, hhead, htail⟩
      | nonterminal name =>
          simp only [List.cons_append, Spells, ih]
          constructor
          · rintro ⟨first, _, rfl, hfirst, head, tail, rfl, hhead, htail⟩
            exact ⟨first ++ head, tail, (List.append_assoc ..).symm,
              ⟨first, head, rfl, hfirst, hhead⟩, htail⟩
          · rintro ⟨_, tail, rfl, ⟨first, head, rfl, hfirst, hhead⟩, htail⟩
            exact ⟨first, head ++ tail, List.append_assoc .., hfirst,
              head, tail, rfl, hhead, htail⟩

theorem Spells.fold {spelled : N → List T → Prop} {rule : ContextFreeRule T N}
    (hclosed : ∀ tokens, Spells spelled rule.output tokens →
      spelled rule.input tokens)
    {left right : List (Symbol T N)} {tokens : List T}
    (hspells : Spells spelled (left ++ rule.output ++ right) tokens) :
    Spells spelled (left ++ [.nonterminal rule.input] ++ right) tokens := by
  rw [Spells.append] at hspells
  obtain ⟨front, tail, rfl, hfront, htail⟩ := hspells
  rw [Spells.append] at hfront
  obtain ⟨head, middle, rfl, hhead, hmiddle⟩ := hfront
  have hinput : Spells spelled [.nonterminal rule.input] middle :=
    ⟨middle, [], (List.append_nil middle).symm, hclosed middle hmiddle, rfl⟩
  exact Spells.append.mpr ⟨head ++ middle, tail, rfl,
    Spells.append.mpr ⟨head, middle, rfl, hhead, hinput⟩, htail⟩

theorem spells_terminals (spelled : N → List T → Prop) (tokens : List T) :
    Spells spelled (tokens.map Symbol.terminal) tokens := by
  induction tokens with
  | nil => rfl
  | cons token tokens ih => exact ⟨tokens, rfl, ih⟩

variable [DecidableEq T] [DecidableEq N]

def contextFree (rules : Grammar T N) (name : N) : ContextFreeGrammar T :=
  ⟨N, name, rules.toFinset⟩

/-- The rules derive the tokens from `name`. -/
def Derivable (rules : Grammar T N) (name : N) (tokens : List T) : Prop :=
  tokens ∈ (contextFree rules name).language

variable {rules : Grammar T N}

theorem Derivable.spelled {spelled : N → List T → Prop}
    (hclosed : ∀ rule ∈ rules, ∀ tokens,
      Spells spelled rule.output tokens → spelled rule.input tokens)
    {name : N} {tokens : List T} (hderivable : Derivable rules name tokens) :
    spelled name tokens := by
  have hspells : ∀ form : List (Symbol T N),
      (contextFree rules name).Derives form (tokens.map Symbol.terminal) →
      Spells spelled form tokens := by
    intro form hderives
    induction hderives using Relation.ReflTransGen.head_induction_on with
    | refl => exact spells_terminals spelled tokens
    | head hproduces _ ih =>
        obtain ⟨rule, hrule, hrewrites⟩ := hproduces
        obtain ⟨left, right, rfl, rfl⟩ := hrewrites.exists_parts
        have hclosed := hclosed rule (List.mem_toFinset.mp hrule)
        exact Spells.fold hclosed ih
  obtain ⟨head, tail, rfl, hhead, rfl⟩ := hspells _ hderivable
  rw [List.append_nil]
  exact hhead

theorem derives_of_spells {name : N} {form : List (Symbol T N)}
    {tokens : List T} (hspells : Spells (Derivable rules) form tokens) :
    (contextFree rules name).Derives form (tokens.map Symbol.terminal) := by
  induction form generalizing tokens with
  | nil =>
      cases hspells
      exact ContextFreeGrammar.Derives.refl _
  | cons symbol form ih =>
      cases symbol with
      | terminal token =>
          obtain ⟨tail, rfl, htail⟩ := hspells
          exact (ih htail).append_left [.terminal token]
      | nonterminal first =>
          obtain ⟨head, tail, rfl, hhead, htail⟩ := hspells
          have hfirst : (contextFree rules name).Derives
              [.nonterminal first] (head.map Symbol.terminal) := hhead
          rw [List.map_append]
          exact (hfirst.append_right form).trans
            ((ih htail).append_left (head.map Symbol.terminal))

theorem derivable_of_rule {rule : ContextFreeRule T N}
    (hrule : rule ∈ rules) {tokens : List T}
    (hspells : Spells (Derivable rules) rule.output tokens) :
    Derivable rules rule.input tokens := by
  have hmem : rule ∈ rules.toFinset := List.mem_toFinset.mpr hrule
  have hproduces : (contextFree rules rule.input).Produces
      [.nonterminal rule.input] rule.output :=
    ⟨rule, hmem, ContextFreeRule.Rewrites.input_output⟩
  exact hproduces.single.trans (derives_of_spells hspells)

end Derivable

end Lalr

end NosqlDbms
