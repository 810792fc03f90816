import NosqlDbms.Lalr

/-!
# The client's parser

`parser.y`: the tokens, the rules in their order and the parser that bison
builds from them.  The values of tokens and the actions of rules are left out;
no action refuses a query.
-/

namespace NosqlDbms

namespace Gql

open Lalr

inductive Token where
  | colon | err | lb | rb | lp | rp
  | int | string | float | bool | word
  | insert | delete | select | update
  | cmp | eq | in
  deriving DecidableEq, Repr

/-- `accept` is the start symbol that bison adds. -/
inductive Nonterminal where
  | accept
  | field | fieldList
  | condition | conditionBody
  | property | propertyList
  | entity | entityList | entityBody
  | insertQuery | selectQuery | deleteQuery | updateQuery
  | queryList
  deriving DecidableEq, Repr

open Token Nonterminal

abbrev t (token : Token) : Symbol Token Nonterminal :=
  .terminal token

abbrev n (name : Nonterminal) : Symbol Token Nonterminal :=
  .nonterminal name

def queryRules : List (ContextFreeRule Token Nonterminal) := [
  ⟨accept, [n queryList]⟩,
  ⟨queryList, [n insertQuery]⟩,
  ⟨queryList, [n queryList, n insertQuery]⟩,
  ⟨queryList, [n selectQuery]⟩,
  ⟨queryList, [n queryList, n selectQuery]⟩,
  ⟨queryList, [n deleteQuery]⟩,
  ⟨queryList, [n queryList, n deleteQuery]⟩,
  ⟨queryList, [n updateQuery]⟩,
  ⟨queryList, [n queryList, n updateQuery]⟩,
  ⟨insertQuery, [t insert, t lb, n entityBody, t rb]⟩,
  ⟨selectQuery, [t select, t lb, n conditionBody, t rb]⟩,
  ⟨deleteQuery, [t delete, t lb, n conditionBody, t rb]⟩,
  ⟨updateQuery, [t update, t lb, n conditionBody, n entityBody, t rb]⟩,
  ⟨entityBody, [t word, t lp, t lb, n entityList, t rb, t rp]⟩,
  ⟨entityList, [n entity]⟩,
  ⟨entityList, [n entityList, n entity]⟩,
  ⟨entity, [t word, t colon, t lb, n fieldList, t rb]⟩,
  ⟨entity, [n fieldList]⟩,
  ⟨conditionBody, [t word, t lp, n condition, t rp]⟩,
  ⟨condition, [t lb, n propertyList, t rb]⟩,
  ⟨propertyList, [n property]⟩,
  ⟨propertyList, [n propertyList, n property]⟩,
  ⟨fieldList, [n field]⟩,
  ⟨fieldList, [n fieldList, n field]⟩,
  ⟨property, [t word, t .in, t string]⟩,
  ⟨property, [t word, t eq, t string]⟩,
  ⟨property, [t word, t cmp, t int]⟩,
  ⟨property, [t word, t eq, t int]⟩,
  ⟨property, [t word, t cmp, t float]⟩,
  ⟨property, [t word, t eq, t float]⟩,
  ⟨property, [t word, t cmp, t bool]⟩,
  ⟨property, [t word, t eq, t bool]⟩,
  ⟨field, [t word, t colon, t string]⟩,
  ⟨field, [t word, t colon, t int]⟩,
  ⟨field, [t word, t colon, t float]⟩,
  ⟨field, [t word, t colon, t bool]⟩]

def queryParser : Parser Token Nonterminal :=
  lalrParser queryRules

/-! ## Its states -/

/-- The tokens behind a query. -/
def afterQuery : List (Option Token) :=
  [none, some insert, some select, some delete, some update]

/-- The tokens behind an element of a list in braces. -/
def inList : List (Option Token) :=
  [some rb, some word]

def goesOn (gotos : List (Symbol Token Nonterminal × ℕ)) :
    Row Token Nonterminal :=
  ⟨gotos, []⟩

def ends (rule : ℕ) (follow : List (Option Token)) : Row Token Nonterminal :=
  ⟨[], [(rule, follow)]⟩

/-- The states of the parser, as bison would report them. -/
def queryRows : List (Row Token Nonterminal) := [
  -- 0
  goesOn [(n insertQuery, 1), (n selectQuery, 2), (n deleteQuery, 3),
    (n updateQuery, 4), (n queryList, 5), (t insert, 6), (t select, 7),
    (t delete, 8), (t update, 9)],
  ends 1 afterQuery, ends 3 afterQuery, ends 5 afterQuery, ends 7 afterQuery,
  ⟨[(n insertQuery, 10), (n selectQuery, 11), (n deleteQuery, 12),
    (n updateQuery, 13), (t insert, 6), (t select, 7), (t delete, 8),
    (t update, 9)], [(0, [none])]⟩,
  goesOn [(t lb, 14)], goesOn [(t lb, 15)], goesOn [(t lb, 16)],
  goesOn [(t lb, 17)],
  -- 10
  ends 2 afterQuery, ends 4 afterQuery, ends 6 afterQuery, ends 8 afterQuery,
  goesOn [(n entityBody, 18), (t word, 19)],
  goesOn [(n conditionBody, 20), (t word, 21)],
  goesOn [(n conditionBody, 22), (t word, 21)],
  goesOn [(n conditionBody, 23), (t word, 21)], goesOn [(t rb, 24)],
  goesOn [(t lp, 25)],
  -- 20
  goesOn [(t rb, 26)], goesOn [(t lp, 27)], goesOn [(t rb, 28)],
  goesOn [(n entityBody, 29), (t word, 19)], ends 9 afterQuery,
  goesOn [(t lb, 30)], ends 10 afterQuery,
  goesOn [(n condition, 31), (t lb, 32)], ends 11 afterQuery,
  goesOn [(t rb, 33)],
  -- 30
  goesOn [(n entity, 34), (n entityList, 35), (n field, 36),
    (n fieldList, 37), (t word, 38)],
  goesOn [(t rp, 39)],
  goesOn [(n property, 40), (n propertyList, 41), (t word, 42)],
  ends 12 afterQuery, ends 14 inList,
  goesOn [(t rb, 43), (n entity, 44), (n field, 36), (n fieldList, 37),
    (t word, 38)],
  ends 22 inList, ⟨[(n field, 45), (t word, 46)], [(17, inList)]⟩,
  goesOn [(t colon, 47)], ends 18 inList,
  -- 40
  ends 20 inList, goesOn [(t rb, 48), (n property, 49), (t word, 42)],
  goesOn [(t .in, 50), (t cmp, 51), (t eq, 52)], goesOn [(t rp, 53)],
  ends 15 inList, ends 23 inList, goesOn [(t colon, 54)],
  goesOn [(t lb, 55), (t string, 56), (t int, 57), (t float, 58),
    (t bool, 59)],
  ends 19 [some rp], ends 21 inList,
  -- 50
  goesOn [(t string, 60)], goesOn [(t int, 61), (t float, 62), (t bool, 63)],
  goesOn [(t string, 64), (t int, 65), (t float, 66), (t bool, 67)],
  ends 13 [some rb],
  goesOn [(t string, 56), (t int, 57), (t float, 58), (t bool, 59)],
  goesOn [(n field, 36), (n fieldList, 68), (t word, 46)], ends 32 inList,
  ends 33 inList, ends 34 inList, ends 35 inList,
  -- 60
  ends 24 inList, ends 26 inList, ends 28 inList, ends 30 inList,
  ends 25 inList, ends 27 inList, ends 29 inList, ends 31 inList,
  goesOn [(t rb, 69), (n field, 45), (t word, 46)], ends 16 inList]

def tables : Parser Token Nonterminal :=
  ⟨queryRules, queryRows⟩

theorem lalrStates_queryRules :
    (lalrStates queryRules).map (State.row queryRules) = queryRows := by
  decide +kernel

theorem queryParser_eq_tables : queryParser = tables := by
  rw [queryParser, lalrParser, lalrStates_queryRules, tables]

end Gql

end NosqlDbms
