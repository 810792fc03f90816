import NosqlDbms.Flex
import NosqlDbms.QueryGrammar
import NosqlDbms.Network
import Mathlib.Tactic

/-!
# The client's lexer

`lexer.l` and `Driver::yylex`: the rules in their order, and the semantic
values of the tokens.  The conversion of a FLOAT is a parameter.
-/

namespace NosqlDbms

namespace Gql

open Flex
open Network (ProtoCmp)

/-! ## Rules -/

def chars (text : List Char) : List Byte :=
  text.map Char.toNat

/-- A letter in either case, as the option `case-insensitive` has it. -/
def letter (char : Char) : Pattern Byte :=
  .one (fun a => a = char.toLower.toNat || a = char.toUpper.toNat)

def spelling (text : List Char) : Pattern Byte :=
  text.foldr (fun char rest => .seq (letter char) rest) .empty

def plus (pattern : Pattern Byte) : Pattern Byte :=
  .seq pattern (.star pattern)

def optional (pattern : Pattern Byte) : Pattern Byte :=
  .alt .empty pattern

/-- A blank, a tab, a newline or a vertical tab. -/
def isWhite (a : Byte) : Bool :=
  a = 32 || a = 9 || a = 10 || a = 11

def isDigit (a : Byte) : Bool :=
  48 ≤ a && a ≤ 57

def isDigit1 (a : Byte) : Bool :=
  49 ≤ a && a ≤ 57

def isLetter (a : Byte) : Bool :=
  (65 ≤ a && a ≤ 90) || (97 ≤ a && a ≤ 122)

theorem isWhite_iff (a : ℕ) :
    isWhite a = true ↔ a = 32 ∨ a = 9 ∨ a = 10 ∨ a = 11 := by
  simp [isWhite, or_assoc]

theorem isDigit_iff (a : ℕ) : isDigit a = true ↔ 48 ≤ a ∧ a ≤ 57 := by
  simp [isDigit]

theorem isDigit1_iff (a : ℕ) : isDigit1 a = true ↔ 49 ≤ a ∧ a ≤ 57 := by
  simp [isDigit1]

def quote : Pattern Byte := .one (fun a => a = 34)

def minus : Pattern Byte := .one (fun a => a = 45)

def point : Pattern Byte := .one (fun a => a = 46)

def wordPattern : Pattern Byte :=
  .seq (.one isLetter)
    (.star (.one (fun a => isLetter a || isDigit a || a = 95)))

/-- A digit that is not zero and more digits. -/
def wholePattern : Pattern Byte :=
  .seq (.one isDigit1) (.star (.one isDigit))

def stringPattern : Pattern Byte :=
  .seq quote (.seq wordPattern quote)

def floatPattern : Pattern Byte :=
  .seq (optional minus)
    (.seq (.alt (letter '0') wholePattern)
      (.seq point (plus (.one isDigit))))

def intPattern : Pattern Byte :=
  .seq (optional minus) wholePattern

def beforeInt : List (Rule Byte (Option Token)) := [
  ⟨plus (.one isWhite), none⟩,
  ⟨.alt (spelling ['G', 'T']) (.alt (spelling ['G', 'E'])
    (.alt (spelling ['L', 'T']) (spelling ['L', 'E']))), some .cmp⟩,
  ⟨spelling ['E', 'Q'], some .eq⟩,
  ⟨spelling ['I', 'N'], some .in⟩,
  ⟨stringPattern, some .string⟩,
  ⟨floatPattern, some .float⟩]

def afterInt : List (Rule Byte (Option Token)) := [
  ⟨.alt (spelling ['t', 'r', 'u', 'e'])
    (spelling ['f', 'a', 'l', 's', 'e']), some .bool⟩,
  ⟨spelling ['I', 'N', 'S', 'E', 'R', 'T'], some .insert⟩,
  ⟨spelling ['U', 'P', 'D', 'A', 'T', 'E'], some .update⟩,
  ⟨spelling ['D', 'E', 'L', 'E', 'T', 'E'], some .delete⟩,
  ⟨spelling ['S', 'E', 'L', 'E', 'C', 'T'], some .select⟩,
  ⟨wordPattern, some .word⟩,
  ⟨letter '{', some .lb⟩,
  ⟨letter '}', some .rb⟩,
  ⟨letter '(', some .lp⟩,
  ⟨letter ')', some .rp⟩,
  ⟨letter ':', some .colon⟩,
  -- everything but a newline
  ⟨.one (fun a => a ≠ 10), some .err⟩]

/-- White space has no token. -/
def lexerRules : List (Rule Byte (Option Token)) :=
  beforeInt ++ ⟨intPattern, some .int⟩ :: afterInt

theorem lexerRules_total (a : Byte) :
    ∃ rule ∈ lexerRules, rule.pattern.Matches [a] := by
  by_cases ha : a = 10
  · refine ⟨⟨plus (.one isWhite), none⟩, by simp [lexerRules, beforeInt], ?_⟩
    rw [ha]
    exact Pattern.Matches.seq (Pattern.Matches.one rfl)
      Pattern.Matches.starNil
  · refine ⟨⟨.one (fun a => a ≠ 10), some .err⟩,
      by simp [lexerRules, afterInt], ?_⟩
    exact Pattern.Matches.one (by simpa using ha)

theorem lexerRules_separated :
    Separated lexerRules (fun a => isWhite a = true) := by
  have hclean : ∀ pattern : Pattern Byte,
      (∀ a ∈ [32, 9, 10, 11], pattern.uses a = false) →
      ∀ u, pattern.Matches u →
        (∀ a ∈ u, isWhite a = true) ∨ ∀ a ∈ u, ¬isWhite a = true := by
    intro pattern hpattern u hmatches
    right
    intro a ha hwhite
    have hmem : a ∈ [32, 9, 10, 11] := by
      rw [isWhite_iff] at hwhite
      simpa using hwhite
    have huses := hmatches.uses a ha
    rw [hpattern a hmem] at huses
    cases huses
  intro rule hrule
  rw [lexerRules, beforeInt, afterInt] at hrule
  fin_cases hrule
  · intro u hmatches
    left
    intro a ha
    simpa [plus, Pattern.uses] using hmatches.uses a ha
  iterate 17 exact hclean _ (by decide)
  · intro u hmatches
    cases hmatches with
    | @one _ a haccept =>
        by_cases hwhite : isWhite a = true
        · exact Or.inl (by simpa using hwhite)
        · exact Or.inr (by simpa using hwhite)

/-! ## The driver -/

/-- `OperationType` of the message. -/
inductive OperationType where
  | insert
  | read
  | delete
  | update
  deriving DecidableEq, Repr

inductive Value where
  | none
  | int (value : ℤ)
  | float (bits : BitVec 32)
  | bool (value : Bool)
  | text (text : List Byte)
  | cmp (cmp : ProtoCmp)
  | operation (operation : OperationType)
  deriving DecidableEq

/-- How a call of `Driver::yylex` ends: with a token and its value, with an
exception, or with a `second` of the end of a table. -/
inductive Call where
  | token (token : Token) (value : Value)
  | thrown
  | undefined
  deriving DecidableEq

def InInt (value : ℤ) : Prop :=
  -2 ^ 31 ≤ value ∧ value < 2 ^ 31

instance (value : ℤ) : Decidable (InInt value) :=
  inferInstanceAs (Decidable (_ ∧ _))

def magnitude (digits : List Byte) : ℕ :=
  digits.foldl (fun number a => 10 * number + (a - 48)) 0

/-- `std::stoi`; `none` is an exception. -/
def stoi (text : List Byte) : Option ℤ :=
  let text := text.dropWhile (fun a => a = 32 || (9 ≤ a && a ≤ 13))
  let negative := text.head? = some 45
  let signed := negative ∨ text.head? = some 43
  let digits := (if signed then text.tail else text).takeWhile isDigit
  let value : ℤ :=
    if negative then -(magnitude digits : ℤ) else magnitude digits
  if digits = [] ∨ ¬InInt value then none else some value

def cmpTable : List (List Byte × ProtoCmp) := [
  (chars ['G', 'T'], .gt), (chars ['g', 't'], .gt),
  (chars ['G', 'E'], .ge), (chars ['g', 'e'], .ge),
  (chars ['L', 'T'], .lt), (chars ['l', 't'], .lt),
  (chars ['L', 'E'], .le), (chars ['l', 'e'], .le),
  (chars ['E', 'Q'], .eq), (chars ['e', 'q'], .eq),
  (chars ['I', 'N'], .in), (chars ['i', 'n'], .in)]

def commandTable : List (List Byte × OperationType) := [
  (chars ['i', 'n', 's', 'e', 'r', 't'], .insert),
  (chars ['I', 'N', 'S', 'E', 'R', 'T'], .insert),
  (chars ['d', 'e', 'l', 'e', 't', 'e'], .delete),
  (chars ['D', 'E', 'L', 'E', 'T', 'E'], .delete),
  (chars ['u', 'p', 'd', 'a', 't', 'e'], .update),
  (chars ['U', 'P', 'D', 'A', 'T', 'E'], .update),
  (chars ['s', 'e', 'l', 'e', 'c', 't'], .read),
  (chars ['S', 'E', 'L', 'E', 'C', 'T'], .read)]

section Driver

variable (stof : List Byte → Option (BitVec 32))

/-- `Driver::yylex` behind the call of the scanner. -/
def yylex (token : Token) (text : List Byte) : Call :=
  match token with
  | .word => .token .word (.text text)
  | .string => .token .string (.text (text.filter (fun a => a ≠ 34)))
  | .int =>
      match stoi text with
      | some value => .token .int (.int value)
      | none => .thrown
  | .float =>
      match stof text with
      | some bits => .token .float (.float bits)
      | none => .thrown
  | .bool =>
      .token .bool (.bool (text = chars ['t', 'r', 'u', 'e'] ||
        text = chars ['T', 'R', 'U', 'E']))
  | .cmp | .eq | .in =>
      match cmpTable.lookup text with
      | some cmp => .token token (.cmp cmp)
      | none => .undefined
  | .insert | .delete | .select | .update =>
      match commandTable.lookup text with
      | some operation => .token token (.operation operation)
      | none => .undefined
  | _ => .token token .none

/-- The calls until the end of the text, or until one does not return. -/
def calls : List (Option Token × List Byte) → List Call
  | [] => []
  | (none, _) :: rest => calls rest
  | (some token, text) :: rest =>
      match yylex stof token text with
      | .token token value => .token token value :: calls rest
      | .thrown => [.thrown]
      | .undefined => [.undefined]

def callsOn (text : List Byte) : List Call :=
  calls stof (lexemes lexerRules text)

end Driver

end Gql

end NosqlDbms
