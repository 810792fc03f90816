import NosqlDbms.Lexer
import Mathlib.Data.List.TakeWhile
import Mathlib.Data.Nat.Digits.Defs
import Mathlib.Tactic

/-!
# Integer literals

A decimal spelling that stands alone between white space, from the text to the
token that the driver gives to the parser.
-/

namespace NosqlDbms

namespace Gql

open Flex

/-- A canonical spelling: a minus sign or none, and digits without leading
zeros. -/
structure Decimal where
  negative : Bool
  digits : List (Fin 10)
  nonempty : digits ≠ []
  canonical : digits.head? = some 0 → digits = [0]

namespace Decimal

def digitBytes (decimal : Decimal) : List Byte :=
  decimal.digits.map (fun digit => 48 + digit.val)

def text (decimal : Decimal) : List Byte :=
  if decimal.negative then 45 :: decimal.digitBytes else decimal.digitBytes

def absolute (decimal : Decimal) : ℕ :=
  Nat.ofDigits 10 (decimal.digits.reverse.map Fin.val)

def value (decimal : Decimal) : ℤ :=
  if decimal.negative then -(decimal.absolute : ℤ) else decimal.absolute

end Decimal

/-- No accepted query has the tokens anywhere. -/
def Refused (tokens : List Token) : Prop :=
  Token.err ∈ tokens ∨
    ∀ before after, ¬queryParser.Parses (before ++ tokens ++ after)

def Call.token? : Call → Option Token
  | .token kind _ => some kind
  | .thrown => none
  | .undefined => none

def Call.Returns (call : Call) : Prop :=
  call.token?.isSome

section Law

variable (stof : List Byte → Option (BitVec 32)) (decimal : Decimal)

/-- Between white space the spelling is one INT with its value where this is
an `int`, and otherwise it is refused without an exception. -/
def LiteralLaw : Prop :=
  ∀ before after : List Byte,
    (∀ a ∈ before.getLast?, isWhite a = true) →
    (∀ a ∈ after.head?, isWhite a = true) →
    (∀ call ∈ callsOn stof before, call.Returns) →
    (InInt decimal.value →
      callsOn stof (before ++ decimal.text ++ after) =
        callsOn stof before ++
          .token .int (.int decimal.value) :: callsOn stof after) ∧
    (¬InInt decimal.value → ∃ refusal,
      (∀ call ∈ refusal, call.Returns) ∧
        Refused (refusal.filterMap Call.token?) ∧
        callsOn stof (before ++ decimal.text ++ after) =
          callsOn stof before ++ refusal ++ callsOn stof after)

end Law

/-! ## The text of a spelling -/

namespace Decimal

variable (decimal : Decimal)

theorem isDigit_digitBytes : ∀ a ∈ decimal.digitBytes, isDigit a = true := by
  intro a ha
  obtain ⟨digit, _, rfl⟩ := List.mem_map.mp ha
  have hlt := digit.isLt
  rw [isDigit_iff]
  omega

theorem digitBytes_ne_nil : decimal.digitBytes ≠ [] := by
  simpa [digitBytes] using decimal.nonempty

theorem mem_text {a : Byte} (ha : a ∈ decimal.text) :
    a = 45 ∨ isDigit a = true := by
  rw [text] at ha
  split_ifs at ha
  · rcases List.mem_cons.mp ha with rfl | ha
    · exact Or.inl rfl
    · exact Or.inr (decimal.isDigit_digitBytes a ha)
  · exact Or.inr (decimal.isDigit_digitBytes a ha)

theorem exists_digit_text : ∃ a ∈ decimal.text, isDigit a = true := by
  obtain ⟨a, rest, hdigits⟩ :=
    List.exists_cons_of_ne_nil decimal.digitBytes_ne_nil
  have hmem : a ∈ decimal.digitBytes := by
    rw [hdigits]
    exact List.mem_cons_self
  refine ⟨a, ?_, decimal.isDigit_digitBytes a hmem⟩
  rw [text]
  split_ifs
  · exact List.mem_cons_of_mem 45 hmem
  · exact hmem

theorem text_ne_nil : decimal.text ≠ [] := by
  obtain ⟨a, ha, _⟩ := decimal.exists_digit_text
  exact List.ne_nil_of_mem ha

theorem not_isWhite_text : ∀ a ∈ decimal.text, ¬isWhite a = true := by
  intro a ha
  rw [isWhite_iff]
  rcases decimal.mem_text ha with rfl | hdigit
  · decide
  · rw [isDigit_iff] at hdigit
    omega

theorem magnitude_digitBytes :
    magnitude decimal.digitBytes = decimal.absolute := by
  rw [digitBytes, absolute, magnitude]
  induction decimal.digits using List.reverseRecOn with
  | nil => rfl
  | append_singleton digits digit ih =>
      rw [List.map_append, List.foldl_append, ih, List.reverse_append,
        List.map_append, Nat.ofDigits_append]
      simp only [List.map_cons, List.map_nil, List.foldl_cons,
        List.foldl_nil, List.reverse_cons, List.reverse_nil, List.nil_append,
        Nat.ofDigits_singleton, List.length_singleton, pow_one]
      omega

theorem stoi_text :
    stoi decimal.text =
      if InInt decimal.value then some decimal.value else none := by
  have htake : decimal.digitBytes.takeWhile isDigit = decimal.digitBytes :=
    List.takeWhile_eq_self_iff.mpr decimal.isDigit_digitBytes
  have hne := decimal.digitBytes_ne_nil
  have hmagnitude := decimal.magnitude_digitBytes
  rw [text, value]
  cases decimal.negative with
  | true => simp [stoi, htake, hne, hmagnitude]
  | false =>
      obtain ⟨(a : ℕ), rest, hdigits⟩ := List.exists_cons_of_ne_nil hne
      have hmem : a ∈ decimal.digitBytes := by
        rw [hdigits]
        exact List.mem_cons_self
      have hdigit := (isDigit_iff a).mp (decimal.isDigit_digitBytes a hmem)
      have hspace : ¬(a = 32 ∨ 9 ≤ a ∧ a ≤ 13) := by omega
      have hdrop : decimal.digitBytes.dropWhile
          (fun a => a = 32 || (9 ≤ a && a ≤ 13)) = decimal.digitBytes := by
        rw [hdigits, List.dropWhile_cons_of_neg (by simpa using hspace)]
      have hhead : decimal.digitBytes.head? = some a := by
        rw [hdigits, List.head?_cons]
      have hminus : a ≠ 45 := by omega
      have hplus : a ≠ 43 := by omega
      simp [stoi, hdrop, hhead, hminus, hplus, htake, hne, hmagnitude]

theorem digits_of_value_eq_zero (hzero : decimal.value = 0) :
    decimal.digits = [0] := by
  have habsolute : decimal.absolute = 0 := by
    rw [value] at hzero
    split_ifs at hzero <;> omega
  obtain ⟨a, rest, hdigits⟩ := List.exists_cons_of_ne_nil decimal.nonempty
  rw [absolute, hdigits, List.reverse_cons, List.map_append,
    Nat.ofDigits_append] at habsolute
  simp only [List.map_cons, List.map_nil, Nat.ofDigits_singleton,
    List.length_map, List.length_reverse] at habsolute
  have hhead : a.val = 0 := by
    by_contra hne
    have hpos := Nat.pow_pos (n := rest.length) (show 0 < 10 by omega)
    have := Nat.mul_pos hpos (Nat.pos_of_ne_zero hne)
    omega
  have hzero : a = 0 := Fin.ext hhead
  apply decimal.canonical
  rw [hdigits, List.head?_cons, hzero]

/-! ## What the scanner makes of it -/

theorem wholePattern_matches (hvalue : decimal.value ≠ 0) :
    wholePattern.Matches decimal.digitBytes := by
  obtain ⟨digit, rest, hdigits⟩ :=
    List.exists_cons_of_ne_nil decimal.nonempty
  have hne : digit ≠ 0 := by
    rintro rfl
    have hone := decimal.canonical (by rw [hdigits, List.head?_cons])
    apply hvalue
    simp [value, absolute, hone]
  have hpos : 0 < digit.val := Fin.pos_iff_ne_zero.mpr hne
  have hlt := digit.isLt
  have hfirst : isDigit1 (48 + digit.val) = true := by
    rw [isDigit1_iff]
    omega
  have hbytes : decimal.digitBytes =
      [48 + digit.val] ++ rest.map (fun digit => 48 + digit.val) := by
    rw [digitBytes, hdigits]
    rfl
  rw [hbytes]
  apply Pattern.Matches.seq (Pattern.Matches.one hfirst)
  apply Pattern.Matches.star_of_forall
  intro a ha
  apply decimal.isDigit_digitBytes
  rw [hbytes]
  exact List.mem_append_right _ ha

theorem intPattern_matches (hvalue : decimal.value ≠ 0) :
    intPattern.Matches decimal.text := by
  have hwhole := decimal.wholePattern_matches hvalue
  rw [text]
  split_ifs
  · exact Pattern.Matches.seq
      (Pattern.Matches.right (Pattern.Matches.one rfl)) hwhole
  · exact Pattern.Matches.seq
      (Pattern.Matches.left Pattern.Matches.empty) hwhole

theorem not_matches_beforeInt :
    ∀ rule ∈ beforeInt, ¬rule.pattern.Matches decimal.text := by
  have hdigit : ∀ pattern : Pattern Byte,
      (∀ a ∈ List.range' 48 10, pattern.uses a = false) →
      ¬pattern.Matches decimal.text := by
    intro pattern huses hmatches
    obtain ⟨a, ha, hdigit⟩ := decimal.exists_digit_text
    rw [isDigit_iff] at hdigit
    have hrange : a ∈ List.range' 48 10 := by
      rw [List.mem_range'_1]
      omega
    have hused := hmatches.uses a ha
    rw [huses a hrange] at hused
    cases hused
  have hforeign : ∀ a : Byte, a ≠ 45 → isDigit a = false →
      a ∉ decimal.text := by
    intro a hminus hdigit hmem
    rcases decimal.mem_text hmem with heq | htrue
    · exact hminus heq
    · rw [hdigit] at htrue
      cases htrue
  intro rule hrule
  rw [beforeInt] at hrule
  fin_cases hrule
  iterate 4 exact hdigit _ (by decide)
  · intro hmatches
    obtain ⟨_, _, htext, hquote, _⟩ := Pattern.matches_seq_iff.mp hmatches
    obtain ⟨a, rfl, ha⟩ := Pattern.matches_one_iff.mp hquote
    rw [decide_eq_true_eq] at ha
    apply hforeign 34 (by decide) (by decide)
    rw [htext, ha]
    simp
  · intro hmatches
    obtain ⟨_, _, htext, _, hrest⟩ := Pattern.matches_seq_iff.mp hmatches
    obtain ⟨_, _, rfl, _, hrest⟩ := Pattern.matches_seq_iff.mp hrest
    obtain ⟨_, _, rfl, hpoint, _⟩ := Pattern.matches_seq_iff.mp hrest
    obtain ⟨a, rfl, ha⟩ := Pattern.matches_one_iff.mp hpoint
    rw [decide_eq_true_eq] at ha
    apply hforeign 46 (by decide) (by decide)
    rw [htext, ha]
    simp

theorem lexemes_text (hvalue : decimal.value ≠ 0) :
    lexemes lexerRules decimal.text = [(some .int, decimal.text)] :=
  lexemes_of_matches decimal.text_ne_nil
    (decimal.intPattern_matches hvalue) decimal.not_matches_beforeInt

end Decimal

/-! ## The calls on a query -/

section Calls

variable (stof : List Byte → Option (BitVec 32))

theorem calls_append {front back : List (Option Token × List Byte)}
    (hreturns : ∀ call ∈ calls stof front, call.Returns) :
    calls stof (front ++ back) = calls stof front ++ calls stof back := by
  induction front with
  | nil => rfl
  | cons lexeme front ih =>
      obtain ⟨token | token, text⟩ := lexeme
      · exact ih hreturns
      · simp only [List.cons_append, calls] at hreturns ⊢
        cases hcall : yylex stof token text with
        | token kind value =>
            simp only [hcall, List.forall_mem_cons] at hreturns
            simp only [ih hreturns.2, List.cons_append]
        | thrown =>
            simp only [hcall, List.forall_mem_singleton] at hreturns
            cases hreturns
        | undefined =>
            simp only [hcall, List.forall_mem_singleton] at hreturns
            cases hreturns

/-- A spelling between white space is scanned apart from what is around. -/
theorem lexemes_between (decimal : Decimal) {before after : List Byte}
    (hbefore : ∀ a ∈ before.getLast?, isWhite a = true)
    (hafter : ∀ a ∈ after.head?, isWhite a = true) :
    lexemes lexerRules (before ++ decimal.text ++ after) =
      lexemes lexerRules before ++ lexemes lexerRules decimal.text ++
        lexemes lexerRules after := by
  have hfront : Boundary (fun a => isWhite a = true) before
      decimal.text := by
    intro a ha b hb hiff
    exact decimal.not_isWhite_text b (List.mem_of_mem_head? hb)
      (hiff.mp (hbefore a ha))
  have hback : Boundary (fun a => isWhite a = true)
      (before ++ decimal.text) after := by
    intro a ha b hb hiff
    rw [List.getLast?_append_of_ne_nil _ decimal.text_ne_nil] at ha
    exact decimal.not_isWhite_text a (List.mem_of_mem_getLast? ha)
      (hiff.mpr (hafter b hb))
  rw [lexemes_append lexerRules_total lexerRules_separated hback,
    lexemes_append lexerRules_total lexerRules_separated hfront]

theorem callsOn_text {decimal : Decimal} (hvalue : decimal.value ≠ 0) :
    callsOn stof decimal.text =
      if InInt decimal.value then [.token .int (.int decimal.value)]
      else [.thrown] := by
  rw [callsOn, decimal.lexemes_text hvalue]
  simp only [calls, yylex, decimal.stoi_text]
  by_cases hint : InInt decimal.value
  · simp only [if_pos hint]
  · simp only [if_neg hint]

theorem callsOn_zero {decimal : Decimal} (hzero : decimal.value = 0) :
    callsOn stof decimal.text ≠ [.token .int (.int decimal.value)] := by
  have hdigits := decimal.digits_of_value_eq_zero hzero
  rw [hzero, Decimal.text, Decimal.digitBytes, hdigits]
  cases decimal.negative with
  | true =>
      have herr : callsOn stof [45, 48] =
          [.token .err .none, .token .err .none] := rfl
      exact fun heq => nomatch herr.symm.trans heq
  | false =>
      have herr : callsOn stof [48] = [.token .err .none] := rfl
      exact fun heq => nomatch herr.symm.trans heq

theorem LiteralLaw.alone {decimal : Decimal} (hlaw : LiteralLaw stof decimal) :
    (InInt decimal.value →
      callsOn stof decimal.text = [.token .int (.int decimal.value)]) ∧
    (¬InInt decimal.value →
      ∀ call ∈ callsOn stof decimal.text, call.Returns) := by
  have hnil : callsOn stof [] = [] := rfl
  have halone := hlaw [] [] (by simp) (by simp) (by simp [hnil])
  simp only [hnil, List.nil_append, List.append_nil] at halone
  constructor
  · exact halone.1
  · intro hint
    obtain ⟨refusal, hreturns, _, heq⟩ := halone.2 hint
    rw [heq]
    exact hreturns

/-- The law holds of the numbers in the range of `int` but zero. -/
theorem literalLaw_iff (decimal : Decimal) :
    LiteralLaw stof decimal ↔ decimal.value ≠ 0 ∧ InInt decimal.value := by
  constructor
  · intro hlaw
    obtain ⟨hfits, hrefused⟩ := hlaw.alone
    by_cases hzero : decimal.value = 0
    · have hint : InInt decimal.value := by
        rw [hzero]
        decide
      exact absurd (hfits hint) (callsOn_zero stof hzero)
    · refine ⟨hzero, ?_⟩
      by_contra hint
      have hreturns := hrefused hint
      rw [callsOn_text stof hzero, if_neg hint] at hreturns
      have hthrown := hreturns .thrown List.mem_cons_self
      cases hthrown
  · rintro ⟨hvalue, hint⟩
    intro before after hbefore hafter hreturns
    constructor
    · intro _
      rw [callsOn, lexemes_between decimal hbefore hafter, List.append_assoc,
        calls_append stof hreturns, decimal.lexemes_text hvalue]
      simp only [callsOn, calls, yylex, decimal.stoi_text, if_pos hint,
        List.singleton_append]
    · intro hnot
      exact absurd hint hnot

end Calls

/-- Zero is not an integer literal. -/
theorem literalLaw_fails :
    ¬∀ stof decimal, LiteralLaw stof decimal := by
  intro hall
  have hlaw := hall (fun _ => none)
    ⟨false, [0], by simp, fun _ => rfl⟩
  have hzero : (⟨false, [0], by simp, fun _ => rfl⟩ : Decimal).value = 0 := rfl
  have hint : InInt 0 := by decide
  exact callsOn_zero _ hzero (hlaw.alone.1 (hzero ▸ hint))

end Gql

end NosqlDbms
