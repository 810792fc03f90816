import Mathlib.Data.Nat.Find
import Mathlib.Tactic

/-!
# Scanners

Regular patterns over an alphabet with classes of letters, and the scanner that
flex makes of a list of rules: the longest match wins, and among the rules that
match as much the earliest.  Every text is meant to have a match; where none is
left the scanner stops.
-/

namespace NosqlDbms

namespace Flex

variable {α β : Type}

inductive Pattern (α : Type) where
  | never
  | empty
  | one (accept : α → Bool)
  | seq (first second : Pattern α)
  | alt (left right : Pattern α)
  | star (pattern : Pattern α)

namespace Pattern

inductive Matches : Pattern α → List α → Prop where
  | empty : Matches .empty []
  | one {accept : α → Bool} {a : α} (haccept : accept a = true) :
      Matches (.one accept) [a]
  | seq {first second : Pattern α} {u v : List α}
      (hfirst : Matches first u) (hsecond : Matches second v) :
      Matches (.seq first second) (u ++ v)
  | left {left right : Pattern α} {u : List α} (hleft : Matches left u) :
      Matches (.alt left right) u
  | right {left right : Pattern α} {u : List α} (hright : Matches right u) :
      Matches (.alt left right) u
  | starNil {pattern : Pattern α} : Matches (.star pattern) []
  | starCons {pattern : Pattern α} {u v : List α}
      (hfirst : Matches pattern u) (hrest : Matches (.star pattern) v) :
      Matches (.star pattern) (u ++ v)

def nullable : Pattern α → Bool
  | .never => false
  | .empty => true
  | .one _ => false
  | .seq first second => first.nullable && second.nullable
  | .alt left right => left.nullable || right.nullable
  | .star _ => true

def derive (a : α) : Pattern α → Pattern α
  | .never => .never
  | .empty => .never
  | .one accept => if accept a then .empty else .never
  | .seq first second =>
      if first.nullable then
        .alt (.seq (first.derive a) second) (second.derive a)
      else .seq (first.derive a) second
  | .alt left right => .alt (left.derive a) (right.derive a)
  | .star pattern => .seq (pattern.derive a) (.star pattern)

def accepts : Pattern α → List α → Bool
  | pattern, [] => pattern.nullable
  | pattern, a :: text => (pattern.derive a).accepts text

theorem matches_one_iff {accept : α → Bool} {u : List α} :
    (Pattern.one accept).Matches u ↔ ∃ a, u = [a] ∧ accept a = true := by
  constructor
  · intro h
    cases h with
    | one haccept => exact ⟨_, rfl, haccept⟩
  · rintro ⟨a, rfl, haccept⟩
    exact Matches.one haccept

theorem matches_seq_iff {first second : Pattern α} {u : List α} :
    (Pattern.seq first second).Matches u ↔
      ∃ v w, u = v ++ w ∧ first.Matches v ∧ second.Matches w := by
  constructor
  · intro h
    cases h with
    | seq hfirst hsecond => exact ⟨_, _, rfl, hfirst, hsecond⟩
  · rintro ⟨v, w, rfl, hfirst, hsecond⟩
    exact Matches.seq hfirst hsecond

theorem nullable_iff (pattern : Pattern α) :
    pattern.nullable = true ↔ pattern.Matches [] := by
  constructor
  · intro h
    induction pattern with
    | never => cases h
    | empty => exact Matches.empty
    | one accept => cases h
    | seq first second ihFirst ihSecond =>
        rw [nullable, Bool.and_eq_true] at h
        exact Matches.seq (ihFirst h.1) (ihSecond h.2)
    | alt left right ihLeft ihRight =>
        rw [nullable, Bool.or_eq_true] at h
        cases h with
        | inl h => exact Matches.left (ihLeft h)
        | inr h => exact Matches.right (ihRight h)
    | star pattern _ => exact Matches.starNil
  · intro h
    generalize hnil : ([] : List α) = u at h
    induction h with
    | empty => rfl
    | one _ => cases hnil
    | seq _ _ ihFirst ihSecond =>
        obtain ⟨hu, hv⟩ := List.append_eq_nil_iff.mp hnil.symm
        rw [nullable, ihFirst hu.symm, ihSecond hv.symm]
        rfl
    | left _ ih => rw [nullable, ih hnil, Bool.true_or]
    | right _ ih => rw [nullable, ih hnil, Bool.or_true]
    | starNil => rfl
    | starCons _ _ _ _ => rfl

theorem Matches.of_derive {pattern : Pattern α} {a : α} {u : List α}
    (h : (pattern.derive a).Matches u) : pattern.Matches (a :: u) := by
  induction pattern generalizing u with
  | never => cases h
  | empty => cases h
  | one accept =>
      rw [derive] at h
      split_ifs at h with haccept
      · cases h
        exact Matches.one haccept
      · cases h
  | seq first second ihFirst ihSecond =>
      rw [derive] at h
      split_ifs at h with hnullable
      · cases h with
        | left h =>
            cases h with
            | seq hfirst hsecond =>
                exact Matches.seq (ihFirst hfirst) hsecond
        | right h =>
            exact Matches.seq ((nullable_iff first).mp hnullable) (ihSecond h)
      · cases h with
        | seq hfirst hsecond => exact Matches.seq (ihFirst hfirst) hsecond
  | alt left right ihLeft ihRight =>
      cases h with
      | left h => exact Matches.left (ihLeft h)
      | right h => exact Matches.right (ihRight h)
  | star pattern ih =>
      cases h with
      | seq hfirst hrest => exact Matches.starCons (ih hfirst) hrest

theorem Matches.derive {pattern : Pattern α} {a : α} {u w : List α}
    (h : pattern.Matches w) (hw : w = a :: u) :
    (pattern.derive a).Matches u := by
  induction h generalizing u with
  | empty => cases hw
  | one haccept =>
      cases hw
      rw [Pattern.derive, if_pos haccept]
      exact Matches.empty
  | @seq first second v w hfirst hsecond ihFirst ihSecond =>
      rw [Pattern.derive]
      cases v with
      | nil =>
          rw [if_pos ((nullable_iff first).mpr hfirst)]
          exact Matches.right (ihSecond hw)
      | cons b v =>
          cases hw
          have hseq := Matches.seq (ihFirst rfl) hsecond
          split_ifs
          · exact Matches.left hseq
          · exact hseq
  | left _ ih => exact Matches.left (ih hw)
  | right _ ih => exact Matches.right (ih hw)
  | starNil => cases hw
  | @starCons pattern v w _ hrest ihFirst ihRest =>
      cases v with
      | nil => exact ihRest hw
      | cons b v =>
          cases hw
          exact Matches.seq (ihFirst rfl) hrest

theorem accepts_iff (pattern : Pattern α) (text : List α) :
    pattern.accepts text = true ↔ pattern.Matches text := by
  induction text generalizing pattern with
  | nil => exact nullable_iff pattern
  | cons a text ih =>
      rw [accepts, ih]
      constructor
      · exact Matches.of_derive
      · intro h
        exact h.derive rfl

def uses : Pattern α → α → Bool
  | .never, _ => false
  | .empty, _ => false
  | .one accept, a => accept a
  | .seq first second, a => first.uses a || second.uses a
  | .alt left right, a => left.uses a || right.uses a
  | .star pattern, a => pattern.uses a

theorem Matches.uses {pattern : Pattern α} {u : List α}
    (h : pattern.Matches u) : ∀ a ∈ u, pattern.uses a = true := by
  induction h with
  | empty => simp
  | one haccept =>
      intro b hb
      rw [List.mem_singleton.mp hb]
      exact haccept
  | seq _ _ ihFirst ihSecond =>
      intro a ha
      rw [Pattern.uses, Bool.or_eq_true]
      rcases List.mem_append.mp ha with ha | ha
      · exact Or.inl (ihFirst a ha)
      · exact Or.inr (ihSecond a ha)
  | left _ ih =>
      intro a ha
      rw [Pattern.uses, ih a ha, Bool.true_or]
  | right _ ih =>
      intro a ha
      rw [Pattern.uses, ih a ha, Bool.or_true]
  | starNil => simp
  | starCons _ _ ihFirst ihRest =>
      intro a ha
      rcases List.mem_append.mp ha with ha | ha
      · exact ihFirst a ha
      · exact ihRest a ha

theorem Matches.star_of_forall {accept : α → Bool} {u : List α}
    (haccept : ∀ a ∈ u, accept a = true) :
    (Pattern.star (Pattern.one accept)).Matches u := by
  induction u with
  | nil => exact Matches.starNil
  | cons a u ih =>
      rw [List.forall_mem_cons] at haccept
      exact Matches.starCons (Matches.one haccept.1) (ih haccept.2)

/-- The length of the longest prefix that matches; zero where none does. -/
def longest (pattern : Pattern α) (text : List α) : ℕ :=
  Nat.findGreatest (fun length =>
    pattern.accepts (text.take length) = true) text.length

section Longest

variable {pattern : Pattern α} {text : List α}

theorem longest_le : pattern.longest text ≤ text.length :=
  Nat.findGreatest_le text.length

theorem le_longest {length : ℕ} (hle : length ≤ text.length)
    (hmatches : pattern.Matches (text.take length)) :
    length ≤ pattern.longest text :=
  Nat.le_findGreatest hle ((accepts_iff pattern _).mpr hmatches)

theorem matches_longest (hne : pattern.longest text ≠ 0) :
    pattern.Matches (text.take (pattern.longest text)) := by
  have haccepts := Nat.findGreatest_of_ne_zero rfl hne
  exact (accepts_iff pattern _).mp haccepts

theorem longest_eq_length (hmatches : pattern.Matches text) :
    pattern.longest text = text.length := by
  apply le_antisymm longest_le
  apply le_longest le_rfl
  rwa [List.take_length]

end Longest

end Pattern

/-! ## The scanner -/

structure Rule (α β : Type) where
  pattern : Pattern α
  action : β

def scanLength (rules : List (Rule α β)) (text : List α) : ℕ :=
  (rules.map (fun rule => rule.pattern.longest text)).foldr max 0

/-- The rule that is applied and the length of what it matches. -/
def scan (rules : List (Rule α β)) (text : List α) :
    Option (Rule α β × ℕ) :=
  if scanLength rules text = 0 then none
  else
    (rules.find? (fun rule =>
      rule.pattern.longest text = scanLength rules text)).map
      (fun rule => (rule, scanLength rules text))

def lexemesWithin (rules : List (Rule α β)) :
    ℕ → List α → List (β × List α)
  | 0, _ => []
  | fuel + 1, text =>
      match scan rules text with
      | none => []
      | some (rule, length) =>
          (rule.action, text.take length) ::
            lexemesWithin rules fuel (text.drop length)

/-- The lexemes of a text with the actions of their rules; none is empty, so
there are at most as many as letters. -/
def lexemes (rules : List (Rule α β)) (text : List α) :
    List (β × List α) :=
  lexemesWithin rules text.length text

section Scan

variable {rules : List (Rule α β)} {text : List α}

theorem longest_le_scanLength {rule : Rule α β} (hrule : rule ∈ rules) :
    rule.pattern.longest text ≤ scanLength rules text := by
  induction rules with
  | nil => cases hrule
  | cons first rules ih =>
      simp only [scanLength, List.map_cons, List.foldr_cons, le_max_iff]
      rcases List.mem_cons.mp hrule with rfl | hrule
      · exact Or.inl le_rfl
      · exact Or.inr (ih hrule)

theorem scanLength_le : scanLength rules text ≤ text.length := by
  induction rules with
  | nil => exact Nat.zero_le _
  | cons first rules ih => exact max_le Pattern.longest_le ih

theorem scan_some {rule : Rule α β} {length : ℕ}
    (hscan : scan rules text = some (rule, length)) :
    rule ∈ rules ∧ 0 < length ∧ length ≤ text.length ∧
      rule.pattern.Matches (text.take length) := by
  rw [scan] at hscan
  split_ifs at hscan with hzero
  obtain ⟨found, hfound, hpair⟩ := Option.map_eq_some_iff.mp hscan
  cases hpair
  have heq := List.find?_some hfound
  rw [decide_eq_true_eq] at heq
  refine ⟨List.mem_of_find?_eq_some hfound, Nat.pos_of_ne_zero hzero,
    scanLength_le, ?_⟩
  rw [← heq] at hzero ⊢
  exact Pattern.matches_longest hzero

theorem lexemesWithin_eq {fuel fuel' : ℕ} (hfuel : text.length ≤ fuel)
    (hfuel' : text.length ≤ fuel') :
    lexemesWithin rules fuel text = lexemesWithin rules fuel' text := by
  have hnil (fuel : ℕ) : lexemesWithin rules fuel [] = [] := by
    cases fuel with
    | zero => rfl
    | succ fuel =>
        have hzero : scanLength rules [] = 0 := Nat.le_zero.mp scanLength_le
        rw [lexemesWithin, scan, if_pos hzero]
  induction fuel generalizing fuel' text with
  | zero =>
      rw [List.length_eq_zero_iff.mp (Nat.le_zero.mp hfuel), hnil, hnil]
  | succ fuel ih =>
      cases fuel' with
      | zero =>
          rw [List.length_eq_zero_iff.mp (Nat.le_zero.mp hfuel'), hnil, hnil]
      | succ fuel' =>
          rw [lexemesWithin, lexemesWithin]
          cases hscan : scan rules text with
          | none => rfl
          | some found =>
              obtain ⟨_, hpos, hle, _⟩ := scan_some hscan
              have hdrop : (text.drop found.2).length ≤ fuel := by
                rw [List.length_drop]
                omega
              have hdrop' : (text.drop found.2).length ≤ fuel' := by
                rw [List.length_drop]
                omega
              simp only [ih hdrop hdrop']

theorem lexemes_of_scan {rule : Rule α β} {length : ℕ}
    (hscan : scan rules text = some (rule, length)) :
    lexemes rules text = (rule.action, text.take length) ::
      lexemes rules (text.drop length) := by
  obtain ⟨_, hpos, hle, _⟩ := scan_some hscan
  have hfuel : text.length = text.length - 1 + 1 := by omega
  rw [lexemes, hfuel, lexemesWithin, hscan]
  have hdrop : (text.drop length).length ≤ text.length - 1 := by
    rw [List.length_drop]
    omega
  simp only [lexemes, lexemesWithin_eq hdrop le_rfl]

theorem exists_scan
    (htotal : ∀ a : α, ∃ rule ∈ rules, rule.pattern.Matches [a])
    (htext : text ≠ []) : ∃ rule length,
      scan rules text = some (rule, length) := by
  have hfound : ∀ rules : List (Rule α β), scanLength rules text ≠ 0 →
      ∃ rule ∈ rules, rule.pattern.longest text = scanLength rules text := by
    intro rules
    induction rules with
    | nil => exact fun h => absurd rfl h
    | cons first rules ih =>
        intro hne
        rcases le_total (scanLength rules text)
            (first.pattern.longest text) with hle | hle
        · exact ⟨first, List.mem_cons_self, (max_eq_left hle).symm⟩
        · have heq : scanLength (first :: rules) text =
              scanLength rules text := max_eq_right hle
          obtain ⟨rule, hrule, hlongest⟩ := ih (heq ▸ hne)
          exact ⟨rule, List.mem_cons_of_mem first hrule,
            hlongest.trans heq.symm⟩
  obtain ⟨a, rest, rfl⟩ := List.exists_cons_of_ne_nil htext
  obtain ⟨rule, hrule, hmatches⟩ := htotal a
  have hone : 1 ≤ rule.pattern.longest (a :: rest) :=
    Pattern.le_longest (by simp) (by simpa using hmatches)
  have hne : scanLength rules (a :: rest) ≠ 0 := by
    have hle := @longest_le_scanLength _ _ _ (a :: rest) _ hrule
    omega
  obtain ⟨first, hfirst, hlongest⟩ := hfound rules hne
  rw [scan, if_neg hne]
  cases hfind : rules.find? (fun rule =>
      rule.pattern.longest (a :: rest) = scanLength rules (a :: rest)) with
  | none =>
      have hnone := List.find?_eq_none.mp hfind first hfirst
      simp [hlongest] at hnone
  | some found => exact ⟨found, _, rfl⟩

/-- A text that a rule matches as a whole and no earlier rule does. -/
theorem lexemes_of_matches {earlier later : List (Rule α β)}
    {rule : Rule α β} (htext : text ≠ []) (hmatches : rule.pattern.Matches text)
    (hearlier : ∀ rule ∈ earlier, ¬rule.pattern.Matches text) :
    lexemes (earlier ++ rule :: later) text = [(rule.action, text)] := by
  have hrule : rule ∈ earlier ++ rule :: later := by simp
  have hlongest := Pattern.longest_eq_length hmatches
  have hpos : 0 < text.length := List.length_pos_iff.mpr htext
  have hlength : scanLength (earlier ++ rule :: later) text = text.length :=
    le_antisymm scanLength_le
      (hlongest.symm.trans_le (longest_le_scanLength hrule))
  have hfind : (earlier ++ rule :: later).find? (fun rule =>
      rule.pattern.longest text = text.length) = some rule := by
    have hnone : earlier.find? (fun rule =>
        rule.pattern.longest text = text.length) = none := by
      apply List.find?_eq_none.mpr
      intro first hfirst heq
      rw [decide_eq_true_eq] at heq
      have hne : first.pattern.longest text ≠ 0 := by omega
      have hwhole := Pattern.matches_longest hne
      rw [heq, List.take_length] at hwhole
      exact hearlier first hfirst hwhole
    rw [List.find?_append, hnone, Option.none_or]
    exact List.find?_cons_of_pos (by simpa using hlongest)
  have hscan : scan (earlier ++ rule :: later) text =
      some (rule, text.length) := by
    rw [scan, hlength, if_neg hpos.ne', hfind]
    rfl
  rw [lexemes_of_scan hscan, List.take_length, List.drop_length]
  rfl

end Scan

/-! ## Texts that are scanned apart -/

/-- No rule matches letters of both kinds at once. -/
def Separated (rules : List (Rule α β)) (white : α → Prop) : Prop :=
  ∀ rule ∈ rules, ∀ u, rule.pattern.Matches u →
    (∀ a ∈ u, white a) ∨ ∀ a ∈ u, ¬white a

def Boundary (white : α → Prop) (u v : List α) : Prop :=
  ∀ a ∈ u.getLast?, ∀ b ∈ v.head?, ¬(white a ↔ white b)

section Separated

variable {rules : List (Rule α β)} {white : α → Prop} {u v : List α}

theorem longest_append (hseparated : Separated rules white)
    (hu : u ≠ []) (hboundary : Boundary white u v) {rule : Rule α β}
    (hrule : rule ∈ rules) :
    rule.pattern.longest (u ++ v) = rule.pattern.longest u := by
  have hlength : (u ++ v).length = u.length + v.length :=
    List.length_append
  apply le_antisymm
  · by_cases hzero : rule.pattern.longest (u ++ v) = 0
    · rw [hzero]
      exact Nat.zero_le _
    have hmatches := Pattern.matches_longest hzero
    have hle := @Pattern.longest_le _ rule.pattern (u ++ v)
    generalize rule.pattern.longest (u ++ v) = length at hmatches hle ⊢
    by_cases hinside : length ≤ u.length
    · rw [List.take_append_of_le_length hinside] at hmatches
      exact Pattern.le_longest hinside hmatches
    · exfalso
      obtain ⟨b, rest, rfl⟩ : ∃ b rest, v = b :: rest := by
        cases v with
        | nil =>
            rw [List.length_nil] at hlength
            omega
        | cons b rest => exact ⟨b, rest, rfl⟩
      have hsplit : length = u.length + (length - u.length - 1 + 1) := by
        omega
      rw [hsplit, List.take_length_add_append, List.take_succ_cons]
        at hmatches
      have hdiffer := hboundary (u.getLast hu)
        (List.getLast?_eq_some_getLast hu) b rfl
      have hlast : u.getLast hu ∈
          u ++ b :: rest.take (length - u.length - 1) :=
        List.mem_append_left _ (List.getLast_mem hu)
      have hhead : b ∈ u ++ b :: rest.take (length - u.length - 1) :=
        List.mem_append_right _ List.mem_cons_self
      rcases hseparated rule hrule _ hmatches with hall | hall
      · exact hdiffer (iff_of_true (hall _ hlast) (hall b hhead))
      · exact hdiffer (iff_of_false (hall _ hlast) (hall b hhead))
  · by_cases hzero : rule.pattern.longest u = 0
    · rw [hzero]
      exact Nat.zero_le _
    have hle := @Pattern.longest_le _ rule.pattern u
    apply Pattern.le_longest (by omega)
    rw [List.take_append_of_le_length hle]
    exact Pattern.matches_longest hzero

theorem scan_append (hseparated : Separated rules white)
    (hu : u ≠ []) (hboundary : Boundary white u v) :
    scan rules (u ++ v) = scan rules u := by
  have hlongest : ∀ rule ∈ rules,
      rule.pattern.longest (u ++ v) = rule.pattern.longest u :=
    fun rule hrule => longest_append hseparated hu hboundary hrule
  have hlength : scanLength rules (u ++ v) = scanLength rules u := by
    rw [scanLength, scanLength, List.map_congr_left hlongest]
  have hfind : rules.find? (fun rule =>
        rule.pattern.longest (u ++ v) = scanLength rules u) =
      rules.find? (fun rule =>
        rule.pattern.longest u = scanLength rules u) :=
    List.find?_congr (fun rule hrule => by rw [hlongest rule hrule])
  rw [scan, scan, hlength, hfind]

/-- What meets at a boundary is scanned apart. -/
theorem lexemes_append
    (htotal : ∀ a : α, ∃ rule ∈ rules, rule.pattern.Matches [a])
    (hseparated : Separated rules white) (hboundary : Boundary white u v) :
    lexemes rules (u ++ v) = lexemes rules u ++ lexemes rules v := by
  induction hlength : u.length using Nat.strong_induction_on
    generalizing u with
  | _ length ih =>
      by_cases hu : u = []
      · rw [hu]
        rfl
      obtain ⟨rule, found, hscan⟩ := exists_scan htotal hu
      have hscan' := (scan_append hseparated hu hboundary).trans hscan
      obtain ⟨_, hpos, hle, _⟩ := scan_some hscan
      rw [lexemes_of_scan hscan, lexemes_of_scan hscan',
        List.take_append_of_le_length hle, List.drop_append_of_le_length hle,
        List.cons_append]
      have hrest : Boundary white (u.drop found) v := by
        intro a ha
        rw [List.getLast?_drop] at ha
        split_ifs at ha
        · cases ha
        · exact hboundary a ha
      rw [ih _ (by rw [List.length_drop]; omega) hrest rfl]

end Separated

end Flex

end NosqlDbms
