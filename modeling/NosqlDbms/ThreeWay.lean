import Mathlib.Tactic

/-!
# Three-way comparisons

A comparison in the manner of C is negative, zero or positive.  The laws of an
order are kept apart, because a comparison may have one without the other.
-/

namespace NosqlDbms

variable {α : Type}

/-- Swapping the arguments changes the sign. -/
def CmpSwaps (cmp : α → α → ℤ) : Prop :=
  ∀ a b, cmp a b < 0 ↔ 0 < cmp b a

def CmpTrans (cmp : α → α → ℤ) : Prop :=
  ∀ a b c, cmp a b ≤ 0 → cmp b c ≤ 0 → cmp a c ≤ 0

/-- `second` decides where `first` is zero. -/
def cmpLex (first second : α → α → ℤ) (a b : α) : ℤ :=
  if first a b ≠ 0 then first a b else second a b

theorem CmpSwaps.zero_symm {cmp : α → α → ℤ} (h : CmpSwaps cmp) {a b : α}
    (hzero : cmp a b = 0) : cmp b a = 0 := by
  have hlt := h a b
  have hgt := h b a
  omega

theorem CmpSwaps.le_iff {cmp : α → α → ℤ} (h : CmpSwaps cmp) (a b : α) :
    cmp a b ≤ 0 ↔ 0 ≤ cmp b a := by
  have hlt := h b a
  omega

theorem CmpSwaps.total {cmp : α → α → ℤ} (h : CmpSwaps cmp) (a b : α) :
    cmp a b ≤ 0 ∨ cmp b a ≤ 0 := by
  rw [h.le_iff a b]
  exact le_total 0 (cmp b a)

theorem CmpTrans.zero {cmp : α → α → ℤ} (h : CmpTrans cmp)
    (hswaps : CmpSwaps cmp) {a b c : α} (hab : cmp a b = 0)
    (hbc : cmp b c = 0) : cmp a c = 0 := by
  have hle := h a b c hab.le hbc.le
  have hge := h c b a (hswaps.zero_symm hbc).le (hswaps.zero_symm hab).le
  have hiff := hswaps.le_iff c a
  omega

theorem CmpTrans.lt {cmp : α → α → ℤ} (h : CmpTrans cmp)
    (hswaps : CmpSwaps cmp) {a b c : α} (hab : cmp a b ≤ 0)
    (hbc : cmp b c ≤ 0) (hstrict : cmp a b < 0 ∨ cmp b c < 0) :
    cmp a c < 0 := by
  by_contra hnot
  have hca : cmp c a ≤ 0 := (hswaps.le_iff c a).mpr (by omega)
  rcases hstrict with hlt | hlt
  · have hba := h b c a hbc hca
    have hpos := (hswaps a b).mp hlt
    omega
  · have hcb := h c a b hca hab
    have hpos := (hswaps b c).mp hlt
    omega

/-- The second comparison has to be transitive only, and only where the first
does not decide. -/
theorem CmpTrans.lex {first second : α → α → ℤ} (hfirst : CmpTrans first)
    (hswaps : CmpSwaps first)
    (hsecond : ∀ a b c, first a b = 0 → first b c = 0 →
      second a b ≤ 0 → second b c ≤ 0 → second a c ≤ 0) :
    CmpTrans (cmpLex first second) := by
  have hle : ∀ {a b}, cmpLex first second a b ≤ 0 → first a b ≤ 0 := by
    intro a b h
    unfold cmpLex at h
    by_cases hzero : first a b = 0
    · exact hzero.le
    · rwa [if_pos hzero] at h
  have hnext : ∀ {a b}, first a b = 0 → cmpLex first second a b ≤ 0 →
      second a b ≤ 0 := by
    intro a b hzero h
    rwa [cmpLex, if_neg (not_not.mpr hzero)] at h
  intro a b c hab hbc
  have hab' := hle hab
  have hbc' := hle hbc
  by_cases hstrict : first a b < 0 ∨ first b c < 0
  · have hlt := hfirst.lt hswaps hab' hbc' hstrict
    rw [cmpLex, if_pos hlt.ne]
    exact hlt.le
  · have hzero : first a b = 0 := by omega
    have hzero' : first b c = 0 := by omega
    rw [cmpLex, if_neg (not_not.mpr (hfirst.zero hswaps hzero hzero'))]
    exact hsecond a b c hzero hzero' (hnext hzero hab) (hnext hzero' hbc)

theorem CmpSwaps.lex_iff {first second : α → α → ℤ} (h : CmpSwaps first)
    (a b : α) :
    (cmpLex first second a b < 0 ↔ 0 < cmpLex first second b a) ↔
      (first a b = 0 → (second a b < 0 ↔ 0 < second b a)) := by
  by_cases hzero : first a b = 0
  · rw [cmpLex, cmpLex, if_neg (not_not.mpr hzero),
      if_neg (not_not.mpr (h.zero_symm hzero)), imp_iff_right hzero]
  · have hzero' : first b a ≠ 0 := fun hba => hzero (h.zero_symm hba)
    rw [cmpLex, cmpLex, if_pos hzero, if_pos hzero']
    exact iff_of_true (h a b) (fun habs => absurd habs hzero)

theorem cmpLex_eq_zero_iff {first second : α → α → ℤ} (a b : α) :
    cmpLex first second a b = 0 ↔ first a b = 0 ∧ second a b = 0 := by
  unfold cmpLex
  by_cases hzero : first a b = 0
  · rw [if_neg (not_not.mpr hzero), and_iff_right hzero]
  · rw [if_pos hzero]
    exact iff_of_false hzero (fun h => hzero h.1)

/-! ## Comparisons through a key -/

/-- The order of natural numbers, as `-1`, `0` or `1`. -/
def natCmp (first second : ℕ) : ℤ :=
  if second < first then 1 else if first < second then -1 else 0

theorem natCmp_eq_zero_iff (first second : ℕ) :
    natCmp first second = 0 ↔ first = second := by
  unfold natCmp
  by_cases hgt : second < first
  · rw [if_pos hgt]
    omega
  · by_cases hlt : first < second
    · rw [if_neg hgt, if_pos hlt]
      omega
    · rw [if_neg hgt, if_neg hlt]
      omega

theorem natCmp_nonpos_iff (first second : ℕ) :
    natCmp first second ≤ 0 ↔ first ≤ second := by
  unfold natCmp
  by_cases hgt : second < first
  · rw [if_pos hgt]
    omega
  · by_cases hlt : first < second
    · rw [if_neg hgt, if_pos hlt]
      omega
    · rw [if_neg hgt, if_neg hlt]
      omega

theorem natCmp_swaps (key : α → ℕ) :
    CmpSwaps (fun a b => natCmp (key a) (key b)) := by
  intro a b
  have hle := natCmp_nonpos_iff (key a) (key b)
  have hge := natCmp_nonpos_iff (key b) (key a)
  have hzero := natCmp_eq_zero_iff (key a) (key b)
  dsimp only
  omega

theorem natCmp_trans (key : α → ℕ) :
    CmpTrans (fun a b => natCmp (key a) (key b)) := by
  intro a b c hab hbc
  rw [natCmp_nonpos_iff] at hab hbc ⊢
  exact hab.trans hbc

end NosqlDbms
