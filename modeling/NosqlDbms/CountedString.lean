import NosqlDbms.LittleEndian
import NosqlDbms.ThreeWay
import Mathlib.Tactic

/-!
# Counted strings

`String` of `utils/string.h`: a buffer with its length.  `string_ctor` fills
the buffer with `strncpy`, which stops at the first NUL and pads the rest with
zeros, so a buffer built this way is a fixed point of `strncpy`; the structure
carries that fact.
-/

namespace NosqlDbms

/-- `strncpy(dst, src, |src|)`. -/
def strncpy : List Byte → List Byte
  | [] => []
  | char :: rest =>
      if char = 0 then List.replicate (rest.length + 1) 0
      else char :: strncpy rest

@[simp] theorem length_strncpy (src : List Byte) :
    (strncpy src).length = src.length := by
  induction src with
  | nil => rfl
  | cons char rest ih =>
      by_cases hchar : char = 0
      · simp [strncpy, hchar]
      · simp [strncpy, hchar, ih]

theorem strncpy_strncpy (src : List Byte) :
    strncpy (strncpy src) = strncpy src := by
  induction src with
  | nil => rfl
  | cons char rest ih =>
      by_cases hchar : char = 0
      · simp [strncpy, hchar, List.replicate_succ]
      · simp [strncpy, hchar, ih]

structure Str where
  val : List Byte
  built : strncpy val = val

namespace Str

def cnt (str : Str) : ℕ := str.val.length

@[ext] theorem ext {first second : Str} (h : first.val = second.val) :
    first = second := by
  cases first
  cases second
  cases h
  rfl

instance : DecidableEq Str := fun first second =>
  decidable_of_iff (first.val = second.val)
    ⟨Str.ext, fun h => by rw [h]⟩

end Str

/-- `string_ctor`. -/
def stringCtor (val : List Byte) : Str where
  val := strncpy val
  built := strncpy_strncpy val

@[simp] theorem stringCtor_val (str : Str) : stringCtor str.val = str :=
  Str.ext str.built

@[simp] theorem cnt_stringCtor (val : List Byte) :
    (stringCtor val).cnt = val.length := length_strncpy val

/-- `strncmp(first, second, |first|)` of two buffers of one length. -/
def strncmp : List Byte → List Byte → ℤ
  | first :: rest, second :: rest' =>
      if first = second then
        if first = 0 then 0 else strncmp rest rest'
      else if second < first then 1 else -1
  | _, _ => 0

/-- `string_cmp`. -/
def stringCmp (first second : Str) : ℤ :=
  if second.cnt < first.cnt then 1
  else if first.cnt < second.cnt then -1
  else strncmp first.val second.val

theorem strncpy_replicate_of_zero {rest : List Byte}
    (hbuilt : strncpy (0 :: rest) = 0 :: rest) :
    rest = List.replicate rest.length 0 := by
  rw [strncpy, if_pos rfl, List.replicate_succ, List.cons.injEq] at hbuilt
  exact hbuilt.2.symm

theorem strncpy_tail {char : Byte} {rest : List Byte} (hchar : char ≠ 0)
    (hbuilt : strncpy (char :: rest) = char :: rest) :
    strncpy rest = rest := by
  rw [strncpy, if_neg hchar, List.cons.injEq] at hbuilt
  exact hbuilt.2

theorem strncmp_eq_zero_iff {first second : List Byte}
    (hlength : first.length = second.length)
    (hfirst : strncpy first = first) (hsecond : strncpy second = second) :
    strncmp first second = 0 ↔ first = second := by
  induction first generalizing second with
  | nil =>
      have hnil : second = [] := List.length_eq_zero_iff.mp hlength.symm
      simp [hnil, strncmp]
  | cons char rest ih =>
      cases second with
      | nil => simp at hlength
      | cons char' rest' =>
          have hlength' : rest.length = rest'.length := by
            simpa using hlength
          by_cases heq : char = char'
          · subst char'
            by_cases hzero : char = 0
            · subst char
              have hrest := strncpy_replicate_of_zero hfirst
              have hrest' := strncpy_replicate_of_zero hsecond
              rw [hlength', ← hrest'] at hrest
              simp [strncmp, hrest]
            · simp [strncmp, hzero,
                ih hlength' (strncpy_tail hzero hfirst)
                  (strncpy_tail hzero hsecond)]
          · by_cases hlt : char' < char
            · simp [strncmp, heq, hlt]
            · simp [strncmp, heq, hlt]

/-- Two strings built by `string_ctor` compare equal only when they are. -/
theorem stringCmp_eq_zero_iff (first second : Str) :
    stringCmp first second = 0 ↔ first = second := by
  unfold stringCmp
  by_cases hgt : second.cnt < first.cnt
  · have hne : first ≠ second := by
      rintro rfl
      exact lt_irrefl _ hgt
    simp [hgt, hne]
  · by_cases hlt : first.cnt < second.cnt
    · have hne : first ≠ second := by
        rintro rfl
        exact lt_irrefl _ hlt
      simp [hgt, hlt, hne]
    · have hlength : first.val.length = second.val.length := by
        unfold Str.cnt at hgt hlt
        omega
      rw [if_neg hgt, if_neg hlt,
        strncmp_eq_zero_iff hlength first.built second.built]
      exact ⟨Str.ext, fun h => by rw [h]⟩

theorem strncmp_swaps : CmpSwaps strncmp := by
  intro first second
  induction first generalizing second with
  | nil => cases second <;> simp [strncmp]
  | cons char rest ih =>
      cases second with
      | nil => simp [strncmp]
      | cons char' rest' =>
          rcases Nat.lt_trichotomy char char' with hlt | heq | hgt
          · simp [strncmp, hlt, hlt.ne, hlt.ne', hlt.not_gt]
          · subst char'
            by_cases hzero : char = 0
            · simp [strncmp, hzero]
            · simpa [strncmp, hzero] using ih rest'
          · simp [strncmp, hgt, hgt.ne, hgt.ne', hgt.not_gt]

theorem strncmp_trans {first second third : List Byte}
    (hlength : first.length = second.length)
    (hlength' : second.length = third.length)
    (hle : strncmp first second ≤ 0) (hle' : strncmp second third ≤ 0) :
    strncmp first third ≤ 0 := by
  induction first generalizing second third with
  | nil => simp [strncmp]
  | cons char₁ rest₁ ih =>
      obtain ⟨char₂, rest₂, rfl⟩ :=
        List.exists_cons_of_length_eq_add_one hlength.symm
      obtain ⟨char₃, rest₃, rfl⟩ :=
        List.exists_cons_of_length_eq_add_one (hlength.trans hlength').symm
      have hhead : ∀ {char char' : Byte} {rest rest' : List Byte},
          strncmp (char :: rest) (char' :: rest') ≤ 0 ↔
            char < char' ∨ char = char' ∧
              (char = 0 ∨ strncmp rest rest' ≤ 0) := by
        intro char char' rest rest'
        rcases Nat.lt_trichotomy char char' with hlt | heq | hgt
        · simp [strncmp, hlt, hlt.ne, hlt.not_gt]
        · subst char'
          by_cases hzero : char = 0 <;> simp [strncmp, hzero]
        · simp [strncmp, hgt, hgt.ne', hgt.not_gt]
      rw [hhead] at hle hle' ⊢
      rcases hle with hlt | ⟨rfl, hrest⟩
      · rcases hle' with hlt' | ⟨rfl, -⟩
        · exact .inl (hlt.trans hlt')
        · exact .inl hlt
      · rcases hle' with hlt' | ⟨rfl, hrest'⟩
        · exact .inl hlt'
        · refine .inr ⟨rfl, ?_⟩
          rcases hrest with hzero | hrest
          · exact .inl hzero
          · rcases hrest' with hzero | hrest'
            · exact .inl hzero
            · exact .inr (ih (by simpa using hlength)
                (by simpa using hlength') hrest hrest')

/-! ## The order of strings -/

theorem stringCmp_eq_cmpLex : stringCmp =
    cmpLex (fun first second => natCmp first.cnt second.cnt)
      (fun first second => strncmp first.val second.val) := by
  funext first second
  unfold stringCmp cmpLex natCmp
  by_cases hgt : second.cnt < first.cnt
  · simp [hgt]
  · by_cases hlt : first.cnt < second.cnt
    · simp [hgt, hlt]
    · simp [hgt, hlt]

theorem stringCmp_swaps : CmpSwaps stringCmp := by
  intro first second
  rw [stringCmp_eq_cmpLex]
  refine ((natCmp_swaps Str.cnt).lex_iff first second).mpr ?_
  intro _
  exact strncmp_swaps first.val second.val

theorem stringCmp_trans : CmpTrans stringCmp := by
  rw [stringCmp_eq_cmpLex]
  refine (natCmp_trans Str.cnt).lex (natCmp_swaps Str.cnt) ?_
  intro first second third hcnt hcnt'
  exact strncmp_trans ((natCmp_eq_zero_iff _ _).mp hcnt)
    ((natCmp_eq_zero_iff _ _).mp hcnt')

end NosqlDbms
