import NosqlDbms.RandomAccessFile
import Mathlib.Data.Nat.Digits.Lemmas
import Mathlib.Tactic

/-!
# Numbers in little-endian cells

A machine word is stored with its least significant byte first.  The last cell
takes what is left of the number, so the encoding loses nothing and agrees
with the machine's on every number that fits the width.
-/

namespace NosqlDbms

def leBytes : ℕ → ℕ → List Byte
  | 0, _ => []
  | 1, value => [value]
  | width + 2, value => value % 256 :: leBytes (width + 1) (value / 256)

def leValue (data : List Byte) : ℕ := Nat.ofDigits 256 data

@[simp] theorem length_leBytes (width value : ℕ) :
    (leBytes width value).length = width := by
  induction width, value using leBytes.induct with
  | case1 value => rfl
  | case2 value => rfl
  | case3 width value ih => simp [leBytes, ih]

theorem leValue_leBytes (width value : ℕ) :
    leValue (leBytes (width + 1) value) = value := by
  induction width generalizing value with
  | zero => simp [leBytes, leValue]
  | succ width ih =>
      have htail := ih (value / 256)
      unfold leValue at htail ⊢
      rw [leBytes, Nat.ofDigits_cons, htail]
      simpa using Nat.mod_add_div value 256

theorem leBytes_zero (width : ℕ) :
    leBytes width 0 = List.replicate width 0 := by
  induction width with
  | zero => rfl
  | succ width ih =>
      cases width with
      | zero => rfl
      | succ width =>
          rw [leBytes, Nat.zero_mod, Nat.zero_div, ih]
          rfl

@[simp] theorem leValue_replicate_zero (width : ℕ) :
    leValue (List.replicate width 0) = 0 := by
  induction width with
  | zero => rfl
  | succ width ih =>
      unfold leValue at ih ⊢
      rw [List.replicate_succ, Nat.ofDigits_cons, ih]

/-! ## Records of 64-bit words -/

/-- The eight bytes of a `size_t` or a `uint64_t`. -/
def wordBytes (value : ℕ) : List Byte := leBytes 8 value

@[simp] theorem length_wordBytes (value : ℕ) :
    (wordBytes value).length = 8 := length_leBytes 8 value

@[simp] theorem leValue_wordBytes (value : ℕ) :
    leValue (wordBytes value) = value := leValue_leBytes 7 value

def wordsBytes (words : List ℕ) : List Byte := words.flatMap wordBytes

/-- The word at position `index` of a record. -/
def wordAt (data : List Byte) (index : ℕ) : ℕ :=
  leValue ((data.drop (8 * index)).take 8)

@[simp] theorem wordsBytes_nil : wordsBytes [] = [] := rfl

theorem wordsBytes_cons (word : ℕ) (words : List ℕ) :
    wordsBytes (word :: words) = wordBytes word ++ wordsBytes words := rfl

@[simp] theorem length_wordsBytes (words : List ℕ) :
    (wordsBytes words).length = 8 * words.length := by
  induction words with
  | nil => rfl
  | cons word words ih =>
      rw [wordsBytes_cons, List.length_append, ih, length_wordBytes,
        List.length_cons]
      ring

theorem wordAt_wordsBytes {words : List ℕ} {index : ℕ}
    (hindex : index < words.length) :
    wordAt (wordsBytes words) index = words[index] := by
  induction words generalizing index with
  | nil => simp at hindex
  | cons word words ih =>
      unfold wordAt at ih ⊢
      rw [wordsBytes_cons]
      cases index with
      | zero =>
          rw [Nat.mul_zero, List.drop_zero,
            List.take_left' (length_wordBytes word), leValue_wordBytes]
          rfl
      | succ index =>
          have hindex' : index < words.length := by
            simpa using hindex
          have hdrop : 8 * (index + 1) =
              (wordBytes word).length + 8 * index := by
            rw [length_wordBytes]
            ring
          rw [hdrop, List.drop_length_add_append, ih hindex']
          rfl

theorem wordsBytes_set (words : List ℕ) (index : ℕ) {word : ℕ}
    (hindex : index < words.length) :
    (wordsBytes words).take (8 * index) ++ wordBytes word ++
        (wordsBytes words).drop (8 * index + 8) =
      wordsBytes (words.set index word) := by
  induction words generalizing index with
  | nil => simp at hindex
  | cons first words ih =>
      cases index with
      | zero =>
          have hdrop : 8 * 0 + 8 = (wordBytes first).length := by simp
          rw [wordsBytes_cons, hdrop, List.drop_left]
          simp [wordsBytes_cons]
      | succ index =>
          have hindex' : index < words.length := by
            simpa using hindex
          have htake : 8 * (index + 1) =
              (wordBytes first).length + 8 * index := by
            rw [length_wordBytes]
            ring
          have hdrop : (wordBytes first).length + 8 * index + 8 =
              (wordBytes first).length + (8 * index + 8) := by ring
          rw [wordsBytes_cons, htake, hdrop, List.take_length_add_append,
            List.drop_length_add_append, List.set_cons_succ, wordsBytes_cons,
            ← ih index hindex']
          simp [List.append_assoc]

theorem wordsBytes_eq_zero_iff {words : List ℕ} :
    wordsBytes words = List.replicate (8 * words.length) 0 ↔
      ∀ word ∈ words, word = 0 := by
  constructor
  · intro hzero word hmem
    obtain ⟨index, hindex, rfl⟩ := List.getElem_of_mem hmem
    rw [← wordAt_wordsBytes hindex, hzero, wordAt, List.drop_replicate,
      List.take_replicate, leValue_replicate_zero]
  · intro hall
    rw [List.eq_replicate_of_mem hall]
    generalize words.length = count
    induction count with
    | zero => rfl
    | succ count ih =>
        rw [List.replicate_succ, wordsBytes_cons, List.length_cons, Nat.mul_add,
          Nat.add_comm, List.replicate_add, ih, wordBytes, leBytes_zero]

end NosqlDbms
