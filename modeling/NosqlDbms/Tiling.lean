import Mathlib.Data.List.Range
import Mathlib.Tactic

/-!
# Blocks side by side

Blocks of one size that fill an interval without a gap, in whatever order
their starts are listed.
-/

namespace NosqlDbms

/-- The blocks of `size` from `starts` on fill the interval from `low` on. -/
def Tiles (low size : ℕ) (starts : List ℕ) : Prop :=
  starts.Perm ((List.range starts.length).map (fun index =>
    low + index * size))

namespace Tiles

variable {low size : ℕ} {starts left right : List ℕ}

theorem nil : Tiles low size [] := List.Perm.nil

theorem insert (h : Tiles low size (left ++ right)) :
    Tiles low size
      (left ++ (low + (left ++ right).length * size) :: right) := by
  have hlength : (left ++ (low + (left ++ right).length * size) ::
      right).length = (left ++ right).length + 1 := by
    simp only [List.length_append, List.length_cons]
    omega
  rw [Tiles, hlength, List.range_succ, List.map_append]
  exact List.perm_middle.trans
    ((h.cons _).trans (List.perm_append_singleton _ _).symm)

theorem mem_starts_iff (h : Tiles low size starts) {start : ℕ} :
    start ∈ starts ↔
      ∃ index < starts.length, start = low + index * size := by
  rw [List.Perm.mem_iff h, List.mem_map]
  constructor
  · rintro ⟨index, hindex, rfl⟩
    exact ⟨index, List.mem_range.mp hindex, rfl⟩
  · rintro ⟨index, hindex, rfl⟩
    exact ⟨index, List.mem_range.mpr hindex, rfl⟩

theorem nodup (h : Tiles low size starts) (hsize : 0 < size) :
    starts.Nodup := by
  rw [List.Perm.nodup_iff h]
  apply List.Nodup.map _ List.nodup_range
  intro first second heq
  exact Nat.eq_of_mul_eq_mul_right hsize (Nat.add_left_cancel heq)

theorem low_le (h : Tiles low size starts) {start : ℕ}
    (hmem : start ∈ starts) : low ≤ start := by
  obtain ⟨index, -, rfl⟩ := h.mem_starts_iff.mp hmem
  exact Nat.le_add_right _ _

theorem stop_le (h : Tiles low size starts) {start : ℕ}
    (hmem : start ∈ starts) :
    start + size ≤ low + starts.length * size := by
  obtain ⟨index, hindex, rfl⟩ := h.mem_starts_iff.mp hmem
  have hmul := Nat.mul_le_mul_right size (Nat.succ_le_of_lt hindex)
  rw [Nat.succ_mul] at hmul
  omega

theorem apart (h : Tiles low size starts) {first second : ℕ}
    (hfirst : first ∈ starts) (hsecond : second ∈ starts)
    (hne : first ≠ second) :
    first + size ≤ second ∨ second + size ≤ first := by
  obtain ⟨index, -, rfl⟩ := h.mem_starts_iff.mp hfirst
  obtain ⟨index', -, rfl⟩ := h.mem_starts_iff.mp hsecond
  rcases Nat.lt_trichotomy index index' with hlt | rfl | hgt
  · left
    have hmul := Nat.mul_le_mul_right size (Nat.succ_le_of_lt hlt)
    rw [Nat.succ_mul] at hmul
    omega
  · exact absurd rfl hne
  · right
    have hmul := Nat.mul_le_mul_right size (Nat.succ_le_of_lt hgt)
    rw [Nat.succ_mul] at hmul
    omega

theorem cover_iff (h : Tiles low size starts) (hsize : 0 < size)
    {point : ℕ} :
    low ≤ point ∧ point < low + starts.length * size ↔
      ∃ start ∈ starts, start ≤ point ∧ point < start + size := by
  constructor
  · rintro ⟨hlow, hhigh⟩
    have hdiv := Nat.div_add_mod' (point - low) size
    have hmod := Nat.mod_lt (point - low) hsize
    refine ⟨low + (point - low) / size * size, ?_, by omega, by omega⟩
    refine h.mem_starts_iff.mpr ⟨(point - low) / size, ?_, rfl⟩
    rw [Nat.div_lt_iff_lt_mul hsize]
    omega
  · rintro ⟨start, hmem, hstart, hstop⟩
    have hlow := h.low_le hmem
    have hhigh := h.stop_le hmem
    omega

end Tiles

end NosqlDbms
