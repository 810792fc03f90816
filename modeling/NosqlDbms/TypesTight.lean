import NosqlDbms.TypesDelete
import Mathlib.Tactic

/-!
# Types sections are kept tight

Between the header and the item border there may be holes, but the last slots
are those of a live type; between the record border and the end of the section
everything that is no live name is zero, and the border is at the lowest name.
This is what lets the two scans of a deletion find the borders again.
-/

namespace NosqlDbms

structure TypesTight (sect : Sect) (entries : List (Option TypeEntry)) :
    Prop extends TypesLayout sect entries where
  last : LiveLast entries
  gap : ∀ position, sect.head.fstRecPtr ≤ position → position < 8192 →
    (∀ soff entry, (soff, entry) ∈ liveFrom 32 entries →
      position < entry.start ∨ entry.stop ≤ position) →
        sect.file.cell (sect.head.fileOffset + position) = 0
  lowest : sect.head.fstRecPtr = 8192 ∨ ∃ soff entry,
    (soff, entry) ∈ liveFrom 32 entries ∧
      entry.start = sect.head.fstRecPtr

theorem sectTypesCtor_tight (offset : ℕ) (head₀ : SectHead)
    (file₀ : Storage) :
    ∃ sect, sectTypesCtor offset ⟨head₀, file₀⟩ = .ok () sect ∧
      TypesTight sect [] ∧ sect.head.fileOffset = offset := by
  have hsize : offset + 32 ≤ (file₀.write offset
      (SectHead.bytes ⟨8160, 0, 32, 8192, offset⟩)).size := by
    rw [Storage.size_write, SectHead.length_bytes]
    exact le_max_right _ _
  refine ⟨_, rfl, ?_, rfl⟩
  constructor
  · constructor
    · rfl
    · simp [sizeofSectHeadEntity, SECTION_SIZE]
    · exact le_rfl
    · rfl
    · trivial
    · exact fun hmem => absurd hmem List.not_mem_nil
    · exact fun hmem => absurd hmem List.not_mem_nil
    · exact List.Pairwise.nil
    · exact hsize
    · exact fun hlt => absurd hlt (lt_irrefl _)
  · exact .inl rfl
  · intro position hlow hhigh
    simp only [SECTION_SIZE] at hlow
    omega
  · exact .inl rfl

theorem nextNonzero_stop (cell : ℕ → Byte) (fuel position : ℕ) :
    nextNonzero cell fuel position = position + fuel ∨
      cell (nextNonzero cell fuel position) ≠ 0 := by
  induction fuel generalizing position with
  | zero => exact .inl rfl
  | succ fuel ih =>
      rw [nextNonzero]
      by_cases hzero : cell position = 0
      · rw [if_pos hzero]
        rcases ih (position + 1) with hend | hne
        · exact .inl (by omega)
        · exact .inr hne
      · rw [if_neg hzero]
        exact .inr hzero

section Tight

variable {sect sect' : Sect} {entries : List (Option TypeEntry)}

theorem TypesTight.write {type : DocType} (h : TypesTight sect entries)
    (hnamed : type.Named) (hfree : typePhSz type ≤ sect.head.freeSpace) :
    ∃ entry sect', sectTypesWrite type sect =
        .ok sect.head.lstItmPtr sect' ∧
      entry.type = type ∧ TypesTight sect' (entries ++ [some entry]) ∧
      sect'.head.fileOffset = sect.head.fileOffset := by
  obtain ⟨entry, sect', hwrite, htype, hlayout, hoffset, -, hadded⟩ :=
    h.toTypesLayout.write_spec hnamed hfree
  have hlip := h.lip
  have hlive : liveFrom 32 (entries ++ [some entry]) =
      liveFrom 32 entries ++ [(sect.head.lstItmPtr, entry)] := by
    rw [liveFrom_append, ← hlip]
    rfl
  have hself : (sect.head.lstItmPtr, entry) ∈
      liveFrom 32 (entries ++ [some entry]) := by
    rw [hlive]
    exact List.mem_append_right _ List.mem_cons_self
  refine ⟨entry, sect', hwrite, htype, ⟨hlayout, ?_, ?_, ?_⟩, hoffset⟩
  · exact .inr ⟨entries, entry, rfl⟩
  · intro position hlow hhigh hout
    have hnew := hout _ _ hself
    have hstop := hadded.stop
    have hfrp := hadded.frp
    have hlipLe := h.lip_le
    have hold := h.gap position (by omega) hhigh (fun soff entry' hmem =>
      hout soff entry' (by rw [hlive]; exact List.mem_append_left _ hmem))
    rw [hoffset, hadded.keep position (by omega) (by omega)]
    exact hold
  · exact .inr ⟨_, entry, hself, hadded.frp.symm⟩

/-- Where the scan of the record border stops after a deletion: at the lowest
name that is left. -/
theorem TypesLayout.scanStop_lowest (h : TypesLayout sect entries)
    (hgap : ∀ position, sect.head.fstRecPtr ≤ position → position < 8192 →
      (∀ soff entry, (soff, entry) ∈ liveFrom 32 entries →
        position < entry.start ∨ entry.stop ≤ position) →
          sect.file.cell (sect.head.fileOffset + position) = 0) :
    sect.scanStop = 8192 ∨ ∃ soff entry,
      (soff, entry) ∈ liveFrom 32 entries ∧ entry.start = sect.scanStop := by
  have hfrpLe := h.frp_le
  have hge : sect.head.fstRecPtr ≤ sect.scanStop := le_nextNonzero _ _ _
  have hle := nextNonzero_le (fun position =>
    sect.file.cell (sect.head.fileOffset + position))
    (8192 - sect.head.fstRecPtr) sect.head.fstRecPtr
  rcases nextNonzero_stop (fun position =>
      sect.file.cell (sect.head.fileOffset + position))
      (8192 - sect.head.fstRecPtr) sect.head.fstRecPtr with hend | hne
  · left
    rw [Sect.scanStop, hend]
    omega
  · by_cases htop : sect.scanStop = 8192
    · exact .inl htop
    · right
      rw [← Sect.scanStop] at hle
      have hcovered : ¬ ∀ soff entry, (soff, entry) ∈ liveFrom 32 entries →
          sect.scanStop < entry.start ∨ entry.stop ≤ sect.scanStop :=
        fun hout => hne (hgap sect.scanStop hge (by omega) hout)
      push Not at hcovered
      obtain ⟨soff, entry, hmem, hstart, -⟩ := hcovered
      exact ⟨soff, entry, hmem, le_antisymm hstart (h.scanStop_le hmem)⟩

theorem TypesTight.delete {before after : List (Option TypeEntry)}
    {entry : TypeEntry}
    (h : TypesTight sect (before ++ some entry :: after)) :
    ∃ sect' rest, sectTypesDelete (32 + spanOf before) sect =
        .ok () sect' ∧
      TypesTight sect' rest ∧
      TrimmedTo (before ++ (entry.cleared ++ after)) rest ∧
      sect'.head.fileOffset = sect.head.fileOffset := by
  obtain ⟨cleared, sect', rest, hdelete, hzeroed, hlayout, hcompressed,
    hlayout', htrim, hlast⟩ := h.toTypesLayout.delete_spec
  have hlive := htrim.liveFrom_eq 32
  have hlipLe := h.lip_le
  have hlip := h.lip
  have hspan : spanOf (before ++ some entry :: after) =
      spanOf before + (entry.span + spanOf after) := by
    rw [spanOf_append, spanOf_cons, Option.elim_some]
  have hoffset : cleared.head.fileOffset = sect.head.fileOffset := by
    rw [hzeroed.head]
  have hhead : cleared.head.fstRecPtr = sect.head.fstRecPtr := by
    rw [hzeroed.head]
  -- What is no live name any more is zero, the names of the type included.
  have hgap : ∀ position, cleared.head.fstRecPtr ≤ position →
      position < 8192 →
      (∀ soff entry', (soff, entry') ∈
          liveFrom 32 (before ++ (entry.cleared ++ after)) →
        position < entry'.start ∨ entry'.stop ≤ position) →
      cleared.file.cell (cleared.head.fileOffset + position) = 0 := by
    intro position hlow hhigh hout
    rw [hoffset]
    rw [hhead] at hlow
    by_cases hin : entry.start ≤ position ∧ position < entry.stop
    · exact hzeroed.names position hin.1 hin.2
    · rw [hzeroed.keep position (by omega) (by omega) (by omega)]
      apply h.gap position hlow hhigh
      intro soff entry' hmem
      rw [liveFrom_append, liveFrom, List.mem_append, List.mem_cons] at hmem
      rcases hmem with hbefore | hself | hafter
      · apply hout soff entry'
        rw [liveFrom_append]
        exact List.mem_append_left _ hbefore
      · rw [Prod.mk.injEq] at hself
        rw [hself.2]
        omega
      · apply hout soff entry'
        rw [liveFrom_append, liveFrom_append, entry.spanOf_cleared,
          TypeEntry.cleared, liveFrom_replicate, List.nil_append]
        exact List.mem_append_right _ hafter
  have hscan : cleared.head.fstRecPtr ≤ cleared.scanStop :=
    le_nextNonzero _ _ _
  have hoffset' : sect'.head.fileOffset = cleared.head.fileOffset :=
    hcompressed.fileOffset
  refine ⟨sect', rest, hdelete, ⟨hlayout', hlast, ?_, ?_⟩, htrim,
    hoffset'.trans hoffset⟩
  · intro position hlow hhigh hout
    rw [hcompressed.scan] at hlow
    rw [hoffset', hcompressed.keep position (by omega)]
    apply hgap position (by omega) hhigh
    intro soff entry' hmem
    rw [hlive] at hmem
    exact hout soff entry' hmem
  · rw [hcompressed.scan, ← hlive]
    exact hlayout.scanStop_lowest hgap

end Tight

end NosqlDbms
