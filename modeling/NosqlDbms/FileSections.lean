import NosqlDbms.ExtentsCompress
import NosqlDbms.File
import Mathlib.Tactic

/-!
# Sections of a file do not disturb each other

`file.Holds P` says that the sections lie side by side behind the header of
the file and that each of them satisfies `P`.  An operation on one section
stays inside it, so whatever `P` says about the others goes on to hold.
-/

namespace NosqlDbms

/-- A property of the sections of a file, by kind and position in the list. -/
abbrev SectPred : Type := SectKind → ℕ → Sect → Prop

/-- It looks at the section's own part of the file only. -/
structure SectPred.Local (P : SectPred) : Prop where
  frame : ∀ {kind index sect} {file : Storage}, P kind index sect →
    (∀ position, position < 8192 →
      file.cell (sect.head.fileOffset + position) =
        sect.file.cell (sect.head.fileOffset + position)) →
    sect.file.size ≤ file.size → P kind index ⟨sect.head, file⟩

namespace File

structure Placed (file : File) : Prop where
  lsp_ge : 8 ≤ file.lstSectPtr
  low : ∀ {kind index head}, file.headAt kind index = some head →
    8 ≤ head.fileOffset
  high : ∀ {kind index head}, file.headAt kind index = some head →
    head.fileOffset + 8192 ≤ file.lstSectPtr
  apart : ∀ {kind index head kind' index' head'},
    file.headAt kind index = some head →
    file.headAt kind' index' = some head' →
    (kind, index) ≠ (kind', index') →
    head.fileOffset + 8192 ≤ head'.fileOffset ∨
      head'.fileOffset + 8192 ≤ head.fileOffset

structure Holds (file : File) (P : SectPred) : Prop where
  placed : file.Placed
  sect : ∀ {kind index head}, file.headAt kind index = some head →
    P kind index ⟨head, file.storage⟩

/-! ## Looking up sections -/

@[simp] theorem sects_withSects_self (file : File) (kind : SectKind)
    (sects : List SectHead) : (file.withSects kind sects).sects kind =
      sects := by
  cases kind <;> rfl

theorem sects_withSects_of_ne (file : File) {kind kind' : SectKind}
    (sects : List SectHead) (hne : kind' ≠ kind) :
    (file.withSects kind sects).sects kind' = file.sects kind' := by
  cases kind <;> cases kind' <;> first | rfl | exact absurd rfl hne

@[simp] theorem lstSectPtr_withSects (file : File) (kind : SectKind)
    (sects : List SectHead) :
    (file.withSects kind sects).lstSectPtr = file.lstSectPtr := by
  cases kind <;> rfl

theorem headAt_congr {file file' : File} {kind : SectKind}
    (hsects : file'.sects kind = file.sects kind) (index : ℕ) :
    file'.headAt kind index = file.headAt kind index := by
  rw [headAt, headAt, hsects]

@[simp] theorem sects_with_storage (file : File) (storage : Storage)
    (kind : SectKind) :
    ({ file with storage := storage } : File).sects kind =
      file.sects kind := by
  cases kind <;> rfl

section PutSect

variable {file : File} {kind kind' : SectKind} {index index' : ℕ}
  {head : SectHead} {sect : Sect}

@[simp] theorem putSect_storage :
    (file.putSect kind index sect).storage = sect.file := rfl

@[simp] theorem putSect_lstSectPtr :
    (file.putSect kind index sect).lstSectPtr = file.lstSectPtr :=
  lstSectPtr_withSects _ _ _

theorem sects_putSect_self : (file.putSect kind index sect).sects kind =
    (file.sects kind).set index sect.head := by
  rw [putSect, sects_with_storage, sects_withSects_self]

theorem sects_putSect_of_ne (hne : kind' ≠ kind) :
    (file.putSect kind index sect).sects kind' = file.sects kind' := by
  rw [putSect, sects_with_storage, sects_withSects_of_ne _ _ hne]

theorem sects_putSect_of_head
    (hhead : file.headAt kind index = some head)
    (heq : sect.head = head) (kind' : SectKind) :
    (file.putSect kind index sect).sects kind' = file.sects kind' := by
  by_cases hkind : kind' = kind
  · subst hkind
    obtain ⟨hlt, hget⟩ := List.getElem?_eq_some_iff.mp hhead
    rw [sects_putSect_self, heq]
    simp only [← hget, List.set_getElem_self]
  · exact sects_putSect_of_ne hkind

@[simp] theorem length_sects_putSect :
    ((file.putSect kind index sect).sects kind').length =
      (file.sects kind').length := by
  by_cases heq : kind' = kind
  · rw [heq, sects_putSect_self, List.length_set]
  · rw [sects_putSect_of_ne heq]

theorem headAt_putSect_self
    (hhead : file.headAt kind index = some head) :
    (file.putSect kind index sect).headAt kind index =
      some sect.head := by
  obtain ⟨hlt, -⟩ := List.getElem?_eq_some_iff.mp hhead
  rw [headAt, sects_putSect_self, List.getElem?_set_self hlt]

theorem headAt_putSect_of_ne (hne : (kind', index') ≠ (kind, index)) :
    (file.putSect kind index sect).headAt kind' index' =
      file.headAt kind' index' := by
  by_cases heq : kind' = kind
  · subst heq
    have hindex : index ≠ index' := fun heq => hne (by rw [heq])
    rw [headAt, headAt, sects_putSect_self, List.getElem?_set_ne hindex]
  · rw [headAt, headAt, sects_putSect_of_ne heq]

end PutSect

/-! ## One section changes -/

section Holds

variable {file file' : File} {P P' : SectPred} {kind : SectKind}
  {index : ℕ} {head : SectHead} {sect' : Sect}

theorem Placed.of_offsets (h : file.Placed)
    (hlsp : file.lstSectPtr ≤ file'.lstSectPtr)
    (hold : ∀ {kind index head'},
      file'.headAt kind index = some head' →
      ∃ head, file.headAt kind index = some head ∧
        head'.fileOffset = head.fileOffset) : file'.Placed where
  lsp_ge := h.lsp_ge.trans hlsp
  low := by
    intro kind index head' hhead'
    obtain ⟨head, hhead, hoffset⟩ := hold hhead'
    rw [hoffset]
    exact h.low hhead
  high := by
    intro kind index head' hhead'
    obtain ⟨head, hhead, hoffset⟩ := hold hhead'
    rw [hoffset]
    exact (h.high hhead).trans hlsp
  apart := by
    intro kind₁ index₁ head₁' kind₂ index₂ head₂' hhead₁' hhead₂' hne
    obtain ⟨head₁, hhead₁, hoffset₁⟩ := hold hhead₁'
    obtain ⟨head₂, hhead₂, hoffset₂⟩ := hold hhead₂'
    rw [hoffset₁, hoffset₂]
    exact h.apart hhead₁ hhead₂ hne

theorem Holds.putSect (h : file.Holds P) (hlocal : P.Local)
    (hhead : file.headAt kind index = some head)
    (hoffset : sect'.head.fileOffset = head.fileOffset)
    (hconfined : Storage.Confined head.fileOffset (head.fileOffset + 8192)
      file.storage sect'.file)
    (hsect : P' kind index sect')
    (hother : ∀ {kind' index' sect}, (kind', index') ≠ (kind, index) →
      P kind' index' sect → P' kind' index' sect) :
    (file.putSect kind index sect').Holds P' := by
  have hold : ∀ {kind' index' head'},
      (file.putSect kind index sect').headAt kind' index' = some head' →
      ∃ head₀, file.headAt kind' index' = some head₀ ∧
        head'.fileOffset = head₀.fileOffset := by
    intro kind' index' head' hhead'
    by_cases heq : (kind', index') = (kind, index)
    · rw [Prod.mk.injEq] at heq
      obtain ⟨rfl, rfl⟩ := heq
      rw [headAt_putSect_self hhead, Option.some.injEq] at hhead'
      exact ⟨head, hhead, by rw [← hhead', hoffset]⟩
    · rw [headAt_putSect_of_ne heq] at hhead'
      exact ⟨head', hhead', rfl⟩
  refine ⟨h.placed.of_offsets (by rw [putSect_lstSectPtr]) hold, ?_⟩
  intro kind' index' head' hhead'
  by_cases heq : (kind', index') = (kind, index)
  · rw [Prod.mk.injEq] at heq
    obtain ⟨rfl, rfl⟩ := heq
    rw [headAt_putSect_self hhead, Option.some.injEq] at hhead'
    rw [← hhead', putSect_storage]
    exact hsect
  · rw [headAt_putSect_of_ne heq] at hhead'
    have hapart := h.placed.apart hhead' hhead heq
    apply hother heq
    exact hlocal.frame (h.sect hhead')
      (fun position hlt => hconfined.cell _ (by simp only; omega))
      hconfined.size_le

theorem Holds.putHeader (h : file.Holds P) (hlocal : P.Local)
    (data : List Byte) (hdata : data.length = 8) :
    File.Holds { file with storage := file.storage.write 0 data } P := by
  refine ⟨h.placed.of_offsets le_rfl
    (fun {kind index head'} hhead' => ⟨head', ?_, rfl⟩), ?_⟩
  · rw [headAt_congr (sects_with_storage _ _ _)] at hhead'
    exact hhead'
  · intro kind index head hhead
    rw [headAt_congr (sects_with_storage _ _ _)] at hhead
    have hlow := h.placed.low hhead
    refine hlocal.frame (h.sect hhead) (fun position _ => ?_)
      (Storage.size_le_write _ _ _)
    exact Storage.cell_write_of_out (by simp only; omega)

end Holds

/-! ## Calls that only the log notices -/

structure Quiet (file file' : File) : Prop where
  lstSectPtr : file'.lstSectPtr = file.lstSectPtr
  sects : ∀ kind, file'.sects kind = file.sects kind
  cell : file'.storage.cell = file.storage.cell
  size : file'.storage.size = file.storage.size

namespace Quiet

variable {file file' file'' : File}

theorem refl : file.Quiet file := ⟨rfl, fun _ => rfl, rfl, rfl⟩

theorem trans (h : file.Quiet file') (h' : file'.Quiet file'') :
    file.Quiet file'' where
  lstSectPtr := h'.lstSectPtr.trans h.lstSectPtr
  sects := fun kind => (h'.sects kind).trans (h.sects kind)
  cell := h'.cell.trans h.cell
  size := h'.size.trans h.size

theorem putSect {kind : SectKind} {index : ℕ} {head : SectHead}
    {sect' : Sect} (hhead : file.headAt kind index = some head)
    (hquiet : Sect.Quiet ⟨head, file.storage⟩ sect') :
    file.Quiet (file.putSect kind index sect') where
  lstSectPtr := putSect_lstSectPtr
  sects := sects_putSect_of_head hhead hquiet.head
  cell := hquiet.cell
  size := hquiet.size

theorem holds {P : SectPred} (h : file.Quiet file') (hholds : file.Holds P)
    (hlocal : P.Local) : file'.Holds P := by
  refine ⟨hholds.placed.of_offsets h.lstSectPtr.ge
    (fun {kind index head'} hhead' => ⟨head', ?_, rfl⟩), ?_⟩
  · rw [← headAt_congr (h.sects _)]
    exact hhead'
  · intro kind index head hhead
    rw [headAt_congr (h.sects _)] at hhead
    exact hlocal.frame (hholds.sect hhead)
      (fun _ _ => congrFun h.cell _) h.size.ge

end Quiet

end File

/-! ## A new section -/

def Sect.fresh (offset : ℕ) (file : Storage) : Sect :=
  Sect.synced ⟨⟨SECTION_SIZE - sizeofSectHeadEntity, 0,
    sizeofSectHeadEntity, SECTION_SIZE, offset⟩, file⟩

@[simp] theorem Sect.fresh_fileOffset (offset : ℕ) (file : Storage) :
    (Sect.fresh offset file).head.fileOffset = offset := rfl

theorem Sect.fresh_confined (offset : ℕ) (file : Storage) :
    Storage.Confined offset (offset + 8192) file
      (Sect.fresh offset file).file := by
  apply Storage.Confined.write le_rfl
  rw [SectHead.length_bytes, sizeofSectHeadEntity]
  exact Nat.add_le_add_left (by norm_num) offset

namespace File

def extended (file : File) (kind : SectKind) : File :=
  { file.withSects kind (file.sects kind ++
      [(Sect.fresh file.lstSectPtr file.storage).head]) with
    lstSectPtr := file.lstSectPtr + SECTION_SIZE
    storage := (Sect.fresh file.lstSectPtr file.storage).file.write 0
      (wordBytes (file.lstSectPtr + SECTION_SIZE)) }

theorem fileAddSect_eq (file : File) (kind : SectKind) :
    fileAddSect kind sectHeadCtor file = .ok () (file.extended kind) := by
  cases kind <;> rfl

theorem sects_extended_self (file : File) (kind : SectKind) :
    (file.extended kind).sects kind = file.sects kind ++
      [(Sect.fresh file.lstSectPtr file.storage).head] := by
  cases kind <;> rfl

theorem sects_extended_of_ne (file : File) {kind kind' : SectKind}
    (hne : kind' ≠ kind) :
    (file.extended kind).sects kind' = file.sects kind' := by
  cases kind <;> cases kind' <;> first | rfl | exact absurd rfl hne

@[simp] theorem lstSectPtr_extended (file : File) (kind : SectKind) :
    (file.extended kind).lstSectPtr = file.lstSectPtr + 8192 := by
  cases kind <;> rfl

section Extended

variable {file : File} {P P' : SectPred} {kind kind' : SectKind}
  {index' : ℕ} {head' : SectHead}

theorem headAt_extended_new :
    (file.extended kind).headAt kind (file.sects kind).length =
      some (Sect.fresh file.lstSectPtr file.storage).head := by
  rw [headAt, sects_extended_self]
  simp

theorem headAt_extended_cases
    (hhead : (file.extended kind).headAt kind' index' = some head') :
    ((kind', index') = (kind, (file.sects kind).length) ∧
      head' = (Sect.fresh file.lstSectPtr file.storage).head) ∨
    ((kind', index') ≠ (kind, (file.sects kind).length) ∧
      file.headAt kind' index' = some head') := by
  by_cases heq : kind' = kind
  · subst heq
    rw [headAt, sects_extended_self] at hhead
    rcases Nat.lt_trichotomy index' (file.sects kind').length with
      hlt | hnew | hgt
    · right
      rw [List.getElem?_append_left hlt] at hhead
      refine ⟨fun heq => ?_, hhead⟩
      rw [Prod.mk.injEq] at heq
      omega
    · left
      subst hnew
      rw [List.getElem?_append_right le_rfl, Nat.sub_self,
        List.getElem?_cons_zero, Option.some.injEq] at hhead
      exact ⟨rfl, hhead.symm⟩
    · rw [List.getElem?_eq_none (by simp; omega)] at hhead
      cases hhead
  · right
    rw [headAt_congr (sects_extended_of_ne file heq)] at hhead
    exact ⟨fun hpair => heq (congrArg Prod.fst hpair), hhead⟩

theorem Placed.extended (h : file.Placed) (kind : SectKind) :
    (file.extended kind).Placed where
  lsp_ge := by
    have hge := h.lsp_ge
    rw [lstSectPtr_extended]
    omega
  low := by
    intro kind' index' head' hhead'
    rcases headAt_extended_cases hhead' with ⟨-, rfl⟩ | ⟨-, hold⟩
    · exact h.lsp_ge
    · exact h.low hold
  high := by
    intro kind' index' head' hhead'
    rw [lstSectPtr_extended]
    rcases headAt_extended_cases hhead' with ⟨-, rfl⟩ | ⟨-, hold⟩
    · rfl
    · have hhigh := h.high hold
      omega
  apart := by
    intro kind₁ index₁ head₁ kind₂ index₂ head₂ hhead₁ hhead₂ hne
    rcases headAt_extended_cases hhead₁ with ⟨heq₁, rfl⟩ | ⟨-, hold₁⟩
    · rcases headAt_extended_cases hhead₂ with ⟨heq₂, rfl⟩ | ⟨-, hold₂⟩
      · exact absurd (heq₁.trans heq₂.symm) hne
      · exact Or.inr (h.high hold₂)
    · rcases headAt_extended_cases hhead₂ with ⟨-, rfl⟩ | ⟨-, hold₂⟩
      · exact Or.inl (h.high hold₁)
      · exact h.apart hold₁ hold₂ hne

theorem cell_extended {position : ℕ} (hlow : 8 ≤ position)
    (hhigh : position < file.lstSectPtr) :
    (file.extended kind).storage.cell position =
      file.storage.cell position := by
  have hsync : (file.extended kind).storage.cell position =
      (Sect.fresh file.lstSectPtr file.storage).file.cell position :=
    Storage.cell_write_of_out (Or.inr (by
      rw [length_wordBytes]
      omega))
  rw [hsync]
  exact (Sect.fresh_confined file.lstSectPtr file.storage).cell _ (by omega)

theorem size_le_extended :
    file.storage.size ≤ (file.extended kind).storage.size :=
  (Sect.fresh_confined file.lstSectPtr file.storage).size_le.trans
    (Storage.size_le_write _ _ _)

theorem Holds.extended (h : file.Holds P) (hlocal : P.Local)
    (hlocal' : P'.Local)
    (hfresh : P' kind (file.sects kind).length
      (Sect.fresh file.lstSectPtr file.storage))
    (hother : ∀ {kind' index' sect},
      (kind', index') ≠ (kind, (file.sects kind).length) →
      P kind' index' sect → P' kind' index' sect) :
    (file.extended kind).Holds P' := by
  refine ⟨h.placed.extended kind, ?_⟩
  have hge := h.placed.lsp_ge
  intro kind' index' head' hhead'
  rcases headAt_extended_cases hhead' with ⟨heq, rfl⟩ | ⟨hne, hold⟩
  · rw [Prod.mk.injEq] at heq
    obtain ⟨rfl, rfl⟩ := heq
    refine hlocal'.frame hfresh (fun position _ => ?_)
      (Storage.size_le_write _ _ _)
    exact Storage.cell_write_of_out (Or.inr (by
      rw [length_wordBytes, Sect.fresh_fileOffset]
      omega))
  · have hlow := h.placed.low hold
    have hhigh := h.placed.high hold
    apply hother hne
    exact hlocal.frame (h.sect hold)
      (fun position hlt => cell_extended (by simp only; omega)
        (by simp only; omega)) size_le_extended

end Extended

/-! ## The first section that takes a call -/

section FirstFit

variable {α : Type} {file : File} {kind : SectKind} {index : ℕ}
  {head : SectHead} {call : Prog Sect α} {sect' : Sect} {value : α}

theorem onSect_of_ok (hhead : file.headAt kind index = some head)
    (hcall : call ⟨head, file.storage⟩ = .ok value sect') :
    onSect kind index call file =
      .ok value (file.putSect kind index sect') := by
  simp only [onSect, hhead, hcall, Outcome.mapState_ok]

theorem onSect_of_failed (hhead : file.headAt kind index = some head)
    (hcall : call ⟨head, file.storage⟩ = .failed sect') :
    onSect kind index call file =
      .failed (file.putSect kind index sect') := by
  simp only [onSect, hhead, hcall, Outcome.mapState_failed]

theorem sectHead_apply (hhead : file.headAt kind index = some head) :
    sectHead kind index file = .ok head file := by
  simp only [sectHead, hhead]

/-- What the loop finds: a section that takes the call, in a file where the
calls before it left no trace. -/
structure Found (file : File) (kind : SectKind) (call : Prog Sect α)
    (takes : ℕ → Prop) (file₁ : File) (index : ℕ) (head : SectHead)
    (value : α) (sect' : Sect) : Prop where
  quiet : file.Quiet file₁
  headAt : file₁.headAt kind index = some head
  takes : takes index
  call_eq : call ⟨head, file₁.storage⟩ = .ok value sect'

/-- The call fails without a trace where it is not taken. -/
def TakenWhere (file : File) (kind : SectKind) (call : Prog Sect α)
    (takes : ℕ → Prop) : Prop :=
  ∀ {index head storage}, file.headAt kind index = some head →
    storage.cell = file.storage.cell →
    storage.size = file.storage.size →
    (¬ takes index ∧ ∃ sect', call ⟨head, storage⟩ = .failed sect' ∧
      Sect.Quiet ⟨head, storage⟩ sect') ∨
    (takes index ∧ ∃ value sect', call ⟨head, storage⟩ = .ok value sect')

def HasFree (file : File) (kind : SectKind) (size index : ℕ) : Prop :=
  ∀ head, file.headAt kind index = some head → size ≤ head.freeSpace

theorem takenWhere_hasFree {size : ℕ}
    (hrefused : ∀ {sect : Sect}, sect.head.freeSpace < size →
      call sect = .failed sect)
    (htaken : ∀ {index head storage}, file.headAt kind index = some head →
      storage.cell = file.storage.cell → storage.size = file.storage.size →
      size ≤ head.freeSpace →
      ∃ value sect', call ⟨head, storage⟩ = .ok value sect') :
    file.TakenWhere kind call (file.HasFree kind size) := by
  intro index head storage hhead hcell hsize
  rcases Nat.lt_or_ge head.freeSpace size with hlt | hge
  · left
    refine ⟨fun hroom => ?_, _, hrefused hlt, ⟨rfl, rfl, rfl⟩⟩
    have hle := hroom head hhead
    omega
  · right
    refine ⟨fun head' hhead' => ?_, htaken hhead hcell hsize hge⟩
    rw [hhead, Option.some.injEq] at hhead'
    rw [← hhead']
    exact hge

theorem firstFit_spec {takes : ℕ → Prop} (count : ℕ) {index : ℕ}
    {file₀ : File} (hquiet : file₀.Quiet file)
    (hlength : index + count = (file₀.sects kind).length)
    (hcall : file₀.TakenWhere kind call takes) :
    (∃ file₁, firstFit kind call count index file = .ok none file₁ ∧
      file₀.Quiet file₁ ∧ ∀ index' < (file₀.sects kind).length,
        index ≤ index' → ¬ takes index') ∨
    ∃ file₁ index' head value sect',
      firstFit kind call count index file =
        .ok (some (index', value)) (file₁.putSect kind index' sect') ∧
      Found file₀ kind call takes file₁ index' head value sect' ∧
      ∀ earlier < index', index ≤ earlier → ¬ takes earlier := by
  induction count generalizing index file with
  | zero =>
      left
      refine ⟨file, rfl, hquiet, fun index' hlt hge => ?_⟩
      omega
  | succ count ih =>
      obtain ⟨head, hhead⟩ : ∃ head, file₀.headAt kind index = some head :=
        ⟨_, List.getElem?_eq_getElem
          (show index < (file₀.sects kind).length by omega)⟩
      have hhead' : file.headAt kind index = some head := by
        rw [headAt_congr (hquiet.sects kind), hhead]
      rw [firstFit]
      rcases hcall hhead hquiet.cell hquiet.size with
        ⟨hnot, sect', hfailed, hquiet'⟩ | ⟨htakes, value, sect', hok⟩
      · have hstatus := Prog.status_of_failed
          (onSect_of_failed hhead' hfailed)
        rw [Prog.bind_of_ok hstatus]
        have hnext := hquiet.trans (Quiet.putSect hhead' hquiet')
        rcases ih hnext (show index + 1 + count = _ by omega) with ⟨file₁, hnone, hquiet₁, hall⟩ |
          ⟨file₁, index', head', value, sect'', hsome, hfound, hall⟩
        · refine Or.inl ⟨file₁, hnone, hquiet₁, fun index' hlt hge => ?_⟩
          rcases Nat.eq_or_lt_of_le hge with rfl | hgt
          · exact hnot
          · exact hall index' hlt hgt
        · refine Or.inr ⟨file₁, index', head', value, sect'', hsome, hfound,
            fun earlier hlt hge => ?_⟩
          rcases Nat.eq_or_lt_of_le hge with rfl | hgt
          · exact hnot
          · exact hall earlier hlt hgt
      · have hstatus := Prog.status_of_ok (onSect_of_ok hhead' hok)
        right
        refine ⟨file, index, head, value, sect', ?_,
          ⟨hquiet, hhead', htakes, hok⟩, fun earlier hlt hge => ?_⟩
        · rw [Prog.bind_of_ok hstatus]
          rfl
        · omega

theorem firstSect_spec {takes : ℕ → Prop}
    (hcall : file.TakenWhere kind call takes) :
    (∃ file₁, firstSect kind call file = .ok none file₁ ∧
      file.Quiet file₁ ∧
      ∀ index < (file.sects kind).length, ¬ takes index) ∨
    ∃ file₁ index head value sect',
      firstSect kind call file =
        .ok (some (index, value)) (file₁.putSect kind index sect') ∧
      Found file kind call takes file₁ index head value sect' ∧
      ∀ earlier < index, ¬ takes earlier := by
  rw [firstSect, Prog.bind_of_ok (Prog.get_apply file)]
  rcases firstFit_spec (file.sects kind).length .refl (Nat.zero_add _)
    hcall with ⟨file₁, hnone, hquiet, hall⟩ |
    ⟨file₁, index, head, value, sect', hsome, hfound, hall⟩
  · exact Or.inl ⟨file₁, hnone, hquiet,
      fun index hlt => hall index hlt (Nat.zero_le _)⟩
  · exact Or.inr ⟨file₁, index, head, value, sect', hsome, hfound,
      fun earlier hlt => hall earlier hlt (Nat.zero_le _)⟩

/-- Without a section that takes the call a new one gets it. -/
theorem fileFit_spec {takes : ℕ → Prop}
    (hcall : file.TakenWhere kind call takes) :
    (∃ file₁ index head value sect',
      fileFit kind (fileAddSect kind sectHeadCtor) call file =
        .ok (index, value) (file₁.putSect kind index sect') ∧
      Found file kind call takes file₁ index head value sect') ∨
    ∃ file₁, file.Quiet file₁ ∧
      (∀ index < (file.sects kind).length, ¬ takes index) ∧
      fileFit kind (fileAddSect kind sectHeadCtor) call file =
        (onSect kind (file.sects kind).length call >>= fun value =>
          pure ((file.sects kind).length, value))
            (file₁.extended kind) := by
  rcases firstSect_spec hcall with ⟨file₁, hnone, hquiet, hall⟩ |
    ⟨file₁, index, head, value, sect', hsome, hfound, -⟩
  · refine Or.inr ⟨file₁, hquiet, hall, ?_⟩
    rw [fileFit, Prog.bind_of_ok hnone, ← hquiet.sects kind]
    simp only
    rw [Prog.bind_of_ok (Prog.get_apply file₁),
      Prog.bind_of_ok (fileAddSect_eq file₁ kind)]
  · refine Or.inl ⟨file₁, index, head, value, sect', ?_, hfound⟩
    rw [fileFit, Prog.bind_of_ok hsome]
    rfl

end FirstFit

/-! ## The section around an offset -/

section Around

variable {α : Type} {file : File} {kind : SectKind} {index foff : ℕ}
  {head : SectHead}

theorem Placed.getSect_eq (h : file.Placed)
    (hhead : file.headAt kind index = some head)
    (hlow : head.fileOffset ≤ foff)
    (hhigh : foff < head.fileOffset + 8192) :
    getSect kind foff file = .ok (some index) file := by
  have hfind : (file.sects kind).findIdx? (fun head =>
      decide (head.fileOffset ≤ foff) &&
        decide (foff < head.fileOffset + SECTION_SIZE)) = some index := by
    rw [List.findIdx?_eq_some_iff_getElem]
    obtain ⟨hlt, hget⟩ := List.getElem?_eq_some_iff.mp hhead
    refine ⟨hlt, ?_, fun earlier hearlier => ?_⟩
    · rw [hget]
      simp [hlow, hhigh, SECTION_SIZE]
    · have hhead' : file.headAt kind earlier =
          some (file.sects kind)[earlier] := List.getElem?_eq_getElem _
      have hapart := h.apart hhead' hhead (fun heq => by
        rw [Prod.mk.injEq] at heq
        omega)
      intro htest
      rw [Bool.and_eq_true, decide_eq_true_eq, decide_eq_true_eq] at htest
      obtain ⟨hlow', hhigh'⟩ := htest
      rw [SECTION_SIZE] at hhigh'
      omega
  rw [getSect, Prog.bind_of_ok (Prog.get_apply file), hfind,
    Prog.pure_apply]

theorem Placed.fileAt_ok (h : file.Placed) {call : ℕ → Prog Sect α}
    {value : α} {sect' : Sect} {soff : ℕ}
    (hhead : file.headAt kind index = some head) (hsoff : soff < 8192)
    (hcall : call soff ⟨head, file.storage⟩ = .ok value sect') :
    fileAt kind (head.fileOffset + soff) call file =
      .ok (index, value) (file.putSect kind index sect') := by
  have hsectoff : sectHeadGetSectoff head (head.fileOffset + soff) =
      soff := by
    rw [sectHeadGetSectoff, Nat.add_sub_cancel_left]
  rw [fileAt, Prog.bind_of_ok
    (h.getSect_eq hhead (Nat.le_add_right _ _) (by omega))]
  simp only
  rw [Prog.bind_of_ok (sectHead_apply hhead), hsectoff,
    Prog.bind_of_ok (onSect_of_ok hhead hcall), Prog.pure_apply]

theorem fileSectFileoff_eq {soff : ℕ}
    (hhead : file.headAt kind index = some head) (hsoff : soff < 2 ^ 63) :
    fileSectFileoff kind index soff file =
      .ok (head.fileOffset + soff) file := by
  rw [fileSectFileoff, Prog.bind_of_ok (sectHead_apply hhead),
    sectHeadGetFileoff_of_lt hsoff, Prog.pure_apply, Int.toNat_natCast]

end Around

end File

end NosqlDbms
