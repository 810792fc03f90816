import NosqlDbms.HeadersRun
import NosqlDbms.ProgramSteps
import NosqlDbms.Tiling
import Mathlib.Tactic

/-!
# The partition of the file into sections

Runs of `file_add_type` and `file_write`.  Both kinds of sections come from one
counter, so the sections of the two lists together tile the file behind its
header, and an offset in the file names one section and one place in it.
-/

namespace NosqlDbms

inductive SectionsCall where
  | addType (type : DocType)
  | write (json : Json) (dadFileoff typeFoff : ℕ)

/-- The file after a call, when it returns, with either status. -/
def sectionsStep (call : SectionsCall) (file : File) : Option File :=
  match call with
  | .addType type => (fileAddType type file).final
  | .write json dadFileoff typeFoff =>
      (fileWrite json dadFileoff typeFoff file).final

/-- The files reached from `file_ctor`. -/
abbrev SectionsRun : File → Prop :=
  Run (fun file => ∃ file₀, fileCtor file₀ = .ok () file)
    (fun call file file' => sectionsStep call file = some file')
    (fun _ _ => True)

/-- The operations on a section that these calls make. -/
inductive SectCall : SectKind → Type where
  | extWrite (key : Str) (val : List Byte) (entity : Entity) :
      SectCall .extents
  | extWrtItm (soff : ℕ) (entity : Entity)
      (hsoff : soff + sizeofEntity ≤ SECTION_SIZE) : SectCall .extents
  | typesWrite (type : DocType) : SectCall .types

/-- The section after an operation, when it returns, with either status. -/
def SectCall.final {kind : SectKind} (call : SectCall kind) (sect : Sect) :
    Option Sect :=
  match call with
  | .extWrite key val entity => (sectExtWrite key val entity sect).final
  | .extWrtItm soff entity _ => (sectExtWrtItm soff entity sect).final
  | .typesWrite type => (sectTypesWrite type sect).final

def Sect.WritesInside (sect sect' : Sect) : Prop :=
  Storage.Within sect.head.fileOffset (sect.head.fileOffset + SECTION_SIZE)
    False sect.file sect'.file

/-- What the calls do to the file: the header of the file is written, a new
section is made behind the last one, or an operation on a section writes in
this section. -/
inductive File.Operates : File → File → Prop where
  | headSync (file : File) :
      Operates file { file with
        storage := file.storage.write 0 (wordBytes file.lstSectPtr) }
  | addSect (file : File) (kind : SectKind) :
      Operates file (file.extended kind)
  | onSect {file : File} {kind : SectKind} {index : ℕ} {head : SectHead}
      {sect' : Sect} (call : SectCall kind)
      (hhead : file.headAt kind index = some head)
      (hcall : call.final ⟨head, file.storage⟩ = some sect')
      (hinside : Sect.WritesInside ⟨head, file.storage⟩ sect') :
      Operates file (file.putSect kind index sect')

def SectHead.Covers (head : SectHead) (foff : ℕ) : Prop :=
  head.fileOffset ≤ foff ∧ foff < head.fileOffset + SECTION_SIZE

structure SectionsLaw (file : File) : Prop where
  lstSectPtr : file.lstSectPtr = sizeofFileHeadEntity +
    (file.extents.length + file.types.length) * SECTION_SIZE
  cover : ∀ foff, sizeofFileHeadEntity ≤ foff ∧ foff < file.lstSectPtr ↔
    ∃ kind index head, file.headAt kind index = some head ∧
      head.Covers foff
  disjoint : ∀ kind index head kind' index' head',
    file.headAt kind index = some head →
    file.headAt kind' index' = some head' →
    (kind, index) ≠ (kind', index') →
    ∀ foff, head.Covers foff → ¬ head'.Covers foff
  found : ∀ kind index head, file.headAt kind index = some head →
    ∀ soff < SECTION_SIZE,
      getSect kind (sectHeadGetFileoff head soff).toNat file =
        .ok (some index) file
  missing : ∀ kind index head, file.headAt kind index = some head →
    ∀ kind' ≠ kind, ∀ soff < SECTION_SIZE,
      getSect kind' (sectHeadGetFileoff head soff).toNat file =
        .ok none file
  inverse : ∀ kind index head, file.headAt kind index = some head →
    ∀ soff < SECTION_SIZE,
      sectHeadGetSectoff head (sectHeadGetFileoff head soff).toNat = soff
  writes : ∀ kind index head, file.headAt kind index = some head →
    ∀ (call : SectCall kind) (sect' : Sect),
      call.final ⟨head, file.storage⟩ = some sect' →
        Sect.WritesInside ⟨head, file.storage⟩ sect'
  operations : ∀ call file', sectionsStep call file = some file' →
    Relation.ReflTransGen File.Operates file file'
  typeAddress : ∀ type foff file',
    fileAddType type file = .ok foff file' → foff ≠ 0
  objectAddress : ∀ json dadFileoff typeFoff foff file',
    fileWrite json dadFileoff typeFoff file = .ok foff file' → foff ≠ 0

/-! ## Operations on one section -/

section SectCall

variable {sect sect' : Sect}

theorem Sect.Fills.refl {itmSize : ℕ} (hbalanced : sect.head.Balanced itmSize)
    (hbordered : sect.head.Bordered) : sect.Fills itmSize sect :=
  ⟨rfl, fun _ => Storage.Within.refl, hbalanced, hbordered⟩

theorem SectCall.fills {kind : SectKind} (call : SectCall kind)
    (hbalanced : sect.head.Balanced kind.itmSize)
    (hbordered : sect.head.Bordered)
    (hcall : call.final sect = some sect') :
    sect.Fills kind.itmSize sect' := by
  cases call with
  | extWrite key val entity =>
      rw [SectCall.final] at hcall
      by_cases hfits : sect.head.freeSpace < 80 + key.cnt + val.length
      · rw [sectExtWrite_refused hfits, Outcome.final_failed,
          Option.some.injEq] at hcall
        exact hcall ▸ .refl hbalanced hbordered
      · have hfree := hbalanced.free_eq hbordered.lip_le
        have hlipLe := hbordered.lip_le
        have hwritten := @sectExtWrite_eq sect key val entity (by omega)
          hbordered.frp_le (by omega)
        have hfills := sectExtWrite_fills hbalanced hbordered hwritten
        rw [hwritten, Outcome.final_ok, Option.some.injEq] at hcall
        exact hcall ▸ hfills.1
  | extWrtItm soff entity hsoff =>
      rw [sizeofEntity, SECTION_SIZE] at hsoff
      rw [SectCall.final, sectExtWrtItm, sectHeadWrite_of_lt _ (by omega),
        Outcome.final_ok, Option.some.injEq] at hcall
      rw [← hcall]
      exact ⟨rfl, fun reads => Sect.Within.putAt
        (by rw [Entity.length_bytes, sizeofEntity]; exact hsoff),
        hbalanced, hbordered⟩
  | typesWrite type =>
      rw [SectCall.final] at hcall
      by_cases hfits : sect.head.freeSpace < typePhSz type
      · rw [sectTypesWrite_refused hfits, Outcome.final_failed,
          Option.some.injEq] at hcall
        exact hcall ▸ .refl hbalanced hbordered
      · obtain ⟨after, hwritten, hfills, -⟩ :=
          sectTypesWrite_taken hbalanced hbordered hfits
        rw [hwritten, Outcome.final_ok, Option.some.injEq] at hcall
        exact hcall ▸ hfills

theorem SectCall.writesInside {kind : SectKind} (call : SectCall kind)
    (hbalanced : sect.head.Balanced kind.itmSize)
    (hbordered : sect.head.Bordered)
    (hcall : call.final sect = some sect') : sect.WritesInside sect' :=
  (call.fills hbalanced hbordered hcall).within False

end SectCall

/-! ## The invariant -/

def File.starts (file : File) : List ℕ :=
  (file.extents ++ file.types).map SectHead.fileOffset

/-- The sections tile the file behind its header, and their borders are in
order. -/
structure SectionsInv (file : File) : Prop where
  tiles : Tiles 8 8192 file.starts
  lsp : file.lstSectPtr = 8 + file.starts.length * 8192
  heads : ∀ {kind index head}, file.headAt kind index = some head →
    head.Balanced kind.itmSize ∧ head.Bordered

section Placed

variable {file : File} {kind kind' : SectKind} {index index' : ℕ}
  {head head' : SectHead}

theorem File.mem_starts (hhead : file.headAt kind index = some head) :
    head.fileOffset ∈ file.starts :=
  List.mem_map_of_mem (File.mem_heads.mpr ⟨kind, index, hhead⟩)

theorem SectionsInv.offset_ne (h : SectionsInv file)
    (hhead : file.headAt kind index = some head)
    (hhead' : file.headAt kind' index' = some head')
    (hne : (kind, index) ≠ (kind', index')) :
    head.fileOffset ≠ head'.fileOffset := by
  have hnodup := h.tiles.nodup (by norm_num)
  rw [File.starts, List.map_append, List.nodup_append] at hnodup
  obtain ⟨hextents, htypes, hdisjoint⟩ := hnodup
  have hsame : ∀ heads : List SectHead,
      (heads.map SectHead.fileOffset).Nodup → heads[index]? = some head →
      heads[index']? = some head' → index ≠ index' →
      head.fileOffset ≠ head'.fileOffset := by
    intro heads hnodup hget hget' hindex heq
    obtain ⟨hlt, -⟩ := List.getElem?_eq_some_iff.mp hget
    rw [← List.length_map SectHead.fileOffset] at hlt
    apply hindex
    apply (List.getElem?_inj hlt hnodup).mp
    rw [List.getElem?_map, List.getElem?_map, hget, hget', Option.map_some,
      Option.map_some, heq]
  have hmem : ∀ {heads : List SectHead} {index : ℕ} {head : SectHead},
      heads[index]? = some head →
      head.fileOffset ∈ heads.map SectHead.fileOffset :=
    fun hget => List.mem_map_of_mem (List.mem_of_getElem? hget)
  cases kind with
  | extents =>
      cases kind' with
      | extents =>
          exact hsame _ hextents hhead hhead'
            (fun heq => hne (by rw [heq]))
      | types => exact hdisjoint _ (hmem hhead) _ (hmem hhead')
  | types =>
      cases kind' with
      | extents => exact (hdisjoint _ (hmem hhead') _ (hmem hhead)).symm
      | types =>
          exact hsame _ htypes hhead hhead' (fun heq => hne (by rw [heq]))

theorem SectionsInv.placed (h : SectionsInv file) : file.Placed where
  lsp_ge := by
    rw [h.lsp]
    exact Nat.le_add_right _ _
  low := fun hhead => h.tiles.low_le (File.mem_starts hhead)
  high := by
    intro kind index head hhead
    rw [h.lsp]
    exact h.tiles.stop_le (File.mem_starts hhead)
  apart := fun hhead hhead' hne =>
    h.tiles.apart (File.mem_starts hhead) (File.mem_starts hhead')
      (h.offset_ne hhead hhead' hne)

end Placed

/-! ## What the steps keep -/

section Steps

variable {file : File} {kind : SectKind} {index : ℕ} {head : SectHead}
  {sect' : Sect}

theorem SectionsInv.headSync (h : SectionsInv file) :
    SectionsInv { file with
      storage := file.storage.write 0 (wordBytes file.lstSectPtr) } where
  tiles := h.tiles
  lsp := h.lsp
  heads := by
    intro kind index head hhead
    rw [File.headAt_congr (File.sects_with_storage _ _ _)] at hhead
    exact h.heads hhead

theorem SectionsInv.addSect (h : SectionsInv file) (kind : SectKind) :
    SectionsInv (file.extended kind) := by
  have hfresh : (Sect.fresh file.lstSectPtr file.storage).head.Balanced
      kind.itmSize := by
    refine ⟨?_, ?_, 0, ?_⟩
    · change 8160 < 2 ^ 64
      norm_num
    · rfl
    · rfl
  have hbordered :
      (Sect.fresh file.lstSectPtr file.storage).head.Bordered :=
    ⟨le_rfl, by change 32 ≤ 8192; norm_num, le_rfl⟩
  have hlsp := h.lsp
  obtain ⟨left, right, hold, hnew⟩ : ∃ left right,
      file.starts = left ++ right ∧
        (file.extended kind).starts = left ++ file.lstSectPtr :: right := by
    cases kind with
    | extents =>
        exact ⟨file.extents.map SectHead.fileOffset,
          file.types.map SectHead.fileOffset, by simp [File.starts],
          by simp [File.starts, File.extended, File.withSects, File.sects]⟩
    | types =>
        exact ⟨file.starts, [], by simp,
          by simp [File.starts, File.extended, File.withSects, File.sects]⟩
  refine ⟨?_, ?_, ?_⟩
  · have htiles := h.tiles
    rw [hold] at htiles hlsp
    rw [hnew, hlsp]
    exact htiles.insert
  · rw [hold] at hlsp
    rw [File.lstSectPtr_extended, hnew, hlsp]
    simp only [List.length_append, List.length_cons]
    omega
  · intro kind' index' head' hhead'
    rcases File.headAt_extended_cases hhead' with ⟨heq, rfl⟩ | ⟨-, hold⟩
    · rw [Prod.mk.injEq] at heq
      obtain ⟨rfl, -⟩ := heq
      exact ⟨hfresh, hbordered⟩
    · exact h.heads hold

theorem File.starts_putSect (hhead : file.headAt kind index = some head)
    (hoffset : sect'.head.fileOffset = head.fileOffset) :
    (file.putSect kind index sect').starts = file.starts := by
  have hset : ∀ heads : List SectHead, heads[index]? = some head →
      (heads.set index sect'.head).map SectHead.fileOffset =
        heads.map SectHead.fileOffset := by
    intro heads hget
    apply List.ext_getElem?
    intro position
    rw [List.map_set, List.getElem?_set, List.length_map]
    split_ifs with heq hlt
    · rw [← heq, List.getElem?_map, hget, hoffset]
      rfl
    · rw [← heq, List.getElem?_eq_none (by rw [List.length_map]; omega)]
    · rfl
  cases kind with
  | extents =>
      have hextents := hset file.extents hhead
      simp only [File.starts, File.putSect, File.withSects, File.sects,
        List.map_append, hextents]
  | types =>
      have htypes := hset file.types hhead
      simp only [File.starts, File.putSect, File.withSects, File.sects,
        List.map_append, htypes]

theorem SectionsInv.onSect (h : SectionsInv file)
    (hhead : file.headAt kind index = some head)
    (hfills : Sect.Fills kind.itmSize ⟨head, file.storage⟩ sect') :
    SectionsInv (file.putSect kind index sect') := by
  have hstarts := File.starts_putSect hhead hfills.fileOffset
  refine ⟨by rw [hstarts]; exact h.tiles, ?_, ?_⟩
  · rw [File.putSect_lstSectPtr, hstarts]
    exact h.lsp
  · intro kind' index' head' hhead'
    by_cases heq : (kind', index') = (kind, index)
    · rw [Prod.mk.injEq] at heq
      obtain ⟨rfl, rfl⟩ := heq
      rw [File.headAt_putSect_self hhead, Option.some.injEq] at hhead'
      exact hhead' ▸ ⟨hfills.balanced, hfills.bordered⟩
    · rw [File.headAt_putSect_of_ne heq] at hhead'
      exact h.heads hhead'

end Steps

/-! ## The calls as chains of steps -/

section Calls

open Prog

variable {α : Type} {kind : SectKind} {post : α → Prop}

theorem onSect_eq_ok {file file' : File} {index : ℕ} {call : Prog Sect α}
    {value : α} (hok : File.onSect kind index call file = .ok value file') :
    ∃ head sect', file.headAt kind index = some head ∧
      call ⟨head, file.storage⟩ = .ok value sect' ∧
      file.putSect kind index sect' = file' := by
  rw [File.onSect] at hok
  cases hhead : file.headAt kind index with
  | none =>
      rw [hhead] at hok
      cases hok
  | some head =>
      cases hcall : call ⟨head, file.storage⟩ with
      | ok value' sect' =>
          simp only [hhead, hcall, Outcome.mapState_ok] at hok
          injection hok with hvalue hfile
          subst hvalue
          exact ⟨head, sect', rfl, hcall, hfile⟩
      | failed sect' => simp [hhead, hcall] at hok
      | stuck => simp [hhead, hcall] at hok

theorem onSect_eq_failed {file file' : File} {index : ℕ} {call : Prog Sect α}
    (hfailed : File.onSect kind index call file = .failed file') :
    ∃ head sect', file.headAt kind index = some head ∧
      call ⟨head, file.storage⟩ = .failed sect' ∧
      file.putSect kind index sect' = file' := by
  rw [File.onSect] at hfailed
  cases hhead : file.headAt kind index with
  | none =>
      rw [hhead] at hfailed
      cases hfailed
  | some head =>
      cases hcall : call ⟨head, file.storage⟩ with
      | ok value sect' => simp [hhead, hcall] at hfailed
      | failed sect' =>
          simp only [hhead, hcall, Outcome.mapState_failed] at hfailed
          injection hfailed with hfile
          exact ⟨head, sect', rfl, hcall, hfile⟩
      | stuck => simp [hhead, hcall] at hfailed

theorem follows_onSect (op : SectCall kind) {call : Prog Sect α}
    (hop : ∀ sect, op.final sect = (call sect).final)
    (hpost : ∀ {sect sect' value}, sect.head.Balanced kind.itmSize →
      sect.head.Bordered → call sect = .ok value sect' → post value)
    (index : ℕ) :
    (File.onSect kind index call).Follows SectionsInv File.Operates post := by
  have hleads : ∀ {file head sect'}, SectionsInv file →
      file.headAt kind index = some head →
      (call ⟨head, file.storage⟩).final = some sect' →
      Leads SectionsInv File.Operates file
        (file.putSect kind index sect') := by
    intro file head sect' hinv hhead hfinal
    rw [← hop] at hfinal
    obtain ⟨hbalanced, hbordered⟩ := hinv.heads hhead
    exact .single (hinv.onSect hhead (op.fills hbalanced hbordered hfinal))
      (.onSect op hhead hfinal
        (op.writesInside hbalanced hbordered hfinal))
  constructor
  · intro file file' value hinv hok
    obtain ⟨head, sect', hhead, hcall, hfile⟩ := onSect_eq_ok hok
    obtain ⟨hbalanced, hbordered⟩ := hinv.heads hhead
    rw [← hfile]
    exact ⟨hleads hinv hhead (by rw [hcall, Outcome.final_ok]),
      hpost hbalanced hbordered hcall⟩
  · intro file file' hinv hfailed
    obtain ⟨head, sect', hhead, hcall, hfile⟩ := onSect_eq_failed hfailed
    rw [← hfile]
    exact hleads hinv hhead (by rw [hcall, Outcome.final_failed])

theorem follows_headSync : fileHeadSync.Follows SectionsInv File.Operates
    (fun _ => True) :=
  follows_step (fun _ => rfl)
    (fun file hinv => ⟨hinv.headSync, .headSync file⟩)

theorem follows_addSect (kind : SectKind) :
    (fileAddSect kind sectHeadCtor).Follows SectionsInv File.Operates
      (fun _ => True) :=
  follows_step (fun file => File.fileAddSect_eq file kind)
    (fun file hinv => ⟨hinv.addSect kind, .addSect file kind⟩)

section Fit

variable {inv : File → Prop} {step : File → File → Prop} {call : Prog Sect α}

theorem follows_sectHead (index : ℕ) :
    (File.sectHead kind index).Follows inv step (fun _ => True) := by
  constructor
  · intro file file' head hinv hok
    rw [File.sectHead] at hok
    split at hok
    · cases hok
    · injection hok with _ hfile
      exact ⟨hfile ▸ .refl hinv, trivial⟩
  · intro file file' _ hfailed
    rw [File.sectHead] at hfailed
    split at hfailed <;> cases hfailed

theorem follows_firstFit
    (hcall : ∀ index, (File.onSect kind index call).Follows inv step post)
    (count index : ℕ) :
    (File.firstFit kind call count index).Follows inv step
      (fun found => ∀ pair ∈ found, post pair.2) := by
  induction count generalizing index with
  | zero =>
      apply follows_pure
      intro pair hmem
      cases hmem
  | succ count ih =>
      rw [File.firstFit]
      apply (hcall index).status.bind
      intro found hfound
      cases found with
      | none => exact ih (index + 1)
      | some value =>
          apply follows_pure
          intro pair hmem
          rw [← Option.some.inj hmem]
          exact hfound value rfl

theorem follows_fileFit
    (hadd : (fileAddSect kind sectHeadCtor).Follows inv step (fun _ => True))
    (hcall : ∀ index, (File.onSect kind index call).Follows inv step post) :
    (fileFit kind (fileAddSect kind sectHeadCtor) call).Follows inv step
      (fun found => post found.2) := by
  rw [fileFit, File.firstSect]
  have hfirst := follows_get.bind (fun (file : File) (_ : inv file) =>
    follows_firstFit hcall (file.sects kind).length 0)
  apply hfirst.bind
  intro found hfound
  cases found with
  | some pair => exact follows_pure (hfound pair rfl)
  | none =>
      apply follows_get.bind
      intro file _
      apply hadd.bind
      intro _ _
      apply (hcall (file.sects kind).length).bind
      intro value hvalue
      exact follows_pure hvalue

end Fit

theorem follows_sectFileoff {soff : ℕ} (hsoff : soff ≤ 8192) (index : ℕ) :
    (fileSectFileoff kind index soff).Follows SectionsInv File.Operates
      (fun foff => foff ≠ 0) := by
  constructor
  · intro file file' value hinv hok
    cases hhead : file.headAt kind index with
    | none =>
        simp only [fileSectFileoff, Prog.bind_apply, File.sectHead, hhead]
          at hok
        cases hok
    | some head =>
        rw [File.fileSectFileoff_eq hhead (by omega)] at hok
        injection hok with hvalue hfile
        have hlow := hinv.placed.low hhead
        exact ⟨hfile ▸ .refl hinv, by omega⟩
  · intro file file' hinv hfailed
    cases hhead : file.headAt kind index with
    | none =>
        simp only [fileSectFileoff, Prog.bind_apply, File.sectHead, hhead]
          at hfailed
        cases hfailed
    | some head =>
        rw [File.fileSectFileoff_eq hhead (by omega)] at hfailed
        cases hfailed

theorem follows_fileAddType (type : DocType) :
    (fileAddType type).Follows SectionsInv File.Operates
      (fun foff => foff ≠ 0) := by
  have hwrite : ∀ index,
      (File.onSect .types index (sectTypesWrite type)).Follows SectionsInv
        File.Operates (fun soff => soff ≤ 8192) := by
    apply follows_onSect (.typesWrite type) (fun _ => rfl)
    intro sect sect' value hbalanced hbordered hok
    by_cases hfits : sect.head.freeSpace < typePhSz type
    · rw [sectTypesWrite_refused hfits] at hok
      cases hok
    · obtain ⟨after, hwritten, -⟩ :=
        sectTypesWrite_taken hbalanced hbordered hfits
      rw [hwritten] at hok
      injection hok with hvalue _
      rw [← hvalue]
      exact hbordered.lip_le.trans hbordered.frp_le
  apply (follows_fileFit (follows_addSect .types) hwrite).bind
  intro found hfound
  apply (follows_sectFileoff hfound found.1).bind
  intro foff hfoff
  apply follows_headSync.bind
  intro _ _
  exact follows_pure hfoff

theorem follows_fileWrite (json : Json) (dadFileoff typeFoff : ℕ) :
    (fileWrite json dadFileoff typeFoff).Follows SectionsInv File.Operates
      (fun foff => foff ≠ 0) := by
  induction json generalizing dadFileoff typeFoff with
  | null => exact follows_stuck
  | node key value bro son ihBro ihSon =>
      have hwrite : ∀ index, (File.onSect .extents index
          (sectExtWrite key (jsonValPtr value)
            (entityInit key value dadFileoff 0 0 typeFoff))).Follows
              SectionsInv File.Operates
              (fun written => written.1 + 80 ≤ 8192) :=
        follows_onSect (.extWrite key (jsonValPtr value)
            (entityInit key value dadFileoff 0 0 typeFoff)) (fun _ => rfl)
          (fun hbalanced hbordered hok =>
            (sectExtWrite_fills hbalanced hbordered hok).2.2.2)
      have hrelative : ∀ (relative : Json) (dad : ℕ),
          (∀ dadFileoff typeFoff, (fileWrite relative dadFileoff
            typeFoff).Follows SectionsInv File.Operates
              (fun foff => foff ≠ 0)) →
          (if relative.isNull then pure 0
            else fileWrite relative dad 0 : Prog File ℕ).Follows
              SectionsInv File.Operates (fun _ => True) := by
        intro relative dad ih
        split
        · exact follows_pure trivial
        · exact (ih dad 0).mono (fun _ _ => trivial)
      rw [fileWrite]
      apply (follows_fileFit (follows_addSect .extents) hwrite).bind
      intro found hfound
      apply (follows_sectFileoff (by omega) found.1).bind
      intro wrtFoff hwrtFoff
      apply (hrelative bro dadFileoff ihBro).bind
      intro broOffset _
      apply (hrelative son wrtFoff ihSon).bind
      intro sonOffset _
      have hitem := follows_onSect (.extWrtItm found.2.1 { found.2.2 with
          famAddr := { found.2.2.famAddr with
            broPtr := broOffset
            sonPtr := sonOffset } } hfound) (fun _ => rfl)
        (fun _ _ _ => trivial) found.1
      apply hitem.status.bind
      intro _ _
      apply follows_headSync.bind
      intro _ _
      exact follows_pure hwrtFoff

end Calls

/-! ## The law -/

section Law

variable {file : File}

theorem SectionsInv.init {file₀ : File}
    (hctor : fileCtor file₀ = .ok () file) : SectionsInv file := by
  have hfields : file.extents = [] ∧ file.types = [] ∧
      file.lstSectPtr = 8 := by
    injection hctor with _ hfile
    rw [← hfile]
    exact ⟨rfl, rfl, rfl⟩
  obtain ⟨hextents, htypes, hlsp⟩ := hfields
  have hstarts : file.starts = [] := by
    rw [File.starts, hextents, htypes, List.append_nil, List.map_nil]
  constructor
  · rw [hstarts]
    exact Tiles.nil
  · rw [hstarts, List.length_nil, Nat.zero_mul, hlsp]
  · intro kind index head hhead
    have hempty : file.sects kind = [] := by
      cases kind
      · exact hextents
      · exact htypes
    rw [File.headAt, hempty, List.getElem?_nil] at hhead
    cases hhead

theorem SectionsInv.leads (h : SectionsInv file) {call : SectionsCall}
    {file' : File} (hstep : sectionsStep call file = some file') :
    Prog.Leads SectionsInv File.Operates file file' := by
  cases call with
  | addType type => exact (follows_fileAddType type).final h hstep
  | write json dadFileoff typeFoff =>
      exact (follows_fileWrite json dadFileoff typeFoff).final h hstep

theorem SectionsInv.getSect_none (h : SectionsInv file) {kind kind' : SectKind}
    {index foff : ℕ} {head : SectHead}
    (hhead : file.headAt kind index = some head) (hne : kind' ≠ kind)
    (hcovers : head.Covers foff) :
    getSect kind' foff file = .ok none file := by
  have hfind : (file.sects kind').findIdx? (fun head =>
      decide (head.fileOffset ≤ foff) &&
        decide (foff < head.fileOffset + SECTION_SIZE)) = none := by
    rw [List.findIdx?_eq_none_iff]
    intro head' hmem
    obtain ⟨index', hget⟩ := List.mem_iff_getElem?.mp hmem
    have hapart := h.placed.apart hhead hget
      (fun heq => hne (congrArg Prod.fst heq).symm)
    obtain ⟨hlow, hhigh⟩ := hcovers
    rw [SECTION_SIZE] at hhigh ⊢
    rw [Bool.and_eq_false_iff, decide_eq_false_iff_not,
      decide_eq_false_iff_not]
    omega
  rw [getSect, Prog.bind_of_ok (Prog.get_apply file), hfind,
    Prog.pure_apply]

theorem SectionsInv.law (h : SectionsInv file) : SectionsLaw file := by
  have hfileoff : ∀ (head : SectHead), ∀ soff < SECTION_SIZE,
      (sectHeadGetFileoff head soff).toNat = head.fileOffset + soff := by
    intro head soff hsoff
    rw [SECTION_SIZE] at hsoff
    rw [sectHeadGetFileoff_of_lt (by omega), Int.toNat_natCast]
  have hcovers : ∀ (head : SectHead), ∀ soff < SECTION_SIZE,
      head.Covers (head.fileOffset + soff) :=
    fun head soff hsoff => ⟨Nat.le_add_right _ _, Nat.add_lt_add_left hsoff _⟩
  constructor
  · rw [h.lsp, File.starts, List.length_map, List.length_append,
      sizeofFileHeadEntity, SECTION_SIZE]
  · intro foff
    rw [h.lsp, sizeofFileHeadEntity, h.tiles.cover_iff (by norm_num)]
    constructor
    · rintro ⟨start, hmem, hcovers⟩
      obtain ⟨head, hhead, rfl⟩ := List.mem_map.mp hmem
      obtain ⟨kind, index, hhead⟩ := File.mem_heads.mp hhead
      exact ⟨kind, index, head, hhead, hcovers⟩
    · rintro ⟨kind, index, head, hhead, hcovers⟩
      exact ⟨head.fileOffset, File.mem_starts hhead, hcovers⟩
  · intro kind index head kind' index' head' hhead hhead' hne foff hin hin'
    have hapart := h.placed.apart hhead hhead' hne
    obtain ⟨hlow, hhigh⟩ := hin
    obtain ⟨hlow', hhigh'⟩ := hin'
    rw [SECTION_SIZE] at hhigh hhigh'
    omega
  · intro kind index head hhead soff hsoff
    rw [hfileoff head soff hsoff]
    exact h.placed.getSect_eq hhead (Nat.le_add_right _ _)
      (hcovers head soff hsoff).2
  · intro kind index head hhead kind' hne soff hsoff
    rw [hfileoff head soff hsoff]
    exact h.getSect_none hhead hne (hcovers head soff hsoff)
  · intro kind index head _ soff hsoff
    rw [hfileoff head soff hsoff, sectHeadGetSectoff,
      Nat.add_sub_cancel_left]
  · intro kind index head hhead call sect' hcall
    obtain ⟨hbalanced, hbordered⟩ := h.heads hhead
    exact call.writesInside hbalanced hbordered hcall
  · intro call file' hstep
    exact (h.leads hstep).2
  · intro type foff file' hok
    exact ((follows_fileAddType type).ok h hok).2
  · intro json dadFileoff typeFoff foff file' hok
    exact ((follows_fileWrite json dadFileoff typeFoff).ok h hok).2

end Law

/-- In every file reached the sections are a partition, and offsets in the file
are those of one section each. -/
theorem sectionsRun_law {file : File} (run : SectionsRun file) :
    SectionsLaw file := by
  have hinv : SectionsInv file := by
    apply run.invariant
    · rintro file ⟨file₀, hctor⟩
      exact .init hctor
    · intro file call file' hinv _ hstep
      exact (hinv.leads hstep).1
  exact hinv.law

/-- A section of each kind. -/
theorem sectionsRun_law_two : ∃ file : File,
    SectionsLaw file ∧ file.lstSectPtr = 16392 := by
  obtain ⟨file, run, hlsp⟩ := Run.exists_of_any sectionsStep
    (fun _ _ => true)
    [.addType ⟨stringCtor [97], []⟩,
      .write (.node (stringCtor [97]) .object .null .null) 0 40]
    (fun file => file.lstSectPtr == 16392)
    id (fun _ => trivial)
    (.init ⟨⟨0, [], [], Storage.empty⟩, rfl⟩ : SectionsRun emptyFile)
    (by decide_cbv)
  exact ⟨file, sectionsRun_law run, by simpa using hlsp⟩

end NosqlDbms
