import NosqlDbms.DocumentsRun
import NosqlDbms.Reading
import Mathlib.Tactic

/-!
# What failed commands leave behind

Runs of `user_add_type` and of INSERT commands.  A command that fails before
anything is written leaves the store as it was.  Where a section was added for
what does not fit into any section, it stays.
-/

namespace NosqlDbms

inductive StoreCall where
  | addType (type : DocType)
  | insert (json : Json) (typeName : Str)

def StoreCall.apply : StoreCall → Prog File Unit
  | .addType type => userAddType type
  | .insert json typeName => do
      let _ ← userWrite json typeName
      pure ()

/-- A document is not a NULL pointer. -/
def StoreCall.Valid : StoreCall → Prop
  | .addType _ => True
  | .insert json _ => json.isNull = false

/-- The files reached from `file_ctor`, each call with either status. -/
abbrev StoreRun : File → Prop :=
  Run (fun file => ∃ file₀, fileCtor file₀ = .ok () file)
    (fun call file file' => (StoreCall.apply call file).final = some file')
    (fun _ call => call.Valid)

/-- Nothing of the store is changed by a call that fails: header, sections and
the bytes of the file. -/
def FailureLaw (call : StoreCall) (file : File) : Prop :=
  ∀ file', call.apply file = .failed file' → file.Quiet file'

/-- What would be written fits. -/
def StoreCall.Fits (call : StoreCall) (file : File) : Prop :=
  match call with
  | .addType type => typePhSz type ≤ SECTION_SIZE - sizeofSectHeadEntity
  | .insert json typeName => ∀ found file',
      fileFindType typeName file = .ok found file' →
      jsonIsApplyType json found.2.2 = true → json.Fits

/-! ## Calls that grow the file when they fail -/

namespace Prog

variable {σ α β : Type}

/-- The measure does not get less, and grows when the call fails. -/
structure Raises (measure : σ → ℕ) (call : Prog σ α) : Prop where
  ok : ∀ {state state' value}, call state = .ok value state' →
    measure state ≤ measure state'
  failed : ∀ {state state'}, call state = .failed state' →
    measure state < measure state'

variable {measure : σ → ℕ}

theorem raises_pure (value : α) :
    (pure value : Prog σ α).Raises measure where
  ok := by
    intro state state' value' hok
    injection hok with _ hstate
    rw [hstate]
  failed := by
    intro state state' hfailed
    cases hfailed

theorem raises_stuck : (stuck : Prog σ α).Raises measure where
  ok := by
    intro state state' value hok
    cases hok
  failed := by
    intro state state' hfailed
    cases hfailed

theorem Raises.bind {call : Prog σ α} {next : α → Prog σ β}
    (h : call.Raises measure)
    (hnext : ∀ value, (next value).Raises measure) :
    (call >>= next).Raises measure where
  ok := by
    intro state state' value hok
    obtain ⟨middle, state₁, hfirst, hlast⟩ := bind_eq_ok hok
    exact (h.ok hfirst).trans ((hnext middle).ok hlast)
  failed := by
    intro state state' hfailed
    rcases bind_eq_failed hfailed with hfirst | ⟨middle, state₁, hfirst,
      hlast⟩
    · exact h.failed hfirst
    · exact (h.ok hfirst).trans_lt ((hnext middle).failed hlast)

theorem Keeps.raises {call : Prog σ α} (h : call.Keeps measure)
    (hunfailing : call.Unfailing) : call.Raises measure where
  ok := fun hok => (h.of_ok hok).ge
  failed := by
    intro state state' hfailed
    have hnot := hunfailing state
    rw [hfailed] at hnot
    cases hnot

theorem Keeps.raises_behind {first : Prog σ Unit} {call : Prog σ α}
    (h : call.Keeps measure)
    (hfirst : ∀ state, ∃ state', first state = .ok () state' ∧
      measure state < measure state') :
    (first >>= fun _ => call).Raises measure where
  ok := by
    intro state state' value hok
    obtain ⟨middle, hcall, hlt⟩ := hfirst state
    rw [bind_of_ok hcall] at hok
    rw [h.of_ok hok]
    exact hlt.le
  failed := by
    intro state state' hfailed
    obtain ⟨middle, hcall, hlt⟩ := hfirst state
    rw [bind_of_ok hcall] at hfailed
    rw [h middle state' (by rw [hfailed, Outcome.final_failed])]
    exact hlt

end Prog

section Raises

open Prog

variable {α : Type} {kind : SectKind}

theorem keeps_lsp_onSect (index : ℕ) (call : Prog Sect α) :
    (File.onSect kind index call).Keeps File.lstSectPtr := by
  apply keeps_of_putSect
  intro file head sect' _ _
  exact File.putSect_lstSectPtr

theorem raises_firstFit (call : Prog Sect α) (count index : ℕ) :
    (File.firstFit kind call count index).Raises File.lstSectPtr := by
  induction count generalizing index with
  | zero => exact raises_pure none
  | succ count ih =>
      apply ((keeps_lsp_onSect index call).status.raises
        (unfailing_status _)).bind
      intro found
      cases found with
      | none => exact ih (index + 1)
      | some value => exact raises_pure _

theorem raises_fileFit (call : Prog Sect α) :
    (fileFit kind (fileAddSect kind sectHeadCtor) call).Raises
      File.lstSectPtr := by
  have hget : (Prog.get : Prog File File).Raises File.lstSectPtr :=
    keeps_get.raises (fun _ => rfl)
  have hfirst : (File.firstSect kind call).Raises File.lstSectPtr :=
    hget.bind (fun file => raises_firstFit call _ 0)
  apply hfirst.bind
  intro found
  cases found with
  | some pair => exact raises_pure pair
  | none =>
      apply hget.bind
      intro file
      have hcall : (File.onSect kind (file.sects kind).length call >>=
          fun value => pure ((file.sects kind).length, value)).Keeps
            File.lstSectPtr :=
        (keeps_lsp_onSect _ call).bind (fun _ => keeps_pure _)
      apply hcall.raises_behind
      intro state
      refine ⟨_, File.fileAddSect_eq state kind, ?_⟩
      rw [File.lstSectPtr_extended]
      omega

theorem raises_sectFileoff (index soff : ℕ) :
    (fileSectFileoff kind index soff).Raises File.lstSectPtr := by
  have hhead : (File.sectHead kind index).Raises File.lstSectPtr := by
    constructor
    · intro file file' head hok
      rw [File.sectHead] at hok
      split at hok
      · cases hok
      · injection hok with _ hfile
        rw [hfile]
    · intro file file' hfailed
      rw [File.sectHead] at hfailed
      split at hfailed <;> cases hfailed
  exact hhead.bind (fun _ => raises_pure _)

theorem raises_fileHeadSync : fileHeadSync.Raises File.lstSectPtr where
  ok := by
    intro file file' value hok
    rw [fileHeadSync_eq] at hok
    injection hok with _ hfile
    rw [← hfile]
  failed := by
    intro file file' hfailed
    rw [fileHeadSync_eq] at hfailed
    cases hfailed

theorem raises_fileAddType (type : DocType) :
    (fileAddType type).Raises File.lstSectPtr := by
  apply (raises_fileFit _).bind
  intro found
  apply (raises_sectFileoff _ _).bind
  intro wrtFoff
  exact raises_fileHeadSync.bind (fun _ => raises_pure _)

theorem raises_fileWrite (json : Json) (dadFileoff typeFoff : ℕ) :
    (fileWrite json dadFileoff typeFoff).Raises File.lstSectPtr := by
  induction json generalizing dadFileoff typeFoff with
  | null => exact raises_stuck
  | node key value bro son ihBro ihSon =>
      have hrelative : ∀ (relative : Json) (dad : ℕ),
          (fileWrite relative dad 0).Raises File.lstSectPtr →
          (if relative.isNull then pure 0
            else fileWrite relative dad 0 : Prog File ℕ).Raises
              File.lstSectPtr := by
        intro relative dad ih
        split
        · exact raises_pure 0
        · exact ih
      rw [fileWrite]
      apply (raises_fileFit _).bind
      intro found
      apply (raises_sectFileoff _ _).bind
      intro wrtFoff
      apply (hrelative bro dadFileoff (ihBro dadFileoff 0)).bind
      intro broOffset
      apply (hrelative son wrtFoff (ihSon wrtFoff 0)).bind
      intro sonOffset
      apply ((keeps_lsp_onSect found.1 _).status.raises
        (unfailing_status _)).bind
      intro _
      exact raises_fileHeadSync.bind (fun _ => raises_pure _)

end Raises

/-! ## A search for a type -/

section Find

open Prog

/-- Everything of a section but the log. -/
def Sect.shown (sect : Sect) : SectHead × (ℕ → Byte) × ℕ :=
  (sect.head, sect.file.cell, sect.file.size)

/-- Everything of a file but the log. -/
def File.shown (file : File) :
    ℕ × List SectHead × List SectHead × (ℕ → Byte) × ℕ :=
  (file.lstSectPtr, file.extents, file.types, file.storage.cell,
    file.storage.size)

theorem Sect.quiet_of_shown {sect sect' : Sect}
    (h : sect'.shown = sect.shown) : sect.Quiet sect' := by
  rw [shown, shown, Prod.mk.injEq, Prod.mk.injEq] at h
  exact ⟨h.1, h.2.1, h.2.2⟩

theorem File.Quiet.shown_eq {file file' : File} (h : file.Quiet file') :
    file'.shown = file.shown := by
  have hextents : file'.extents = file.extents := h.sects .extents
  have htypes : file'.types = file.types := h.sects .types
  rw [shown, shown, h.lstSectPtr, hextents, htypes, h.cell, h.size]

theorem File.quiet_of_shown {file file' : File}
    (h : file'.shown = file.shown) : file.Quiet file' := by
  simp only [shown, Prod.mk.injEq] at h
  obtain ⟨hlsp, hextents, htypes, hcell, hsize⟩ := h
  refine ⟨hlsp, fun kind => ?_, hcell, hsize⟩
  cases kind
  · exact hextents
  · exact htypes

theorem keeps_sectHeadRead (soff size : ℕ) :
    (sectHeadRead soff size).Keeps Sect.shown := by
  intro sect sect' hfinal
  obtain ⟨data, read, hstatus, hquiet, -⟩ :=
    sectHeadRead_status soff size sect
  have hread : (sectHeadRead soff size sect).final = some read := by
    cases hcall : sectHeadRead soff size sect with
    | ok value last =>
        rw [status_of_ok hcall] at hstatus
        injection hstatus with _ hlast
        rw [hlast, Outcome.final_ok]
    | failed last =>
        rw [status_of_failed hcall] at hstatus
        injection hstatus with _ hlast
        rw [hlast, Outcome.final_failed]
    | stuck =>
        rw [hcall] at hfinal
        cases hfinal
  rw [hread, Option.some.injEq] at hfinal
  rw [← hfinal, Sect.shown, Sect.shown, hquiet.head, hquiet.cell,
    hquiet.size]

theorem keeps_sectTypesReadAttrs (count soff : ℕ) :
    (sectTypesReadAttrs count soff).Keeps Sect.shown := by
  induction count generalizing soff with
  | zero => exact keeps_pure _
  | succ count ih =>
      apply ((keeps_sectHeadRead soff _).bind
        (fun _ => keeps_pure _)).bind
      intro entity
      apply (keeps_sectHeadRead _ _).bind
      intro name
      split
      · exact keeps_stuck
      · exact (ih _).bind (fun _ => keeps_pure _)

theorem keeps_sectTypesRead (soff : ℕ) :
    (sectTypesRead soff).Keeps Sect.shown := by
  apply ((keeps_sectHeadRead soff _).bind (fun _ => keeps_pure _)).bind
  intro entity
  apply (keeps_sectHeadRead _ _).bind
  intro name
  exact (keeps_sectTypesReadAttrs _ _).bind (fun _ => keeps_pure _)

theorem keeps_sectTypesFind (name : Str) :
    (sectTypesFind name).Keeps Sect.shown := by
  have hgetHead : Sect.getHead.Keeps Sect.shown := by
    intro sect sect' hfinal
    rw [Sect.getHead_apply, Outcome.final_ok, Option.some.injEq] at hfinal
    rw [hfinal]
  have hload : ∀ fuel soff,
      (sectTypesLoadFrom fuel soff).Keeps Sect.shown := by
    intro fuel
    induction fuel with
    | zero => exact fun _ => keeps_stuck
    | succ fuel ih =>
        intro soff
        apply hgetHead.bind
        intro head
        split
        · apply (keeps_sectTypesRead soff).bind
          intro read
          exact (ih _).bind (fun _ => keeps_pure _)
        · exact keeps_pure _
  apply (hgetHead.bind (fun head => hload _ _)).bind
  intro types
  split
  · exact keeps_fail
  · exact keeps_pure _

theorem keeps_onSect_shown {α : Type} {call : Prog Sect α}
    (h : call.Keeps Sect.shown) (kind : SectKind) (index : ℕ) :
    (File.onSect kind index call).Keeps File.shown := by
  apply keeps_of_putSect
  intro file head sect' hhead hfinal
  exact (File.Quiet.putSect hhead (Sect.quiet_of_shown
    (h _ sect' hfinal))).shown_eq

theorem keeps_fileFindType (name : Str) :
    (fileFindType name).Keeps File.shown := by
  have hfit : ∀ count index,
      (File.firstFit .types (sectTypesFind name) count index).Keeps
        File.shown := by
    intro count
    induction count with
    | zero => exact fun _ => keeps_pure none
    | succ count ih =>
        intro index
        apply (keeps_onSect_shown (keeps_sectTypesFind name) .types
          index).status.bind
        intro found
        cases found with
        | none => exact ih (index + 1)
        | some value => exact keeps_pure _
  have hfirst : (File.firstSect .types (sectTypesFind name)).Keeps
      File.shown :=
    keeps_get.bind (fun file => hfit _ 0)
  apply hfirst.bind
  intro found
  cases found with
  | none => exact keeps_fail
  | some pair => exact keeps_pure pair

end Find

/-! ## The invariant -/

section Inv

variable {file file' : File} {contents : Contents}

theorem SectionsInv.quiet (h : SectionsInv file)
    (hquiet : file.Quiet file') : SectionsInv file' := by
  have hextents : file'.extents = file.extents := hquiet.sects .extents
  have htypes : file'.types = file.types := hquiet.sects .types
  have hstarts : file'.starts = file.starts := by
    rw [File.starts, File.starts, hextents, htypes]
  refine ⟨hstarts ▸ h.tiles, ?_, fun {kind index head} hhead => ?_⟩
  · rw [hstarts, hquiet.lstSectPtr, h.lsp]
  · rw [File.headAt_congr (hquiet.sects kind)] at hhead
    exact h.heads hhead

theorem DocumentsInv.quiet (h : DocumentsInv file contents)
    (hquiet : file.Quiet file') : DocumentsInv file' contents :=
  h.elsewhere (h.sections.quiet hquiet) hquiet.lstSectPtr.ge
    (hquiet.sects .extents) (fun _ _ _ => congrFun hquiet.cell _)
    hquiet.size.ge

theorem SectionsInv.addType (h : SectionsInv file) {type : DocType}
    (hfits : typePhSz type ≤ 8160) :
    ∃ foff file', fileAddType type file = .ok foff file' := by
  have htaken : file.TakenWhere .types (sectTypesWrite type)
      (fun index => ∀ head, file.headAt .types index = some head →
        typePhSz type ≤ head.freeSpace) := by
    intro index head storage hhead _ _
    obtain ⟨hbalanced, hbordered⟩ := h.heads hhead
    by_cases hroom : head.freeSpace < typePhSz type
    · left
      refine ⟨fun htakes => ?_, _, sectTypesWrite_refused hroom,
        ⟨rfl, rfl, rfl⟩⟩
      have hle := htakes head hhead
      omega
    · right
      obtain ⟨sect', hwritten, -⟩ :=
        @sectTypesWrite_taken ⟨head, storage⟩ type hbalanced hbordered hroom
      refine ⟨fun head' hhead' => ?_, _, sect', hwritten⟩
      rw [hhead, Option.some.injEq] at hhead'
      rw [← hhead']
      omega
  have hdone : ∀ {index soff file₂ head₂},
      fileFit .types fileAddSectTypes (sectTypesWrite type) file =
        .ok (index, soff) file₂ →
      file₂.headAt .types index = some head₂ →
      ∃ foff file', fileAddType type file = .ok foff file' := by
    intro index soff file₂ head₂ hfit hhead
    have hfoff : fileSectFileoff .types index soff file₂ =
        .ok (sectHeadGetFileoff head₂ soff).toNat file₂ :=
      Prog.bind_of_ok (File.sectHead_apply hhead)
    rw [fileAddType, Prog.bind_of_ok hfit]
    simp only
    rw [Prog.bind_of_ok hfoff, Prog.bind_of_ok (fileHeadSync_eq file₂)]
    exact ⟨_, _, rfl⟩
  rcases File.fileFit_spec htaken with
    ⟨file₁, index, head, value, sect', hfit, hfound⟩ |
    ⟨file₁, hquiet, -, hfit⟩
  · exact hdone hfit (File.headAt_putSect_self hfound.headAt)
  · have hnew : (file₁.extended .types).headAt .types
        (file.sects .types).length = some
          (Sect.fresh file₁.lstSectPtr file₁.storage).head := by
      rw [← hquiet.sects]
      exact File.headAt_extended_new
    obtain ⟨hbalanced, hbordered⟩ :=
      ((h.quiet hquiet).addSect .types).heads hnew
    have hfree : (Sect.fresh file₁.lstSectPtr file₁.storage).head.freeSpace =
        8160 := rfl
    obtain ⟨sect', hwritten, -⟩ := @sectTypesWrite_taken
      ⟨_, (file₁.extended .types).storage⟩ type hbalanced hbordered
      (by simp only [hfree]; omega)
    have hput := File.onSect_of_ok hnew hwritten
    exact hdone (hfit.trans (Prog.bind_of_ok hput))
      (File.headAt_putSect_self hnew)

theorem SectionsInv.free_le (h : SectionsInv file) {kind : SectKind}
    {index : ℕ} {head : SectHead}
    (hhead : file.headAt kind index = some head) : head.freeSpace ≤ 8160 := by
  obtain ⟨hbalanced, hbordered⟩ := h.heads hhead
  have hfree := hbalanced.free_eq hbordered.lip_le
  have hlip : 32 ≤ head.lstItmPtr := hbordered.lip_ge
  have hfrp : head.fstRecPtr ≤ 8192 := hbordered.frp_le
  omega

theorem SectionsInv.addType_refused (h : SectionsInv file) {type : DocType}
    (hfits : 8160 < typePhSz type) :
    ∃ file', fileAddType type file = .failed file' := by
  have htaken : file.TakenWhere .types (sectTypesWrite type)
      (fun _ => False) := by
    intro index head storage hhead _ _
    have hfree := h.free_le hhead
    exact Or.inl ⟨id, _, sectTypesWrite_refused (by simp only; omega),
      ⟨rfl, rfl, rfl⟩⟩
  rcases File.fileFit_spec htaken with
    ⟨file₁, index, head, value, sect', -, hfound⟩ |
    ⟨file₁, hquiet, -, hfit⟩
  · exact hfound.takes.elim
  · have hnew : (file₁.extended .types).headAt .types
        (file.sects .types).length = some
          (Sect.fresh file₁.lstSectPtr file₁.storage).head := by
      rw [← hquiet.sects]
      exact File.headAt_extended_new
    have hrefused := File.onSect_of_failed hnew
      (@sectTypesWrite_refused ⟨_, (file₁.extended .types).storage⟩ type
        hfits)
    exact ⟨_, Prog.bind_of_failed
      (hfit.trans (Prog.bind_of_failed hrefused))⟩

theorem firstFit_headAt {α : Type} {kind : SectKind} {call : Prog Sect α}
    {count index : ℕ} {pair : ℕ × α}
    (hok : File.firstFit kind call count index file =
      .ok (some pair) file') :
    ∃ head, file'.headAt kind pair.1 = some head := by
  induction count generalizing index file with
  | zero => cases hok
  | succ count ih =>
      obtain ⟨found, file₁, hstatus, hrest⟩ := Prog.bind_eq_ok hok
      cases found with
      | none => exact ih hrest
      | some value =>
          injection hrest with hpair hfile
          rw [← Option.some.inj hpair, ← hfile]
          rw [Prog.status] at hstatus
          cases hcall : File.onSect kind index call file with
          | ok value' file₂ =>
              obtain ⟨head, sect', hhead, -, rfl⟩ := onSect_eq_ok hcall
              rw [hcall] at hstatus
              injection hstatus with _ hfile₁
              rw [← hfile₁]
              exact ⟨_, File.headAt_putSect_self hhead⟩
          | failed file₂ =>
              rw [hcall] at hstatus
              cases hstatus
          | stuck =>
              rw [hcall] at hstatus
              cases hstatus

theorem fileFindType_headAt {name : Str} {found : ℕ × ℕ × DocType}
    (hfind : fileFindType name file = .ok found file') :
    ∃ head, file'.headAt .types found.1 = some head := by
  obtain ⟨pair, file₁, hfirst, hrest⟩ := Prog.bind_eq_ok hfind
  cases pair with
  | none => cases hrest
  | some pair =>
      injection hrest with hpair hfile
      rw [← hpair, ← hfile]
      exact firstFit_headAt hfirst

section Insert

variable {json : Json} {typeName : Str} {found : ℕ × ℕ × DocType}

theorem insert_not_found
    (hfind : fileFindType typeName file = .failed file') :
    (StoreCall.insert json typeName).apply file = .failed file' :=
  Prog.bind_of_failed (Prog.bind_of_failed hfind)

theorem insert_not_applied
    (hfind : fileFindType typeName file = .ok found file')
    (hnot : jsonIsApplyType json found.2.2 = false) :
    (StoreCall.insert json typeName).apply file = .failed file' := by
  apply Prog.bind_of_failed
  rw [userWrite, Prog.bind_of_ok hfind, hnot]
  rfl

theorem DocumentsInv.insert (h : DocumentsInv file contents)
    (hnull : json.isNull = false)
    (hfind : fileFindType typeName file = .ok found file')
    (happly : jsonIsApplyType json found.2.2 = true) :
    (json.Fits ∧ ∃ file'' contents',
      (StoreCall.insert json typeName).apply file = .ok () file'' ∧
        DocumentsInv file'' contents') ∨
    (¬ json.Fits ∧ ∃ file'' contents',
      (StoreCall.insert json typeName).apply file = .failed file'' ∧
        DocumentsInv file'' contents' ∧
        file.lstSectPtr < file''.lstSectPtr) := by
  have hquiet := File.quiet_of_shown
    ((keeps_fileFindType typeName).of_ok hfind)
  obtain ⟨head, hhead⟩ := fileFindType_headAt hfind
  have hfoff : fileSectFileoff .types found.1 found.2.1 file' =
      .ok (sectHeadGetFileoff head found.2.1).toNat file' :=
    Prog.bind_of_ok (File.sectHead_apply hhead)
  have huser : userWrite json typeName file = fileWrite json 0
      (sectHeadGetFileoff head found.2.1).toNat file' := by
    rw [userWrite, Prog.bind_of_ok hfind, happly]
    exact Prog.bind_of_ok hfoff
  rcases (h.quiet hquiet).write hnull 0
      (sectHeadGetFileoff head found.2.1).toNat with
    ⟨hfits, foff, file'', contents', hwrite, hinv, -⟩ |
    ⟨hfits, file'', contents', hwrite, hinv, -⟩
  · exact Or.inl ⟨hfits, file'', contents',
      Prog.bind_of_ok (huser.trans hwrite), hinv⟩
  · have hlt := (raises_fileWrite _ _ _).failed hwrite
    rw [hquiet.lstSectPtr] at hlt
    exact Or.inr ⟨hfits, file'', contents',
      Prog.bind_of_failed (huser.trans hwrite), hinv, hlt⟩

end Insert

theorem DocumentsInv.apply (h : DocumentsInv file contents)
    {call : StoreCall} (hvalid : call.Valid)
    (hfinal : (call.apply file).final = some file') :
    ∃ contents', DocumentsInv file' contents' := by
  cases call with
  | addType type =>
      have hfollows : (userAddType type).Follows
          (fun file' => DocumentsInv file' contents ∧
            file'.extents = file.extents)
          (fun _ _ => True) (fun _ => True) :=
        (DocumentsInv.follows_fileAddType type file.extents).bind
          (fun _ _ => Prog.follows_pure trivial)
      exact ⟨contents, (hfollows.final ⟨h, rfl⟩ hfinal).1.1⟩
  | insert json typeName =>
      cases hfind : fileFindType typeName file with
      | ok found file₁ =>
          cases happly : jsonIsApplyType json found.2.2 with
          | false =>
              have hquiet := File.quiet_of_shown
                ((keeps_fileFindType typeName).of_ok hfind)
              rw [insert_not_applied hfind happly, Outcome.final_failed,
                Option.some.injEq] at hfinal
              exact ⟨contents, hfinal ▸ h.quiet hquiet⟩
          | true =>
              rcases h.insert hvalid hfind happly with
                ⟨-, file'', contents', hcall, hinv⟩ |
                ⟨-, file'', contents', hcall, hinv, -⟩
              · rw [hcall, Outcome.final_ok, Option.some.injEq] at hfinal
                exact ⟨contents', hfinal ▸ hinv⟩
              · rw [hcall, Outcome.final_failed, Option.some.injEq]
                  at hfinal
                exact ⟨contents', hfinal ▸ hinv⟩
      | failed file₁ =>
          have hquiet := File.quiet_of_shown (keeps_fileFindType typeName
            file file₁ (by rw [hfind, Outcome.final_failed]))
          rw [insert_not_found hfind, Outcome.final_failed,
            Option.some.injEq] at hfinal
          exact ⟨contents, hfinal ▸ h.quiet hquiet⟩
      | stuck =>
          have hcall : (StoreCall.insert json typeName).apply file =
              .stuck := by
            simp only [StoreCall.apply, userWrite, Prog.bind_apply, hfind]
          rw [hcall] at hfinal
          cases hfinal

theorem StoreRun.inv (run : StoreRun file) :
    ∃ contents, DocumentsInv file contents := by
  apply run.invariant
  · rintro file ⟨file₀, hctor⟩
    exact ⟨_, fileCtor_documents hctor⟩
  · rintro file call file' ⟨contents, hinv⟩ hvalid hfinal
    exact hinv.apply hvalid hfinal

end Inv

/-! ## When nothing is left behind -/

theorem DocumentsInv.leaves_nothing_iff {file : File} {contents : Contents}
    (h : DocumentsInv file contents) {call : StoreCall}
    (hvalid : call.Valid) : FailureLaw call file ↔ call.Fits file := by
  have hroom : SECTION_SIZE - sizeofSectHeadEntity = 8160 := rfl
  have hnever : ∀ {file'}, file.lstSectPtr < file'.lstSectPtr →
      call.apply file = .failed file' → ¬ FailureLaw call file := by
    intro file' hlt hfailed hlaw
    have hlsp := (hlaw file' hfailed).lstSectPtr
    omega
  cases call with
  | addType type =>
      rw [StoreCall.Fits, hroom]
      by_cases hfits : typePhSz type ≤ 8160
      · obtain ⟨foff, file', hadd⟩ := h.sections.addType hfits
        refine iff_of_true (fun file'' hfailed => ?_) hfits
        have hok : (StoreCall.addType type).apply file = .ok () file' :=
          Prog.bind_of_ok hadd
        rw [hok] at hfailed
        cases hfailed
      · obtain ⟨file', hadd⟩ := h.sections.addType_refused
          (Nat.lt_of_not_le hfits)
        refine iff_of_false (hnever ((raises_fileAddType type).failed hadd)
          (Prog.bind_of_failed hadd)) hfits
  | insert json typeName =>
      cases hfind : fileFindType typeName file with
      | ok found file₁ =>
          have hfits : (StoreCall.insert json typeName).Fits file ↔
              (jsonIsApplyType json found.2.2 = true → json.Fits) := by
            rw [StoreCall.Fits]
            constructor
            · exact fun hall => hall found file₁ hfind
            · intro himp found' file₁' hfind'
              rw [hfind] at hfind'
              injection hfind' with hfound
              rw [← hfound]
              exact himp
          rw [hfits]
          cases happly : jsonIsApplyType json found.2.2 with
          | false =>
              refine iff_of_true (fun file' hfailed => ?_)
                (fun habs => nomatch habs)
              rw [insert_not_applied hfind happly] at hfailed
              injection hfailed with hfile
              rw [← hfile]
              exact File.quiet_of_shown
                ((keeps_fileFindType typeName).of_ok hfind)
          | true =>
              rcases h.insert hvalid hfind happly with
                ⟨hjson, file', contents', hcall, -⟩ |
                ⟨hjson, file', contents', hcall, -, hlt⟩
              · refine iff_of_true (fun file'' hfailed => ?_)
                  (fun _ => hjson)
                rw [hcall] at hfailed
                cases hfailed
              · exact iff_of_false (hnever hlt hcall)
                  (fun himp => hjson (himp rfl))
      | failed file₁ =>
          refine iff_of_true (fun file' hfailed => ?_)
            (fun found file₁' hfind' => ?_)
          · rw [insert_not_found hfind] at hfailed
            injection hfailed with hfile
            rw [← hfile]
            exact File.quiet_of_shown (keeps_fileFindType typeName file
              file₁ (by rw [hfind, Outcome.final_failed]))
          · rw [hfind] at hfind'
            cases hfind'
      | stuck =>
          have hcall : (StoreCall.insert json typeName).apply file =
              .stuck := by
            simp only [StoreCall.apply, userWrite, Prog.bind_apply, hfind]
          refine iff_of_true (fun file' hfailed => ?_)
            (fun found file₁' hfind' => ?_)
          · rw [hcall] at hfailed
            cases hfailed
          · rw [hfind] at hfind'
            cases hfind'

/-- A failed call changes nothing unless what it was to write does not fit. -/
theorem failureLaw_iff {file : File} (run : StoreRun file)
    {call : StoreCall} (hvalid : call.Valid) :
    FailureLaw call file ↔ call.Fits file := by
  obtain ⟨contents, hinv⟩ := run.inv
  exact hinv.leaves_nothing_iff hvalid

/-- A type whose name is as long as a section. -/
def longType : DocType where
  name := stringCtor (List.replicate 8192 97)
  attrList := []

theorem typePhSz_longType : typePhSz longType = 8216 := by
  rw [typePhSz_eq, TypeEntry.typeRecSz_eq, longType, cnt_stringCtor,
    List.length_replicate]
  rfl

theorem emptyFile_storeRun : StoreRun emptyFile :=
  .init ⟨⟨0, [], [], Storage.empty⟩, rfl⟩

theorem failureLaw_iff_long : ∃ (file : File) (call : StoreCall),
    StoreRun file ∧ (FailureLaw call file ↔ call.Fits file) ∧
      ¬ call.Fits file := by
  refine ⟨emptyFile, .addType longType, emptyFile_storeRun,
    failureLaw_iff emptyFile_storeRun trivial, ?_⟩
  rw [StoreCall.Fits, typePhSz_longType]
  decide

/-- The section for a type that is too long stays. -/
theorem failureLaw_fails : ¬ ∀ file : File, StoreRun file →
    ∀ call : StoreCall, call.Valid → FailureLaw call file := by
  intro hall
  obtain ⟨contents, hinv⟩ := emptyFile_storeRun.inv
  have hvalid : (StoreCall.addType longType).Valid := trivial
  have hfits := (hinv.leaves_nothing_iff hvalid).mp
    (hall emptyFile emptyFile_storeRun (.addType longType) hvalid)
  rw [StoreCall.Fits, typePhSz_longType] at hfits
  revert hfits
  decide

end NosqlDbms
