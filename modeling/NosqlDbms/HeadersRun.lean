import NosqlDbms.FileSections
import NosqlDbms.HeadSynced
import NosqlDbms.Runs
import Mathlib.Tactic

/-!
# The headers in the file

Runs of the operations on the sections of one file, each of which returns
`OK`.  Every operation but one branch of `sect_ext_update` ends with a sync of
the header, so in runs that do not take this branch the headers in the file
are those in memory.
-/

namespace NosqlDbms

/-- The sections are given by their positions in the lists. -/
inductive HeadersCall where
  | addSectExt
  | addSectTypes
  | extWrite (index : ℕ) (key : Str) (val : List Byte) (entity : Entity)
  | extRead (index soff : ℕ)
  | extDelete (index soff : ℕ)
  | extUpdate (index soff : ℕ) (newKey : Str) (newVal : List Byte)
      (newEntity : Entity)
  | typesWrite (index : ℕ) (type : DocType)
  | typesDelete (index soff : ℕ)

def Prog.okState {σ α : Type} (call : Prog σ α) (state : σ) : Option σ :=
  match call state with
  | .ok _ state' => some state'
  | .failed _ => none
  | .stuck => none

def headersStep : HeadersCall → File → Option File
  | .addSectExt => fileAddSectExt.okState
  | .addSectTypes => fileAddSectTypes.okState
  | .extWrite index key val entity =>
      (File.onSect .extents index (sectExtWrite key val entity)).okState
  | .extRead index soff =>
      (File.onSect .extents index (sectExtRead soff)).okState
  | .extDelete index soff =>
      (File.onSect .extents index (sectExtDelete soff)).okState
  | .extUpdate index soff newKey newVal newEntity =>
      (File.onSect .extents index
        (sectExtUpdate soff newKey newVal newEntity)).okState
  | .typesWrite index type =>
      (File.onSect .types index (sectTypesWrite type)).okState
  | .typesDelete index soff =>
      (File.onSect .types index (sectTypesDelete soff)).okState

def File.Bordered (file : File) : Prop :=
  ∀ head ∈ file.extents ++ file.types, head.Bordered

def File.sectAt (file : File) (kind : SectKind) (index : ℕ) : Option Sect :=
  (file.headAt kind index).map (fun head => ⟨head, file.storage⟩)

/-- What is deleted lies in its section, and so does what is updated, which
does not stay in its own gap. -/
def HeadersCall.Syncs (file : File) : HeadersCall → Prop
  | .addSectExt => True
  | .addSectTypes => True
  | .extWrite _ _ _ _ => True
  | .extRead _ _ => True
  | .extDelete index soff => ∀ sect ∈ file.sectAt .extents index,
      soff + sizeofEntity ≤ sect.head.lstItmPtr ∧
        (sect.entityAt soff).Inside
  | .extUpdate index soff _ _ newEntity =>
      ∀ sect ∈ file.sectAt .extents index,
        soff + sizeofEntity ≤ sect.head.lstItmPtr ∧
          (sect.entityAt soff).Inside ∧ sect.UpdateSyncs soff newEntity
  | .typesWrite _ _ => True
  | .typesDelete index soff => ∀ sect ∈ file.sectAt .types index,
      sect.TypeInside soff

/-- The files reached from `file_ctor` by calls that return `OK`. -/
abbrev HeadersRun : (File → HeadersCall → Prop) → File → Prop :=
  Run (fun file => ∃ file₀, fileCtor file₀ = .ok () file)
    (fun call file file' => headersStep call file = some file')

structure HeadersLaw (file : File) : Prop where
  sect : ∀ head ∈ file.extents ++ file.types,
    file.storage.bytes head.fileOffset sizeofSectHeadEntity = head.bytes
  file : file.storage.bytes 0 sizeofFileHeadEntity =
    wordBytes file.lstSectPtr

/-! ## The invariant -/

def SectKind.itmSize : SectKind → ℕ
  | .extents => 80
  | .types => 24

def headerKept : SectPred := fun kind _ sect =>
  sect.Synced ∧ sect.head.Balanced kind.itmSize

theorem local_headerKept : headerKept.Local where
  frame := by
    rintro kind index sect file ⟨hsynced, hbalanced⟩ hcell -
    refine ⟨?_, hbalanced⟩
    rw [Sect.Synced] at hsynced ⊢
    rw [← hsynced]
    apply Storage.bytes_congr
    intro index hlow hhigh
    rw [sizeofSectHeadEntity] at hhigh
    obtain ⟨position, rfl⟩ := Nat.exists_eq_add_of_le hlow
    exact hcell position (by simp only at hhigh; omega)

structure HeadersInv (file : File) : Prop where
  holds : file.Holds headerKept
  file : file.storage.bytes 0 8 = wordBytes file.lstSectPtr

section Inv

variable {file file' : File} {kind : SectKind} {index : ℕ}

theorem File.mem_heads {head : SectHead} :
    head ∈ file.extents ++ file.types ↔
      ∃ kind index, file.headAt kind index = some head := by
  rw [List.mem_append]
  constructor
  · rintro (hmem | hmem)
    · obtain ⟨index, hget⟩ := List.mem_iff_getElem?.mp hmem
      exact ⟨.extents, index, hget⟩
    · obtain ⟨index, hget⟩ := List.mem_iff_getElem?.mp hmem
      exact ⟨.types, index, hget⟩
  · rintro ⟨kind, index, hhead⟩
    cases kind with
    | extents => exact Or.inl (List.mem_of_getElem? hhead)
    | types => exact Or.inr (List.mem_of_getElem? hhead)

theorem HeadersInv.law (h : HeadersInv file) : HeadersLaw file where
  sect := by
    intro head hmem
    obtain ⟨kind, index, hhead⟩ := File.mem_heads.mp hmem
    exact (h.holds.sect hhead).1
  file := h.file

theorem HeadersInv.init {file₀ : File}
    (hctor : fileCtor file₀ = .ok () file) : HeadersInv file := by
  injection hctor with _ hfile
  subst hfile
  have hnone : ∀ {kind index head}, File.headAt ⟨8, [], [],
      file₀.storage.write 0 (wordBytes 8)⟩ kind index ≠ some head := by
    intro kind index head hhead
    cases kind <;> cases hhead
  refine ⟨⟨⟨le_rfl, fun hhead => absurd hhead hnone,
    fun hhead => absurd hhead hnone, fun hhead => absurd hhead hnone⟩,
    fun hhead => absurd hhead hnone⟩, ?_⟩
  exact Storage.bytes_write_same file₀.storage 0 (wordBytes 8)

theorem HeadersInv.onSect {α : Type} {call : Prog Sect α}
    (h : HeadersInv file) (kind : SectKind)
    (hcall : ∀ sect ∈ file.sectAt kind index,
      sect.head.Balanced kind.itmSize → ∀ {value sect'},
        call sect = .ok value sect' → sect.Settled kind.itmSize sect')
    (hstep : (File.onSect kind index call).okState file = some file') :
    HeadersInv file' := by
  cases hhead : file.headAt kind index with
  | none =>
      simp only [Prog.okState, File.onSect, hhead] at hstep
      cases hstep
  | some head =>
      cases hresult : call ⟨head, file.storage⟩ with
      | ok value sect' =>
          have hmem : ⟨head, file.storage⟩ ∈ file.sectAt kind index := by
            rw [File.sectAt, hhead]
            rfl
          have hsettled := hcall _ hmem (h.holds.sect hhead).2 hresult
          have hfile : file' = file.putSect kind index sect' := by
            simp only [Prog.okState, File.onSect_of_ok hhead hresult,
              Option.some.injEq] at hstep
            exact hstep.symm
          have hlow := h.holds.placed.low hhead
          subst hfile
          refine ⟨h.holds.putSect local_headerKept hhead
            hsettled.stays.fileOffset hsettled.stays.confined
            ⟨hsettled.synced, hsettled.balanced⟩ (fun _ hold => hold), ?_⟩
          rw [File.putSect_lstSectPtr, File.putSect_storage, ← h.file]
          apply Storage.bytes_congr
          intro position _ hlt
          exact hsettled.stays.confined.cell position
            (Or.inl (by simp only; omega))
      | failed sect' =>
          simp only [Prog.okState, File.onSect_of_failed hhead hresult]
            at hstep
          cases hstep
      | stuck =>
          simp only [Prog.okState, File.onSect, hhead, hresult,
            Outcome.mapState_stuck] at hstep
          cases hstep

theorem HeadersInv.addSect (h : HeadersInv file)
    (hstep : (fileAddSect kind sectHeadCtor).okState file = some file') :
    HeadersInv file' := by
  have hfile : file' = file.extended kind := by
    simp only [Prog.okState, File.fileAddSect_eq, Option.some.injEq]
      at hstep
    exact hstep.symm
  subst hfile
  have hfresh : (Sect.fresh file.lstSectPtr file.storage).Synced :=
    Sect.synced_withHead
      ⟨(Sect.fresh file.lstSectPtr file.storage).head, file.storage⟩ _
  have hbalanced : (Sect.fresh file.lstSectPtr file.storage).head.Balanced
      kind.itmSize := by
    refine ⟨?_, ?_, 0, ?_⟩
    · change 8160 < 2 ^ 64
      norm_num
    · rfl
    · rfl
  refine ⟨h.holds.extended local_headerKept local_headerKept
    ⟨hfresh, hbalanced⟩ (fun _ hold => hold), ?_⟩
  have hlsp : (file.extended kind).lstSectPtr =
      file.lstSectPtr + SECTION_SIZE := by
    cases kind <;> rfl
  rw [hlsp]
  exact Storage.bytes_write_same _ 0 _

theorem HeadersInv.step (h : HeadersInv file) {call : HeadersCall}
    (hbordered : file.Bordered) (hsyncs : call.Syncs file)
    (hstep : headersStep call file = some file') : HeadersInv file' := by
  have hborders : ∀ {kind index}, ∀ sect ∈ file.sectAt kind index,
      sect.head.Bordered := by
    intro kind index sect hmem
    rw [Option.mem_def, File.sectAt, Option.map_eq_some_iff] at hmem
    obtain ⟨head, hhead, rfl⟩ := hmem
    exact hbordered head (File.mem_heads.mpr ⟨kind, index, hhead⟩)
  cases call with
  | addSectExt => exact h.addSect hstep
  | addSectTypes => exact h.addSect hstep
  | extWrite index key val entity =>
      exact h.onSect .extents (fun sect hmem hbalanced _ _ hcall =>
        sectExtWrite_settled hbalanced (hborders sect hmem) hcall) hstep
  | extRead index soff =>
      exact h.onSect .extents (fun _ _ hbalanced _ _ hcall =>
        sectExtRead_settled hbalanced hcall) hstep
  | extDelete index soff =>
      refine h.onSect .extents (fun sect hmem hbalanced _ _ hcall => ?_) hstep
      obtain ⟨hsoff, hinside⟩ := hsyncs sect hmem
      exact (sectExtDelete_settled hbalanced (hborders sect hmem) hsoff
        hinside hcall).1
  | extUpdate index soff newKey newVal newEntity =>
      refine h.onSect .extents (fun sect hmem hbalanced _ _ hcall => ?_) hstep
      obtain ⟨hsoff, hinside, hupdate⟩ := hsyncs sect hmem
      exact sectExtUpdate_settled hbalanced (hborders sect hmem) hsoff
        hinside hupdate hcall
  | typesWrite index type =>
      exact h.onSect .types (fun sect hmem hbalanced _ _ hcall =>
        sectTypesWrite_settled hbalanced (hborders sect hmem) hcall) hstep
  | typesDelete index soff =>
      exact h.onSect .types (fun sect hmem hbalanced _ _ hcall =>
        sectTypesDelete_settled hbalanced (hborders sect hmem)
          (hsyncs sect hmem) hcall) hstep

end Inv

/-! ## Whole runs -/

/-- In a run that updates no record in its own gap, the headers in the file
are those in memory. -/
theorem headersRun_law {file : File}
    (run : HeadersRun (fun file call =>
      file.Bordered ∧ call.Syncs file) file) : HeadersLaw file := by
  have hinv : HeadersInv file := by
    apply run.invariant
    · rintro file ⟨file₀, hctor⟩
      exact .init hctor
    · rintro file call file' hinv ⟨hbordered, hsyncs⟩ hstep
      exact hinv.step hbordered hsyncs hstep
  exact hinv.law

/-! ## Two runs by evaluation -/

instance (head : SectHead) : Decidable head.Bordered :=
  decidable_of_iff (sizeofSectHeadEntity ≤ head.lstItmPtr ∧
      head.lstItmPtr ≤ head.fstRecPtr ∧ head.fstRecPtr ≤ SECTION_SIZE)
    ⟨fun h => ⟨h.1, h.2.1, h.2.2⟩, fun h => ⟨h.1, h.2, h.3⟩⟩

instance (entity : Entity) : Decidable entity.Inside :=
  decidable_of_iff (entity.valSize ≤ entity.keyPtr ∧
      entity.keyPtr + entity.keySize ≤ SECTION_SIZE)
    ⟨fun h => ⟨h.1, h.2⟩, fun h => ⟨h.1, h.2⟩⟩

instance (sect : Sect) (soff : ℕ) (newEntity : Entity) :
    Decidable (sect.UpdateSyncs soff newEntity) :=
  decidable_of_iff (_ ∧ _ ∧ _)
    ⟨fun h => ⟨h.1, h.2.1, h.2.2⟩, fun h => ⟨h.1, h.2, h.3⟩⟩

instance (sect : Sect) (soff : ℕ) : Decidable (sect.TypeInside soff) :=
  decidable_of_iff (_ ∧ _ ∧ _)
    ⟨fun h => ⟨h.1, h.2.1, h.2.2⟩, fun h => ⟨h.1, h.2, h.3⟩⟩

instance (file : File) (call : HeadersCall) :
    Decidable (call.Syncs file) :=
  match call with
  | .addSectExt => inferInstanceAs (Decidable True)
  | .addSectTypes => inferInstanceAs (Decidable True)
  | .extWrite _ _ _ _ => inferInstanceAs (Decidable True)
  | .extRead _ _ => inferInstanceAs (Decidable True)
  | .extDelete index _ =>
      inferInstanceAs (Decidable (∀ sect ∈ file.sectAt .extents index, _))
  | .extUpdate index _ _ _ _ =>
      inferInstanceAs (Decidable (∀ sect ∈ file.sectAt .extents index, _))
  | .typesWrite _ _ => inferInstanceAs (Decidable True)
  | .typesDelete index _ =>
      inferInstanceAs (Decidable (∀ sect ∈ file.sectAt .types index, _))

instance (file : File) : Decidable file.Bordered :=
  inferInstanceAs (Decidable (∀ head ∈ file.extents ++ file.types, _))

theorem emptyFile_run (allowed : File → HeadersCall → Prop) :
    HeadersRun allowed emptyFile :=
  .init ⟨⟨0, [], [], Storage.empty⟩, rfl⟩

def exampleExtWrite (char : Byte) : HeadersCall :=
  .extWrite 0 (stringCtor [char]) [122]
    (entityInit (stringCtor [char]) (.string (stringCtor [122])) 0 0 0 0)

theorem headersRun_law_delete : ∃ file : File,
    HeadersLaw file ∧ file.lstSectPtr = 16392 := by
  obtain ⟨file, run, hlsp⟩ := Run.exists_of_any headersStep
    (fun file call => decide file.Bordered && decide (call.Syncs file))
    [.addSectExt, .addSectTypes, exampleExtWrite 97, exampleExtWrite 98,
      .extDelete 0 112, .typesWrite 0 ⟨stringCtor [97], []⟩]
    (fun file => file.lstSectPtr == 16392)
    id (by simp) (emptyFile_run (fun file call =>
      file.Bordered ∧ call.Syncs file)) (by decide_cbv)
  exact ⟨file, headersRun_law run, by simpa using hlsp⟩

/-- An update in the gap of a record that is not the lowest one leaves in the
file the borders it worked with. -/
theorem headersRun_law_fails : ¬ ∀ file : File,
    HeadersRun (fun file _ => file.Bordered) file → HeadersLaw file := by
  intro hlaw
  obtain ⟨file, run, hbad⟩ := Run.exists_of_any headersStep
    (fun file _ => decide file.Bordered)
    [.addSectExt, exampleExtWrite 97, exampleExtWrite 98,
      .extUpdate 0 32 (stringCtor [97]) [121]
        (entityInit (stringCtor [97]) (.string (stringCtor [121])) 0 0 0 0)]
    (fun file => (file.extents ++ file.types).any (fun head =>
      file.storage.bytes head.fileOffset sizeofSectHeadEntity !=
        head.bytes))
    id (by simp) (emptyFile_run (fun file _ => file.Bordered))
    (by decide_cbv)
  rw [List.any_eq_true] at hbad
  obtain ⟨head, hmem, hne⟩ := hbad
  rw [bne_iff_ne] at hne
  exact hne ((hlaw file run).sect head hmem)

end NosqlDbms
