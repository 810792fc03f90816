import NosqlDbms.FailedCalls
import Mathlib

/-!
# Registering types

The server registers the type that a request names before it carries the
request out, whatever the request is and whether the type is there or not.
Every request changes the types sections.
-/

namespace NosqlDbms

namespace Network

/-- A request that was served, with the file before and after it. -/
structure Served where
  name : Str
  before : File
  after : File

structure ServerState where
  file : File
  /-- Types registered, with the offsets returned; a server deletes none. -/
  added : List (ℕ × DocType)
  /-- The requests served, the last one first. -/
  served : List Served

/-- A request, with what lies behind strings in memory when it is served and
bounds for its recursion and its loops. -/
structure ServerCall where
  request : Request
  past : Str → List Byte
  depth : ℕ
  rounds : ℕ

def ServerCall.typeName (call : ServerCall) : Str :=
  (typeInit call.request.typeName).name

/-- The state after a request. -/
def serverStep (call : ServerCall) (state : ServerState) :
    Option ServerState :=
  match (driverExecute call.past call.depth call.rounds call.request
      state.file).final with
  | none => none
  | some file => some {
      file := file
      added :=
        match fileAddType (typeInit call.request.typeName) state.file with
        | .ok foff _ => (foff, typeInit call.request.typeName) :: state.added
        | _ => state.added
      served := ⟨call.typeName, state.file, file⟩ :: state.served }

/-- The states reached from `file_ctor`. -/
abbrev ServerRun : ServerState → Prop :=
  Run (fun state => state.added = [] ∧ state.served = [] ∧
      ∃ file₀, fileCtor file₀ = .ok () state.file)
    (fun call state state' => serverStep call state = some state')
    (fun _ _ => True)

/-- The types sections and `lst_sect_ptr` are as they were. -/
structure SameTypes (file file' : File) : Prop where
  heads : file'.types = file.types
  bytes : ∀ head ∈ file.types,
    file'.storage.bytes head.fileOffset SECTION_SIZE =
      file.storage.bytes head.fileOffset SECTION_SIZE
  lstSectPtr : file'.lstSectPtr = file.lstSectPtr

structure RegistryLaw (state : ServerState) : Prop where
  /-- At most one type of a name. -/
  once : (state.added.map (fun entry => entry.2.name)).Nodup
  /-- A name used before is not registered again. -/
  again : ∀ later served earlier, state.served = later ++ served :: earlier →
    served.name ∈ earlier.map Served.name →
    SameTypes served.before served.after

/-! ## Documents keep the types -/

open Prog

theorem Prog.Passes.keeps_types {α : Type} {call : Prog File α}
    (h : ∀ types : List SectHead, call.Passes (·.withTypes types)) :
    call.Keeps File.types := by
  intro file file' hfinal
  rw [passes_withTypes h file] at hfinal
  cases hcall : call (file.withTypes []) with
  | ok value last =>
      rw [hcall, Outcome.mapState_ok, Outcome.final_ok,
        Option.some.injEq] at hfinal
      rw [← hfinal]
      rfl
  | failed last =>
      rw [hcall, Outcome.mapState_failed, Outcome.final_failed,
        Option.some.injEq] at hfinal
      rw [← hfinal]
      rfl
  | stuck =>
      rw [hcall] at hfinal
      cases hfinal

theorem keeps_types_of_heads {α : Type} {call : Prog File α}
    (h : call.Keeps File.heads) : call.Keeps File.types :=
  h.comp (fun heads => heads.2.2)

theorem keeps_types_sectFileoff (kind : SectKind) (index soff : ℕ) :
    (fileSectFileoff kind index soff).Keeps File.types :=
  (keeps_types_of_heads (keeps_sectHead kind index)).bind
    (fun _ => keeps_pure _)

theorem keeps_types_headSync : fileHeadSync.Keeps File.types :=
  Prog.Passes.keeps_types (fun _ => passes_fileHeadSync)

theorem keeps_types_write (json : Json) (dadFileoff typeFoff : ℕ) :
    (fileWrite json dadFileoff typeFoff).Keeps File.types :=
  Prog.Passes.keeps_types
    (fun _ => passes_fileWrite json dadFileoff typeFoff)

theorem keeps_types_delete (fuel foff : ℕ) (isRoot : Bool) :
    (fileDelete fuel foff isRoot).Keeps File.types :=
  Prog.Passes.keeps_types (fun _ => passes_fileDelete fuel foff isRoot)

theorem keeps_types_userWrite (json : Json) (typeName : Str) :
    (userWrite json typeName).Keeps File.types := by
  have hfind : (fileFindType typeName).Keeps File.types :=
    (keeps_fileFindType typeName).comp (fun shown => shown.2.2.1)
  apply hfind.bind
  intro found
  split
  · apply (keeps_types_sectFileoff _ _ _).bind
    intro typeFoff
    exact keeps_types_write json 0 typeFoff
  · exact keeps_fail

section Past

variable (past : Str → List Byte) (depth : ℕ)

theorem keeps_types_deleteFrom (rounds : ℕ) (iter : Iter) :
    (userDeleteFrom past depth rounds iter).Keeps File.types := by
  induction rounds generalizing iter with
  | zero => exact keeps_stuck
  | succ rounds ih =>
      rw [userDeleteFrom]
      split
      · exact keeps_pure ()
      · apply (keeps_types_delete depth _ true).bind
        intro _
        apply (keeps_types_of_heads (keeps_iterNext past depth iter)).bind
        exact fun iter => ih iter

theorem keeps_types_updateFrom (newJson : Json) (rounds : ℕ) (iter : Iter) :
    (userUpdateFrom past depth newJson rounds iter).Keeps File.types := by
  induction rounds generalizing iter with
  | zero => exact keeps_stuck
  | succ rounds ih =>
      rw [userUpdateFrom]
      split
      · exact keeps_pure ()
      · apply (keeps_types_delete depth _ true).bind
        intro _
        apply (keeps_types_write newJson _ _).bind
        intro _
        apply (keeps_types_of_heads (keeps_iterNext past depth iter)).bind
        exact fun iter => ih iter

theorem keeps_types_apply (rounds : ℕ) (command : Command) :
    (userApply past depth rounds command).Keeps File.types := by
  have hctor : (iterCtor past depth command.query).Keeps File.types :=
    keeps_types_of_heads (keeps_iterCtor past depth command.query)
  rw [userApply]
  split
  · exact (keeps_types_userWrite _ _).bind (fun _ => keeps_pure _)
  · exact hctor.bind (fun _ => keeps_pure _)
  · apply (hctor.bind (keeps_types_updateFrom past depth command.json
      rounds)).bind
    exact fun _ => keeps_pure _
  · apply (hctor.bind (keeps_types_deleteFrom past depth rounds)).bind
    exact fun _ => keeps_pure _

end Past

/-! ## A registration does not -/

theorem sectHeadShiftLip_head {shift : ℕ} {sect sect' : Sect}
    (hok : sectHeadShiftLip shift sect = .ok () sect') :
    sect'.head.lstItmPtr = sizeAdd sect.head.lstItmPtr shift := by
  injection hok with _ hsect
  rw [← hsect]

theorem sectTypesWrite_head {type : DocType} {wrtSoff : ℕ}
    {sect sect' : Sect} (hnone : type.attrList = [])
    (hok : sectTypesWrite type sect = .ok wrtSoff sect') :
    sect'.head ≠ sect.head := by
  rw [sectTypesWrite, bind_of_ok (Sect.getHead_apply sect)] at hok
  split at hok
  · cases hok
  · obtain ⟨_, lowered, hlowered, hok⟩ := bind_eq_ok hok
    rw [bind_of_ok (Sect.getHead_apply lowered)] at hok
    obtain ⟨_, named, hnamed, hok⟩ := bind_eq_ok hok
    obtain ⟨_, slotted, hslotted, hok⟩ := bind_eq_ok hok
    obtain ⟨_, raised, hraised, hok⟩ := bind_eq_ok hok
    rw [hnone] at hok
    injection hok with _ hsect
    have hlowered' : lowered.head.lstItmPtr = sect.head.lstItmPtr := by
      injection hlowered with _ hsect
      rw [← hsect]
    have hnamed' := (keeps_sectHeadWrite _ _).of_ok hnamed
    have hslotted' := (keeps_sectHeadWrite _ _).of_ok hslotted
    have hlip := sectHeadShiftLip_head hraised
    rw [hslotted', hnamed', hlowered', sizeAdd, sizeMax,
      sizeofTypeEntity] at hlip
    intro hhead
    rw [← hsect] at hhead
    rw [hhead] at hlip
    omega

theorem firstFit_changes {α : Type} {kind : SectKind} {call : Prog Sect α}
    (hcall : ∀ {sect sect' value}, call sect = .ok value sect' →
      sect'.head ≠ sect.head)
    {count index : ℕ} {file file' : File} {pair : ℕ × α}
    (hok : File.firstFit kind call count index file =
      .ok (some pair) file') :
    ∃ index', index ≤ index' ∧
      file'.headAt kind index' ≠ file.headAt kind index' := by
  induction count generalizing index file with
  | zero => cases hok
  | succ count ih =>
      obtain ⟨found, file₁, hstatus, hrest⟩ := bind_eq_ok hok
      rw [Prog.status] at hstatus
      cases hsect : File.onSect kind index call file with
      | ok value file₂ =>
          obtain ⟨head, sect', hhead, hvalue, rfl⟩ := onSect_eq_ok hsect
          rw [hsect] at hstatus
          injection hstatus with hfound hfile₁
          subst hfound hfile₁
          injection hrest with _ hfile
          refine ⟨index, le_rfl, ?_⟩
          rw [← hfile, File.headAt_putSect_self hhead, hhead]
          exact fun heq => hcall hvalue (Option.some.inj heq)
      | failed file₂ =>
          obtain ⟨head, sect', hhead, -, rfl⟩ := onSect_eq_failed hsect
          rw [hsect] at hstatus
          injection hstatus with hfound hfile₁
          subst hfound hfile₁
          obtain ⟨index', hle, hne⟩ := ih hrest
          refine ⟨index', by omega, ?_⟩
          rw [File.headAt_putSect_of_ne (by
            rw [Ne, Prod.mk.injEq, not_and]
            omega)] at hne
          exact hne
      | stuck =>
          rw [hsect] at hstatus
          cases hstatus

theorem keeps_length_onSect {α : Type} (kind kind' : SectKind) (index : ℕ)
    (call : Prog Sect α) :
    (File.onSect kind index call).Keeps
      (fun file => (file.sects kind').length) := by
  apply keeps_of_putSect
  intro file head sect' _ _
  exact File.length_sects_putSect

theorem keeps_length_firstFit {α : Type} (kind kind' : SectKind)
    (call : Prog Sect α) (count index : ℕ) :
    (File.firstFit kind call count index).Keeps
      (fun file => (file.sects kind').length) := by
  induction count generalizing index with
  | zero => exact keeps_pure none
  | succ count ih =>
      apply (keeps_length_onSect kind kind' index call).status.bind
      intro found
      cases found with
      | none => exact ih (index + 1)
      | some value => exact keeps_pure _

theorem unfailing_firstFit {α : Type} (kind : SectKind)
    (call : Prog Sect α) (count index : ℕ) :
    (File.firstFit kind call count index).Unfailing := by
  induction count generalizing index with
  | zero => exact unfailing_pure none
  | succ count ih =>
      apply (unfailing_status _).bind
      intro found
      cases found with
      | none => exact ih (index + 1)
      | some value => exact unfailing_pure _

theorem fileFit_changes {α : Type} {kind : SectKind} {call : Prog Sect α}
    (hcall : ∀ {sect sect' value}, call sect = .ok value sect' →
      sect'.head ≠ sect.head) :
    (fileFit kind (fileAddSect kind sectHeadCtor) call).Changes
      (fun file => file.sects kind) := by
  intro file file' hfinal
  rw [fileFit, bind_apply] at hfinal
  have hunfailing := unfailing_firstFit kind call (file.sects kind).length 0
    file
  have hlength := keeps_length_firstFit kind kind call
    (file.sects kind).length 0 file
  have hfirst : File.firstSect kind call file =
      File.firstFit kind call (file.sects kind).length 0 file := rfl
  rw [hfirst] at hfinal
  cases hloop : File.firstFit kind call (file.sects kind).length 0 file with
  | ok found file₁ =>
      rw [hloop] at hfinal
      cases found with
      | some pair =>
          injection hfinal with hfile
          obtain ⟨index, -, hne⟩ := firstFit_changes hcall hloop
          rw [← hfile]
          intro hsects
          exact hne (File.headAt_congr hsects index)
      | none =>
          have hlength₁ := hlength file₁ (by rw [hloop, Outcome.final_ok])
          dsimp only at hlength₁ hfinal
          rw [bind_of_ok (get_apply file₁),
            bind_of_ok (File.fileAddSect_eq file₁ kind)] at hfinal
          have hlast := ((keeps_length_onSect kind kind
            (file₁.sects kind).length call).bind
              (fun _ => keeps_pure _)) _ _ hfinal
          dsimp only at hlast
          rw [File.sects_extended_self, List.length_append, hlength₁,
            List.length_singleton] at hlast
          intro hsects
          dsimp only at hsects
          rw [hsects] at hlast
          omega
  | failed file₁ =>
      rw [hloop] at hunfailing
      cases hunfailing
  | stuck =>
      rw [hloop] at hfinal
      cases hfinal

theorem fileAddType_changes {type : DocType} (hnone : type.attrList = []) :
    (fileAddType type).Changes File.types := by
  have hfit : (fileFit .types fileAddSectTypes (sectTypesWrite type)).Changes
      File.types :=
    fileFit_changes (fun hok => sectTypesWrite_head hnone hok)
  apply hfit.before
  intro found
  apply (keeps_types_sectFileoff _ _ _).bind
  intro wrtFoff
  exact keeps_types_headSync.bind (fun _ => keeps_pure _)

theorem driverExecute_changes (past : Str → List Byte) (depth rounds : ℕ)
    (request : Request) :
    (driverExecute past depth rounds request).Changes File.types := by
  have hadd : (userAddType (typeInit request.typeName)).Changes
      File.types :=
    (fileAddType_changes rfl).before (fun _ => keeps_pure _)
  apply hadd.status.before
  intro _
  apply (keeps_types_apply past depth rounds _).status.bind
  intro applied
  split
  · exact keeps_pure _
  · exact keeps_pure _
  · apply (keeps_types_of_heads
      (keeps_collectFrom past depth rounds _)).bind
    exact fun _ => keeps_pure _

/-! ## Whole runs -/

/-- Each request registered its name, and none kept the types. -/
structure RegistryInv (state : ServerState) : Prop where
  added : (state.added.map (fun entry => entry.2.name)).Sublist
    (state.served.map Served.name)
  changed : ∀ served ∈ state.served, served.after.types ≠ served.before.types

theorem RegistryInv.step {state state' : ServerState} {call : ServerCall}
    (h : RegistryInv state) (hstep : serverStep call state = some state') :
    RegistryInv state' := by
  rw [serverStep] at hstep
  split at hstep
  · cases hstep
  · next file hfinal =>
      injection hstep with hstate
      rw [← hstate]
      constructor
      · dsimp only
        split
        · exact h.added.cons_cons _
        · exact h.added.cons _
      · intro served hmem
        rcases List.mem_cons.mp hmem with rfl | hmem
        · exact driverExecute_changes _ _ _ _ state.file file hfinal
        · exact h.changed served hmem

theorem ServerRun.inv {state : ServerState} (run : ServerRun state) :
    RegistryInv state := by
  apply run.invariant
  · rintro state ⟨hadded, hserved, -⟩
    constructor
    · rw [hadded, hserved]
      exact List.Sublist.slnil
    · rw [hserved]
      intro served hmem
      exact absurd hmem List.not_mem_nil
  · intro state call state' hinv _ hstep
    exact hinv.step hstep

theorem names_nodup {requests : List Served}
    (hchanged : ∀ served ∈ requests,
      served.after.types ≠ served.before.types)
    (hagain : ∀ later served earlier, requests = later ++ served :: earlier →
      served.name ∈ earlier.map Served.name →
      SameTypes served.before served.after) :
    (requests.map Served.name).Nodup := by
  induction requests with
  | nil => exact .nil
  | cons served earlier ih =>
      rw [List.map_cons, List.nodup_cons]
      constructor
      · intro hmem
        exact hchanged served List.mem_cons_self
          (hagain [] served earlier rfl hmem).heads
      · apply ih
        · intro served' hmem
          exact hchanged served' (List.mem_cons_of_mem _ hmem)
        · intro later served' earlier' hsplit
          exact hagain (served :: later) served' earlier'
            (by rw [hsplit, List.cons_append])

/-- The catalogue holds one type of each name and repeated requests leave it
alone exactly when no name is used twice. -/
theorem registryLaw_iff {state : ServerState} (run : ServerRun state) :
    RegistryLaw state ↔ (state.served.map Served.name).Nodup := by
  have hinv := run.inv
  constructor
  · intro hlaw
    exact names_nodup hinv.changed hlaw.again
  · intro hnodup
    constructor
    · exact hnodup.sublist hinv.added
    · intro later served earlier hsplit hmem
      rw [hsplit, List.map_append, List.map_cons] at hnodup
      have hlast := (List.nodup_append.mp hnodup).2.1
      exact absurd hmem (List.nodup_cons.mp hlast).1

def exampleCall (type : CommandType) (name : List Byte) : ServerCall where
  request := {
    type := type
    typeName := name
    query := []
    json := .node .object [99] ⟨0, 0, [], false⟩ .null .null
    json_ne := by simp }
  past := fun _ => []
  depth := 2
  rounds := 2

theorem emptyFile_serverRun : ServerRun ⟨emptyFile, [], []⟩ :=
  .init ⟨rfl, rfl, ⟨0, [], [], Storage.empty⟩, rfl⟩

theorem registryLaw_iff_two : ∃ state : ServerState,
    RegistryLaw state ∧ state.served.length = 2 := by
  obtain ⟨state, run, hnames⟩ := Run.exists_of_any serverStep
    (fun _ _ => true) [exampleCall .insert [97], exampleCall .read [98]]
    (fun state => decide (state.served.map Served.name =
      [stringCtor [98], stringCtor [97]]))
    id (fun _ => trivial) emptyFile_serverRun (by decide_cbv)
  have hserved := of_decide_eq_true hnames
  refine ⟨state, (registryLaw_iff run).mpr ?_, ?_⟩
  · rw [hserved]
    decide
  · rw [← List.length_map, hserved]
    rfl

/-- Reading twice registers the type twice. -/
theorem registryLaw_fails : ¬ ∀ state : ServerState,
    ServerRun state → RegistryLaw state := by
  intro hlaw
  obtain ⟨state, run, hnames⟩ := Run.exists_of_any serverStep
    (fun _ _ => true) [exampleCall .read [97], exampleCall .read [97]]
    (fun state => decide (state.added.map (fun entry => entry.2.name) =
      [stringCtor [97], stringCtor [97]]))
    id (fun _ => trivial) emptyFile_serverRun (by decide_cbv)
  have honce := (hlaw state run).once
  rw [of_decide_eq_true hnames] at honce
  exact absurd honce (by decide)

end Network

end NosqlDbms
