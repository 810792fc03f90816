import NosqlDbms.Catalogue
import NosqlDbms.DocumentsRun
import NosqlDbms.FileDelete
import Mathlib.Tactic

/-!
# Objects written and deleted

Runs of `file_write` and of `file_delete` of whole objects.  A deletion gives
the room of its records back by a scan that takes any zero byte for free room.
Where no scan meets a live record that begins with a zero byte, the objects
that are not deleted stay what they were.
-/

namespace NosqlDbms

/-- An object: where `file_write` put it, and the tree it was given. -/
structure Object where
  foff : ℕ
  json : Json

structure ObjectsState where
  file : File
  /-- Written and not deleted since. -/
  objects : List Object

inductive ObjectsCall where
  | write (json : Json) (typeFoff : ℕ)
  | delete (depth foff : ℕ)

/-- The state after a call, when it returns, with either status. -/
def objectsStep (call : ObjectsCall) (state : ObjectsState) :
    Option ObjectsState :=
  match call with
  | .write json typeFoff =>
      match fileWrite json 0 typeFoff state.file with
      | .ok foff file => some ⟨file, ⟨foff, json⟩ :: state.objects⟩
      | .failed file => some ⟨file, state.objects⟩
      | .stuck => none
  | .delete depth foff =>
      match (fileDelete depth foff true state.file).final with
      | some file => some ⟨file,
          state.objects.filter (fun object => object.foff != foff)⟩
      | none => none

/-- A tree without brothers at its root whose nodes fit, or an object that is
there, with room for the recursion over its nodes. -/
def ObjectsCall.Valid (state : ObjectsState) : ObjectsCall → Prop
  | .write json _ =>
      json.isNull = false ∧ json.broless = true ∧ json.Fits
  | .delete depth foff => ∃ object ∈ state.objects, object.foff = foff ∧
      object.json.nodes.length ≤ depth

instance instDecidableObjectsValid (state : ObjectsState)
    (call : ObjectsCall) : Decidable (call.Valid state) :=
  match call with
  | .write json _ => inferInstanceAs (Decidable (_ = _ ∧ _ = _ ∧ json.Fits))
  | .delete depth foff => inferInstanceAs (Decidable (∃ object ∈
      state.objects, object.foff = foff ∧ object.json.nodes.length ≤ depth))

def ObjectsCall.Keeps (state : ObjectsState) : ObjectsCall → Prop
  | .write _ _ => True
  | .delete depth foff =>
      state.file.BordersKept (state.file.nodeFoffs depth true foff)

/-- The states reached from `file_ctor`. -/
abbrev ObjectsRun : (ObjectsState → ObjectsCall → Prop) → ObjectsState →
    Prop :=
  Run (fun state => state.objects = [] ∧ ∃ file₀,
      fileCtor file₀ = .ok () state.file)
    (fun call state state' => objectsStep call state = some state')

structure ObjectsLaw (state : ObjectsState) : Prop where
  read : ∀ object ∈ state.objects, state.file.Reads object.foff object.json
  returns : ∀ call : ObjectsCall, call.Valid state → call.Keeps state →
    ∃ state', objectsStep call state = some state'

/-! ## The invariant -/

structure ObjectsInv (state : ObjectsState) (contents : Contents) : Prop where
  holds : state.file.Holds contents.Spelled
  stored : ∀ object ∈ state.objects, object.json.isNull = false ∧
    object.json.broless = true ∧ ∃ typePtr,
      object.json.Stored (state.file.Stores contents) 0 typePtr object.foff
  nodup : (state.objects.map Object.foff).Nodup

section Inv

variable {state : ObjectsState} {contents : Contents}

theorem ObjectsInv.write (h : ObjectsInv state contents) {json : Json}
    (hnull : json.isNull = false) (hroot : json.broless = true)
    (hfits : json.Fits) (typeFoff : ℕ) :
    ∃ state' contents', objectsStep (.write json typeFoff) state =
        some state' ∧ ObjectsInv state' contents' := by
  have hwrote := @File.Holds.write_link _ _ json h.holds 0 typeFoff
  rw [if_neg (by rw [hnull]; exact Bool.false_ne_true)] at hwrote
  rcases hwrote with ⟨-, foff, file, contents', hwrite, hgrows, hstored⟩ |
    ⟨hnot, -⟩
  · refine ⟨⟨file, ⟨foff, json⟩ :: state.objects⟩, contents', ?_, ?_⟩
    · rw [objectsStep, hwrite]
    · refine ⟨hgrows.holds, fun object hmem => ?_, ?_⟩
      · rcases List.mem_cons.mp hmem with rfl | hmem
        · exact ⟨hnull, hroot, typeFoff,
            hstored.mono (fun _ _ hadded => hadded.1)⟩
        · obtain ⟨hnull', hroot', typePtr, hold⟩ := h.stored object hmem
          exact ⟨hnull', hroot', typePtr,
            hold.mono (fun _ _ hitem => hgrows.stores hitem)⟩
      · rw [List.map_cons, List.nodup_cons]
        refine ⟨fun hmem => ?_, h.nodup⟩
        obtain ⟨object, hobject, hfoff⟩ := List.mem_map.mp hmem
        obtain ⟨hnull', -, typePtr, hold⟩ := h.stored object hobject
        rw [hfoff] at hold
        cases hjson : object.json with
        | null =>
            rw [hjson] at hnull'
            cases hnull'
        | node key value bro son =>
            rw [hjson] at hold
            obtain ⟨-, item, hitem, -⟩ := hold
            cases json with
            | null => cases hnull
            | node key' value' bro' son' =>
                obtain ⟨-, item', ⟨-, hnew⟩, -⟩ := hstored
                exact hnew item hitem
  · exact absurd hfits hnot

theorem ObjectsInv.delete (h : ObjectsInv state contents) {depth foff : ℕ}
    (hvalid : (ObjectsCall.delete depth foff).Valid state)
    (hkeeps : (ObjectsCall.delete depth foff).Keeps state) :
    ∃ state' contents', objectsStep (.delete depth foff) state =
        some state' ∧ ObjectsInv state' contents' := by
  obtain ⟨object, hobject, rfl, hdepth⟩ := hvalid
  obtain ⟨hnull, hroot, typePtr, hstored⟩ := h.stored object hobject
  obtain ⟨foffs, hlaid⟩ := hstored.laid
  have hnodup := hlaid.nodup h.holds.functional
    (fun hmem => hlaid.ne_zero hmem rfl)
  obtain ⟨item, sonFoffs, son, hitem, hdad, hson, hfuel, hfoffs⟩ :
      ∃ item sonFoffs son, state.file.Stores contents object.foff item ∧
        item.entity.famAddr.dadPtr = 0 ∧
        Json.Laid (state.file.Stores contents) son object.foff 0
          item.entity.famAddr.sonPtr sonFoffs ∧
        son.nodes.length < depth ∧ foffs = object.foff :: sonFoffs := by
    cases hjson : object.json with
    | null =>
        rw [hjson] at hnull
        cases hnull
    | node key value bro son =>
        rw [hjson] at hroot hdepth hlaid
        rw [Json.nodes, List.length_cons, List.length_append] at hdepth
        obtain ⟨-, item, broFoffs, sonFoffs, hitem, -, hdad, -, hbro, hson,
          hfoffs⟩ := hlaid
        cases bro with
        | null =>
            rw [hbro.2, List.nil_append] at hfoffs
            exact ⟨item, sonFoffs, son, hitem, hdad, hson, by omega, hfoffs⟩
        | node _ _ _ _ => cases hroot
  rw [ObjectsCall.Keeps, h.holds.nodeFoffs_root hitem hson hfuel,
    ← hfoffs] at hkeeps
  have hsafe := hkeeps.safe h.holds
  rw [hfoffs] at hnodup hsafe
  obtain ⟨file, contents', hdelete, herases⟩ :=
    h.holds.delete_root hitem hdad hson hnodup hfuel hsafe
  rw [← hfoffs] at herases
  refine ⟨⟨file, state.objects.filter
    (fun other => other.foff != object.foff)⟩, contents', ?_,
    herases.holds, fun other hmem => ?_, ?_⟩
  · simp only [objectsStep, hdelete, Outcome.final_ok]
  · obtain ⟨hother, hne⟩ := List.mem_filter.mp hmem
    obtain ⟨hnull', hroot', typePtr', hstored'⟩ := h.stored other hother
    obtain ⟨foffs', hlaid'⟩ := hstored'.laid
    have hapart := hlaid'.apart h.holds.functional hlaid hroot' hroot
      (by simpa using hne)
    refine ⟨hnull', hroot', typePtr', Json.Laid.stored
      (hlaid'.congr (fun foff' hmem' item hitem => ?_))⟩
    exact herases.stores_iff.mpr ⟨hapart foff' hmem', hitem⟩
  · exact h.nodup.sublist (List.filter_sublist.map _)

theorem ObjectsInv.step (h : ObjectsInv state contents) {call : ObjectsCall}
    (hvalid : call.Valid state) (hkeeps : call.Keeps state) :
    ∃ state' contents', objectsStep call state = some state' ∧
      ObjectsInv state' contents' := by
  cases call with
  | write json typeFoff =>
      obtain ⟨hnull, hroot, hfits⟩ := hvalid
      exact h.write hnull hroot hfits typeFoff
  | delete depth foff => exact h.delete hvalid hkeeps

theorem ObjectsInv.init (hobjects : state.objects = [])
    (hctor : ∃ file₀, fileCtor file₀ = .ok () state.file) :
    ObjectsInv state ⟨fun _ _ => none, fun _ => []⟩ := by
  obtain ⟨file₀, hctor⟩ := hctor
  obtain ⟨file, hctor', hholds, -⟩ := fileCtor_holds file₀
  rw [hctor'] at hctor
  injection hctor with _ hfile
  rw [hfile] at hholds
  refine ⟨hholds, ?_, by rw [hobjects]; exact .nil⟩
  rw [hobjects]
  intro object hmem
  exact absurd hmem List.not_mem_nil

theorem ObjectsInv.law (h : ObjectsInv state contents) :
    ObjectsLaw state where
  read := by
    intro object hmem
    obtain ⟨hnull, -, typePtr, hstored⟩ := h.stored object hmem
    exact h.holds.reads hstored hnull
  returns := by
    intro call hvalid hkeeps
    obtain ⟨state', -, hstep, -⟩ := h.step hvalid hkeeps
    exact ⟨state', hstep⟩

end Inv

/-! ## Whole runs -/

theorem ObjectsRun.inv {state : ObjectsState}
    (run : ObjectsRun (fun state call => call.Valid state ∧
      call.Keeps state) state) : ∃ contents, ObjectsInv state contents := by
  apply run.invariant
  · rintro state ⟨hobjects, hctor⟩
    exact ⟨_, .init hobjects hctor⟩
  · rintro state call state' ⟨contents, hinv⟩ ⟨hvalid, hkeeps⟩ hstep
    obtain ⟨next, contents', hnext, hinv'⟩ := hinv.step hvalid hkeeps
    rw [hstep, Option.some.injEq] at hnext
    exact ⟨contents', hnext ▸ hinv'⟩

/-- Objects that are not deleted are read back as they were written, when no
deletion leaves a lowest record behind that begins with a zero byte. -/
theorem objectsRun_law {state : ObjectsState}
    (run : ObjectsRun (fun state call => call.Valid state ∧
      call.Keeps state) state) : ObjectsLaw state := by
  obtain ⟨contents, hinv⟩ := run.inv
  exact hinv.law

def File.bordersTest (file : File) : List ℕ → List ℕ → Bool
  | _, [] => true
  | before, foff :: after =>
      (List.range file.extents.length).all (fun index =>
        (file.sectAt .extents index).all (fun sect =>
          !(decide (sect.head.fileOffset ≤ foff) &&
              decide (foff < sect.head.fileOffset + SECTION_SIZE)) ||
            sect.borderByte ((before ++ [foff]).map
              (· - sect.head.fileOffset)) != some 0)) &&
      file.bordersTest (before ++ [foff]) after

theorem File.bordersKept_of_test {file : File} {gone foffs : List ℕ}
    (htest : file.bordersTest gone foffs = true) {before after : List ℕ}
    {foff : ℕ} (hsplit : foffs = before ++ foff :: after) {index : ℕ}
    {sect : Sect} (hsect : sect ∈ file.sectAt .extents index)
    (hlow : sect.head.fileOffset ≤ foff)
    (hhigh : foff < sect.head.fileOffset + SECTION_SIZE) :
    sect.borderByte ((gone ++ before ++ [foff]).map
      (· - sect.head.fileOffset)) ≠ some 0 := by
  induction before generalizing gone foffs with
  | nil =>
      rw [List.nil_append] at hsplit
      rw [hsplit, bordersTest, Bool.and_eq_true, List.all_eq_true] at htest
      have hindex : index ∈ List.range file.extents.length := by
        rw [File.sectAt, Option.mem_def, Option.map_eq_some_iff] at hsect
        obtain ⟨head, hhead, -⟩ := hsect
        exact List.mem_range.mpr (List.getElem?_eq_some_iff.mp hhead).1
      have hone := htest.1 index hindex
      rw [Option.mem_def] at hsect
      rw [hsect, Option.all_some, decide_eq_true hlow,
        decide_eq_true hhigh] at hone
      rw [List.append_nil]
      simpa using hone
  | cons first before ih =>
      rw [List.cons_append] at hsplit
      rw [hsplit, bordersTest, Bool.and_eq_true] at htest
      have hrest := ih htest.2 rfl
      rw [List.append_assoc gone, List.singleton_append] at hrest
      exact hrest

def ObjectsCall.keepsTest (state : ObjectsState) : ObjectsCall → Bool
  | .write _ _ => true
  | .delete depth foff =>
      state.file.bordersTest [] (state.file.nodeFoffs depth true foff)

theorem ObjectsCall.keeps_of_test {state : ObjectsState} {call : ObjectsCall}
    (htest : call.keepsTest state = true) : call.Keeps state := by
  cases call with
  | write json typeFoff => trivial
  | delete depth foff =>
      intro before foff' after hsplit index sect hsect hlow hhigh
      exact File.bordersKept_of_test htest hsplit hsect hlow hhigh

def exampleNode (key : List Byte) (value : JsonValue) (son : Json) : Json :=
  .node (stringCtor key) value .null son

theorem emptyFile_objectsRun
    (allowed : ObjectsState → ObjectsCall → Prop) :
    ObjectsRun allowed ⟨emptyFile, []⟩ :=
  .init ⟨rfl, ⟨0, [], [], Storage.empty⟩, rfl⟩

theorem objectsRun_law_two : ∃ state : ObjectsState, ObjectsLaw state ∧
    state.objects.map Object.foff = [120] := by
  obtain ⟨state, run, hfoffs⟩ := Run.exists_of_any objectsStep
    (fun state call => decide (call.Valid state) && call.keepsTest state)
    [.write (exampleNode [97] (.string (stringCtor [120])) .null) 0,
      .write (exampleNode [98] .object
        (exampleNode [99] (.string (stringCtor [121])) .null)) 0,
      .delete 1 40]
    (fun state => state.objects.map Object.foff == [120])
    id
    (fun htest => by
      rw [Bool.and_eq_true] at htest
      exact ⟨of_decide_eq_true htest.1, ObjectsCall.keeps_of_test htest.2⟩)
    (emptyFile_objectsRun (fun state call => call.Valid state ∧
      call.Keeps state))
    (by decide_cbv)
  exact ⟨state, objectsRun_law run, by simpa using hfoffs⟩

/-- A new object is written over the zero bytes of a live one. -/
theorem objectsRun_law_fails : ¬ ∀ state : ObjectsState,
    ObjectsRun (fun state call => call.Valid state) state →
      ObjectsLaw state := by
  intro hlaw
  obtain ⟨state, run, hfound⟩ := Run.exists_of_any objectsStep
    (fun state call => decide (call.Valid state))
    [.write (exampleNode [97] (.int32 0) .null) 0,
      .write (exampleNode [98] (.int32 0) .null) 0,
      .delete 1 40,
      .write (exampleNode [99] (.int32 256) .null) 0]
    (fun state =>
      state.objects.any (fun object => object.foff == 120 &&
        object.json == exampleNode [98] (.int32 0) .null) &&
      (fileAt .extents 120 sectExtRead state.file).holds (fun read _ =>
        read.2.1.famAddr.broPtr == 0 && read.2.1.famAddr.sonPtr == 0 &&
          read.2.2.2 != .int32 0))
    id of_decide_eq_true
    (emptyFile_objectsRun (fun state call => call.Valid state))
    (by decide_cbv)
  rw [Bool.and_eq_true] at hfound
  obtain ⟨hobject, hvalue⟩ := hfound
  rw [List.any_eq_true] at hobject
  obtain ⟨object, hmem, hobject⟩ := hobject
  rw [Bool.and_eq_true, beq_iff_eq, beq_iff_eq] at hobject
  obtain ⟨hfoff, hjson⟩ := hobject
  obtain ⟨depth, hreads⟩ := (hlaw state run).read object hmem
  obtain ⟨entity, file', hread⟩ := hreads (depth + 1) (Nat.le_succ depth)
  rw [hfoff, hjson] at hread
  obtain ⟨⟨soff, entity', key, value⟩, file, hat, hvalue⟩ :=
    Outcome.exists_of_holds hvalue
  rw [Bool.and_eq_true, Bool.and_eq_true, beq_iff_eq, beq_iff_eq,
    bne_iff_ne] at hvalue
  obtain ⟨⟨hbro, hson⟩, hne⟩ := hvalue
  rw [fileRead_leaf depth hat hbro hson] at hread
  injection hread with hread _
  injection hread with hread _
  injection hread with _ hread _ _
  exact hne hread

end NosqlDbms
