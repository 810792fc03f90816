import NosqlDbms.FileForest
import Mathlib.Tactic

/-!
# Documents read back

Runs of `file_add_type` and `file_write`.  A document that was written is read
back as it was, from then on, and its links in the file spell the tree.  What a
call that FAILED has left behind is kept as well.
-/

namespace NosqlDbms

/-- The pointers in the file spell the tree, 0 where there is no node. -/
def Json.Linked (file : File) : Json → ℕ → ℕ → ℕ → Prop
  | .null, _, _, foff => foff = 0
  | .node _ _ bro son, dad, typePtr, foff =>
      foff ≠ 0 ∧
        (file.entityAt foff).famAddr.dadPtr = dad ∧
        (file.entityAt foff).typePtr = typePtr ∧
        bro.Linked file dad 0 (file.entityAt foff).famAddr.broPtr ∧
        son.Linked file foff 0 (file.entityAt foff).famAddr.sonPtr

structure DocumentsState where
  file : File
  /-- What `file_write` returned. -/
  written : List ℕ
  /-- Where it put entities, with either status. -/
  slots : List ℕ

/-- The state after a call, when it returns, with either status. -/
def documentsStep (call : SectionsCall) (state : DocumentsState) :
    Option DocumentsState :=
  match call with
  | .addType type =>
      match fileAddType type state.file with
      | .ok _ file => some { state with file := file }
      | .failed file => some { state with file := file }
      | .stuck => none
  | .write json dadFileoff typeFoff =>
      let slots := fileWritten json dadFileoff typeFoff state.file ++
        state.slots
      match fileWrite json dadFileoff typeFoff state.file with
      | .ok foff file => some ⟨file, foff :: state.written, slots⟩
      | .failed file => some ⟨file, state.written, slots⟩
      | .stuck => none

/-- The states reached from `file_ctor`. -/
abbrev DocumentsRun : DocumentsState → Prop :=
  Run (fun state => state.written = [] ∧ state.slots = [] ∧ ∃ file₀,
      fileCtor file₀ = .ok () state.file)
    (fun call state state' => documentsStep call state = some state')
    (fun _ _ => True)

/-- Roots that were written and the nodes their links lead to. -/
inductive DocumentsState.Written (state : DocumentsState) : ℕ → Prop
  | root {foff : ℕ} (hmem : foff ∈ state.written) : state.Written foff
  | bro {foff : ℕ} (h : state.Written foff)
      (hne : (state.file.entityAt foff).famAddr.broPtr ≠ 0) :
      state.Written (state.file.entityAt foff).famAddr.broPtr
  | son {foff : ℕ} (h : state.Written foff)
      (hne : (state.file.entityAt foff).famAddr.sonPtr ≠ 0) :
      state.Written (state.file.entityAt foff).famAddr.sonPtr

structure DocumentsLaw (state : DocumentsState) : Prop where
  writes : ∀ json : Json, json.isNull = false → ∀ dadFileoff typeFoff,
    ((fileWrite json dadFileoff typeFoff state.file).isOk = true ↔
      json.Fits)
  written : ∀ json dadFileoff typeFoff foff file',
    fileWrite json dadFileoff typeFoff state.file = .ok foff file' →
      file'.Reads foff json ∧ json.Linked file' dadFileoff typeFoff foff
  kept : ∀ call state', documentsStep call state = some state' →
    ∀ foff, state.Written foff → ∃ json,
      state.file.Reads foff json ∧ state'.file.Reads foff json
  slots : ∀ call state', documentsStep call state = some state' →
    ∀ foff ∈ state.slots,
      state'.file.entityAt foff = state.file.entityAt foff ∧ ∃ json,
        state.file.Reads foff json ∧ state'.file.Reads foff json

/-! ## What a stored tree means for the file -/

section Stored

variable {file : File} {contents : Contents} {json : Json}
  {dad typePtr foff : ℕ} {item : Item}

theorem DocumentsInv.reads (h : DocumentsInv file contents)
    (hstored : json.Stored (file.Stores contents) dad typePtr foff)
    (hnull : json.isNull = false) : file.Reads foff json := by
  obtain ⟨depth, hreads⟩ := @File.Holds.reads (file.withTypes []) contents
    foff json dad typePtr h.documents hstored hnull
  refine ⟨depth, fun fuel hfuel => ?_⟩
  obtain ⟨entity, file', hread⟩ := hreads fuel hfuel
  have hpasses := passes_withTypes
    (fun types => @passes_fileRead types fuel foff) file
  rw [hread, Outcome.mapState_ok] at hpasses
  exact ⟨_, _, hpasses⟩

theorem DocumentsInv.linked (h : DocumentsInv file contents)
    (hstored : json.Stored (file.Stores contents) dad typePtr foff) :
    json.Linked file dad typePtr foff := by
  induction json generalizing dad typePtr foff with
  | null => exact hstored
  | node key value bro son ihBro ihSon =>
      obtain ⟨hne, item, hitem, -, hdad, htype, hbro, hson⟩ := hstored
      have hentity : file.entityAt foff = item.entity :=
        h.documents.entityAt hitem
      refine ⟨hne, by rw [hentity, hdad], by rw [hentity, htype], ?_, ?_⟩
      · rw [hentity]
        exact ihBro hbro
      · rw [hentity]
        exact ihSon hson

/-- The slots are those of the file without types. -/
theorem fileWritten_withTypes (types : List SectHead) (json : Json)
    (dad typePtr : ℕ) (file : File) :
    fileWritten json dad typePtr (file.withTypes types) =
      fileWritten json dad typePtr file := by
  induction json generalizing dad typePtr file with
  | null => rfl
  | node key value bro son ihBro ihSon =>
      rw [fileWritten, fileWritten]
      generalize hcall : (do
        let found ← fileFit .extents fileAddSectExt
          (sectExtWrite key (jsonValPtr value)
            (entityInit key value dad 0 0 typePtr))
        let wrtFoff ← fileSectFileoff .extents found.1 found.2.1
        return (found, wrtFoff) : Prog File _) = call
      have hpasses : call.Passes (·.withTypes types) := by
        rw [← hcall]
        apply (passes_fileFit _).bind
        intro found
        apply ((passes_sectHead found.1).bind
          (fun head => Prog.passes_pure _)).bind
        exact fun wrtFoff => Prog.passes_pure _
      have hrelative : (if bro.isNull then pure 0
          else fileWrite bro dad 0 : Prog File ℕ).Passes
            (·.withTypes types) := by
        split
        · exact Prog.passes_pure 0
        · exact passes_fileWrite bro dad 0
      rw [hpasses file]
      cases call file with
      | ok found file₁ =>
          simp only [Outcome.mapState_ok, ihBro, hrelative file₁]
          cases (if bro.isNull then pure 0
            else fileWrite bro dad 0 : Prog File ℕ) file₁ with
          | ok broOffset file₂ => simp only [Outcome.mapState_ok, ihSon]
          | failed file₂ => rfl
          | stuck => rfl
      | failed file₁ => rfl
      | stuck => rfl

/-- A write puts a tree beside what is there, or a part of it and FAILS. -/
theorem DocumentsInv.write_laid (h : DocumentsInv file contents)
    (hsound : (file.Stores contents).Sound) (hnull : json.isNull = false)
    (dad typePtr : ℕ) : ∃ file' contents', DocumentsInv file' contents' ∧
      Heap.GrowsBy (file.Stores contents) (file'.Stores contents')
        (fileWritten json dad typePtr file) ∧
      (fileWrite json dad typePtr file = .failed file' ∨ ∃ foff,
        fileWrite json dad typePtr file = .ok foff file' ∧
        json.Stored (file'.Stores contents') dad typePtr foff ∧
        foff ∈ fileWritten json dad typePtr file) := by
  have hpasses := passes_withTypes
    (fun types => @passes_fileWrite types json dad typePtr) file
  have hsections : ∀ {file'},
      (fileWrite json dad typePtr file).final = some file' →
      SectionsInv file' :=
    fun hfinal => ((follows_fileWrite json dad typePtr).final h.sections
      hfinal).1
  obtain ⟨file', contents', hgrows, hgrowsBy, -, houtcome⟩ :=
    @File.Holds.write_laid (file.withTypes []) contents json h.documents hsound dad
      typePtr
  have htypes : (file'.withTypes file.types).withTypes [] = file' := by
    have hnil : file'.types = [] := hgrows.types
    change file'.withTypes [] = file'
    rw [← hnil]
    rfl
  have hholds : ((file'.withTypes file.types).withTypes []).Holds
      contents'.Spelled := by
    rw [htypes]
    exact hgrows.holds
  rw [fileWritten_withTypes] at hgrowsBy houtcome
  rw [hnull, if_neg Bool.false_ne_true] at houtcome
  rcases houtcome with hwrite | ⟨foff, hwrite, hlaid, -⟩
  · rw [hwrite, Outcome.mapState_failed] at hpasses
    exact ⟨_, contents', ⟨hsections (by rw [hpasses, Outcome.final_failed]),
      hholds⟩, hgrowsBy, Or.inl hpasses⟩
  · rw [hwrite, Outcome.mapState_ok] at hpasses
    have hne : foff ≠ 0 := by
      cases json with
      | null => cases hnull
      | node key value bro son => exact hlaid.1
    exact ⟨_, contents', ⟨hsections (by rw [hpasses, Outcome.final_ok]),
      hholds⟩, hgrowsBy, Or.inr ⟨foff, hpasses, hlaid.stored,
      hlaid.mem_of_ne_zero hne⟩⟩

end Stored

/-! ## The invariant -/

/-- The slots that were written are in a forest. -/
structure WrittenInv (state : DocumentsState) (contents : Contents) : Prop
    where
  documents : DocumentsInv state.file contents
  sound : (state.file.Stores contents).Sound
  slots : ∀ foff ∈ state.slots, (state.file.Stores contents).Live foff
  written : ∀ foff ∈ state.written, foff ∈ state.slots

section Inv

variable {state state' : DocumentsState} {contents : Contents}

theorem fileCtor_documents {file file₀ : File}
    (hctor : fileCtor file₀ = .ok () file) :
    DocumentsInv file ⟨fun _ _ => none, fun _ => []⟩ := by
  have hfields : file.extents = [] ∧ file.lstSectPtr = 8 := by
    injection hctor with _ hfile
    rw [← hfile]
    exact ⟨rfl, rfl⟩
  have hnone : ∀ kind index,
      (file.withTypes []).headAt kind index = none := by
    intro kind index
    cases kind
    · change file.extents[index]? = none
      rw [hfields.1, List.getElem?_nil]
    · rfl
  have hno : ∀ {kind index head},
      (file.withTypes []).headAt kind index ≠ some head := by
    intro kind index head hhead
    rw [hnone] at hhead
    cases hhead
  exact ⟨.init hctor, ⟨hfields.2.ge, fun hhead => absurd hhead hno,
    fun hhead => absurd hhead hno, fun hhead => absurd hhead hno⟩,
    fun hhead => absurd hhead hno⟩

theorem WrittenInv.addType (h : WrittenInv state contents) {type : DocType}
    {file' : File} (hfinal : (fileAddType type state.file).final =
      some file') :
    WrittenInv { state with file := file' } contents ∧
      ∀ foff item, state.file.Stores contents foff item →
        file'.Stores contents foff item := by
  obtain ⟨hdocuments, hextents⟩ := ((DocumentsInv.follows_fileAddType type
    state.file.extents).final ⟨h.documents, rfl⟩ hfinal).1
  have hheap : ∀ foff item, state.file.Stores contents foff item ↔
      file'.Stores contents foff item := fun foff item =>
    ⟨fun hold => hold.congr hextents, fun hnew => hnew.congr hextents.symm⟩
  have hsame : file'.Stores contents = state.file.Stores contents := by
    funext foff item
    exact propext (hheap foff item).symm
  refine ⟨⟨hdocuments, ?_, ?_, h.written⟩, fun foff item => (hheap foff item).mp⟩
  · rw [hsame]
    exact h.sound
  · rw [hsame]
    exact h.slots

/-- A call loses nothing that is stored. -/
theorem WrittenInv.step (h : WrittenInv state contents)
    {call : SectionsCall} (hstep : documentsStep call state = some state') :
    ∃ contents', WrittenInv state' contents' ∧
      ∀ foff item, state.file.Stores contents foff item →
        state'.file.Stores contents' foff item := by
  cases call with
  | addType type =>
      rw [documentsStep] at hstep
      cases hadd : fileAddType type state.file with
      | ok foff file' =>
          simp only [hadd, Option.some.injEq] at hstep
          rw [← hstep]
          exact ⟨contents, h.addType (by rw [hadd, Outcome.final_ok])⟩
      | failed file' =>
          simp only [hadd, Option.some.injEq] at hstep
          rw [← hstep]
          exact ⟨contents, h.addType (by rw [hadd, Outcome.final_failed])⟩
      | stuck => simp only [hadd, reduceCtorEq] at hstep
  | write json dadFileoff typeFoff =>
      have hnull : json.isNull = false := by
        cases json with
        | null => cases hstep
        | node key value bro son => rfl
      obtain ⟨file', contents', hdocuments, hgrowsBy, houtcome⟩ :=
        h.documents.write_laid h.sound hnull dadFileoff typeFoff
      have hlive : ∀ foff ∈ fileWritten json dadFileoff typeFoff state.file ++
          state.slots, (file'.Stores contents').Live foff := by
        intro foff hmem
        rw [hgrowsBy.live]
        exact (List.mem_append.mp hmem).elim Or.inr
          (fun hold => Or.inl (h.slots foff hold))
      have hwritten : ∀ foff ∈ state.written,
          foff ∈ fileWritten json dadFileoff typeFoff state.file ++
            state.slots :=
        fun foff hmem => List.mem_append_right _ (h.written foff hmem)
      rw [documentsStep] at hstep
      rcases houtcome with hwrite | ⟨foff, hwrite, -, hfoff⟩
      · simp only [hwrite, Option.some.injEq] at hstep
        rw [← hstep]
        exact ⟨contents', ⟨hdocuments, hgrowsBy.sound, hlive, hwritten⟩,
          fun _ _ => hgrowsBy.kept⟩
      · simp only [hwrite, Option.some.injEq] at hstep
        rw [← hstep]
        exact ⟨contents', ⟨hdocuments, hgrowsBy.sound, hlive,
          List.forall_mem_cons.mpr ⟨List.mem_append_left _ hfoff, hwritten⟩⟩,
          fun _ _ => hgrowsBy.kept⟩

theorem WrittenInv.written_live (h : WrittenInv state contents) {foff : ℕ}
    (hwritten : state.Written foff) :
    (state.file.Stores contents).Live foff := by
  have hlink : ∀ {foff : ℕ} {item : Item} (kin : Kin),
      state.file.Stores contents foff item → item.kinPtr kin ≠ 0 →
      (state.file.Stores contents).Live (item.kinPtr kin) :=
    fun kin hitem hne =>
      (h.sound.forest.closed (Heap.Linked.of_item hitem hne)).2
  induction hwritten with
  | root hmem => exact h.slots _ (h.written _ hmem)
  | bro hbefore hne ih =>
      obtain ⟨item, hitem⟩ := ih
      have hentity : state.file.entityAt _ = item.entity :=
        h.documents.documents.entityAt hitem
      rw [hentity] at hne ⊢
      exact hlink .bro hitem hne
  | son hbefore hne ih =>
      obtain ⟨item, hitem⟩ := ih
      have hentity : state.file.entityAt _ = item.entity :=
        h.documents.documents.entityAt hitem
      rw [hentity] at hne ⊢
      exact hlink .son hitem hne

/-- A call keeps the entity and the document at a live slot. -/
theorem WrittenInv.kept (h : WrittenInv state contents)
    {call : SectionsCall} (hstep : documentsStep call state = some state')
    {foff : ℕ} (hlive : (state.file.Stores contents).Live foff) :
    state'.file.entityAt foff = state.file.entityAt foff ∧ ∃ json,
      state.file.Reads foff json ∧ state'.file.Reads foff json := by
  obtain ⟨contents', h', hstores⟩ := h.step hstep
  obtain ⟨item, hitem⟩ := hlive
  have hentity : state.file.entityAt foff = item.entity :=
    h.documents.documents.entityAt hitem
  have hentity' : state'.file.entityAt foff = item.entity :=
    h'.documents.documents.entityAt (hstores foff item hitem)
  obtain ⟨json, hnull, hstored⟩ := h.sound.stored hitem
  exact ⟨hentity'.trans hentity.symm, json,
    h.documents.reads hstored hnull,
    h'.documents.reads (hstored.mono hstores) hnull⟩

theorem WrittenInv.law (h : WrittenInv state contents) :
    DocumentsLaw state where
  writes := by
    intro json hnull dadFileoff typeFoff
    rcases h.documents.write hnull dadFileoff typeFoff with
      ⟨hfits, foff, file', contents', hwrite, -⟩ |
      ⟨hfits, file', contents', hwrite, -⟩
    · rw [hwrite]
      exact ⟨fun _ => hfits, fun _ => rfl⟩
    · rw [hwrite]
      refine ⟨fun hok => ?_, fun hfits' => absurd hfits' hfits⟩
      cases hok
  written := by
    intro json dadFileoff typeFoff foff file' hwrite'
    cases json with
    | null => cases hwrite'
    | node key value bro son =>
        rcases @DocumentsInv.write _ _ (.node key value bro son) h.documents
          rfl dadFileoff typeFoff with
          ⟨-, foff₁, file₁, contents₁, hwrite, hdocuments, -, hstored⟩ |
          ⟨-, file₁, contents₁, hwrite, -⟩
        · rw [hwrite] at hwrite'
          injection hwrite' with hfoff hfile
          subst hfoff hfile
          have hstored' := hstored.mono
            (fun _ _ (hadded : Heap.added _ _ _ _) => hadded.1)
          exact ⟨hdocuments.reads hstored' rfl, hdocuments.linked hstored'⟩
        · rw [hwrite] at hwrite'
          cases hwrite'
  kept := fun _ _ hstep _ hwritten =>
    (h.kept hstep (h.written_live hwritten)).2
  slots := fun _ _ hstep foff hmem => h.kept hstep (h.slots foff hmem)

end Inv

/-- Whatever types and documents were added, each document is written when all
of its nodes fit into a section, and is read back as it was, and no later call
changes what is read at a slot that a call has written. -/
theorem documentsRun_law {state : DocumentsState}
    (run : DocumentsRun state) : DocumentsLaw state := by
  have hinv : ∃ contents, WrittenInv state contents := by
    apply run.invariant
    · rintro ⟨file, written, slots⟩ ⟨hwritten, hslots, file₀, hctor⟩
      refine ⟨_, fileCtor_documents hctor, .of_empty ?_, ?_, ?_⟩
      · rintro foff item ⟨index, head, soff, -, hitem, -⟩
        cases hitem
      · rw [hslots]
        exact fun foff hmem => absurd hmem List.not_mem_nil
      · rw [hwritten]
        exact fun foff hmem => absurd hmem List.not_mem_nil
    · rintro state call state' ⟨contents, hinv⟩ - hstep
      obtain ⟨contents', hinv', -⟩ := hinv.step hstep
      exact ⟨contents', hinv'⟩
  obtain ⟨contents, hinv⟩ := hinv
  exact hinv.law

/-- A tree of three nodes behind a type. -/
theorem documentsRun_law_three : ∃ state : DocumentsState,
    DocumentsLaw state ∧ state.written = [8232] := by
  obtain ⟨state, run, hwritten⟩ := Run.exists_of_any
    documentsStep (fun _ _ => true)
    [.addType ⟨stringCtor [97], []⟩,
      .write (.node (stringCtor [97]) .object .null
        (.node (stringCtor [98]) (.int32 7)
          (.node (stringCtor [99]) (.string (stringCtor [100])) .null .null)
          .null)) 0 40]
    (fun state => state.written == [8232])
    id (fun _ => trivial)
    (show DocumentsRun ⟨emptyFile, [], []⟩ from
      .init ⟨rfl, rfl, ⟨0, [], [], Storage.empty⟩, rfl⟩)
    (by decide_cbv)
  exact ⟨state, documentsRun_law run, by simpa using hwritten⟩

end NosqlDbms
