import NosqlDbms.FileTypes
import Mathlib.Tactic

/-!
# The catalogue of types

Runs of `file_add_type`, `file_delete_type` and `file_write`.  What was added
and not yet deleted, each type with the offset it was added at, is exactly
what the file finds and reads: the catalogue refines a finite multiset of
types with stable addresses.
-/

namespace NosqlDbms

structure CatalogueState where
  file : File
  /-- Types added and not deleted since, with the offsets returned. -/
  added : List (ℕ × DocType)

inductive CatalogueCall where
  | addType (type : DocType)
  | deleteType (name : Str)
  | write (json : Json) (dadFileoff typeFoff : ℕ)

/-- The type a search finds, with its offset in the file. -/
def fileFoundType (name : Str) : Prog File (ℕ × DocType) := do
  let found ← fileFindType name
  let foff ← fileSectFileoff .types found.1 found.2.1
  return (foff, found.2.2)

/-- The state after a call, when it returns.  A deletion takes out the type
that a search for the name finds. -/
def catalogueStep (call : CatalogueCall) (state : CatalogueState) :
    Option CatalogueState :=
  match call with
  | .addType type =>
      match fileAddType type state.file with
      | .ok foff file => some ⟨file, (foff, type) :: state.added⟩
      | .failed file => some ⟨file, state.added⟩
      | .stuck => none
  | .deleteType name =>
      match fileFoundType name state.file, fileDeleteType name state.file with
      | .ok found _, .ok _ file => some ⟨file, state.added.erase found⟩
      | _, .ok _ file => some ⟨file, state.added⟩
      | _, .failed file => some ⟨file, state.added⟩
      | _, .stuck => none
  | .write json dadFileoff typeFoff =>
      match fileWrite json dadFileoff typeFoff state.file with
      | .ok _ file => some ⟨file, state.added⟩
      | .failed file => some ⟨file, state.added⟩
      | .stuck => none

/-- Names are words, and a document is not a NULL pointer. -/
def CatalogueCall.Valid : CatalogueCall → Prop
  | .addType type => type.Named
  | .deleteType name => name.Word
  | .write json _ _ => json.isNull = false

instance (call : CatalogueCall) : Decidable call.Valid :=
  match call with
  | .addType type => inferInstanceAs (Decidable type.Named)
  | .deleteType name => inferInstanceAs (Decidable name.Word)
  | .write json _ _ => inferInstanceAs (Decidable (json.isNull = false))

/-- The states reached from `file_ctor`. -/
abbrev CatalogueRun : CatalogueState → Prop :=
  Run (fun state => state.added = [] ∧ ∃ file₀,
      fileCtor file₀ = .ok () state.file)
    (fun call state state' => catalogueStep call state = some state')
    (fun _ call => call.Valid)

structure CatalogueLaw (state : CatalogueState) : Prop where
  returns : ∀ call : CatalogueCall, call.Valid →
    ∃ state', catalogueStep call state = some state'
  add : ∀ type : DocType, type.Named →
    ((fileAddType type state.file).isOk = true ↔
      typePhSz type ≤ SECTION_SIZE - sizeofSectHeadEntity)
  find : ∀ name : Str, name.Word →
    ((fileFindType name state.file).isOk = true ↔
      ∃ entry ∈ state.added, entry.2.name = name)
  found : ∀ name : Str, name.Word → ∀ entry file,
    fileFoundType name state.file = .ok entry file →
      entry ∈ state.added ∧ entry.2.name = name
  delete : ∀ name : Str, name.Word →
    ((fileDeleteType name state.file).isOk = true ↔
      ∃ entry ∈ state.added, entry.2.name = name)
  deleted : ∀ name : Str, name.Word → ∀ file,
    fileDeleteType name state.file = .ok () file →
      ∃ entry ∈ state.added, entry.2.name = name ∧
        catalogueStep (.deleteType name) state =
          some ⟨file, state.added.erase entry⟩
  read : ∀ entry ∈ state.added, ∃ file,
    fileReadType entry.1 state.file = .ok entry.2 file
  addresses : (state.added.map Prod.fst).Nodup

/-! ## The invariant -/

/-- The types added are those of the layouts. -/
structure CatalogueInv (state : CatalogueState) (contents : Contents) :
    Prop where
  holds : state.file.Holds contents.Spelled
  added : ∀ foff type, (foff, type) ∈ state.added ↔
    ∃ entry, state.file.Catalogued contents foff entry ∧ entry.type = type
  nodup : (state.added.map Prod.fst).Nodup

section Inv

variable {state : CatalogueState} {contents : Contents} {name : Str}

theorem fileCtor_holds (file₀ : File) :
    ∃ file, fileCtor file₀ = .ok () file ∧
      file.Holds (⟨fun _ _ => none, fun _ => []⟩ : Contents).Spelled ∧
      (∀ kind, file.sects kind = []) ∧ file.lstSectPtr = 8 := by
  have hnone : ∀ {file : File} {kind index head},
      (∀ kind, file.sects kind = []) →
      file.headAt kind index ≠ some head := by
    intro file kind index head hempty hhead
    rw [File.headAt, hempty, List.getElem?_nil] at hhead
    cases hhead
  have hempty : ∀ kind, File.sects ⟨8, [], [],
      file₀.storage.write 0 (wordBytes 8)⟩ kind = [] := by
    intro kind
    cases kind <;> rfl
  exact ⟨⟨8, [], [], file₀.storage.write 0 (wordBytes 8)⟩, rfl,
    ⟨⟨le_rfl, fun hhead => absurd hhead (hnone hempty),
      fun hhead => absurd hhead (hnone hempty),
      fun hhead => absurd hhead (hnone hempty)⟩,
      fun hhead => absurd hhead (hnone hempty)⟩, hempty, rfl⟩

theorem CatalogueInv.init (hadded : state.added = [])
    (hctor : ∃ file₀, fileCtor file₀ = .ok () state.file) :
    CatalogueInv state ⟨fun _ _ => none, fun _ => []⟩ := by
  obtain ⟨file₀, hctor⟩ := hctor
  obtain ⟨file, hctor', hholds, hempty, -⟩ := fileCtor_holds file₀
  rw [hctor'] at hctor
  injection hctor with _ hfile
  subst hfile
  refine ⟨hholds, fun foff type => ?_, by rw [hadded]; exact .nil⟩
  rw [hadded]
  refine ⟨fun hmem => absurd hmem List.not_mem_nil, ?_⟩
  rintro ⟨entry, ⟨index, head, soff, -, hmem, -⟩, -⟩
  exact absurd hmem List.not_mem_nil

theorem CatalogueInv.find (h : CatalogueInv state contents)
    (hname : ∀ index, none ∈ contents.cats index → name.val ≠ []) :
    (∃ index head soff entry file,
      fileFindType name state.file = .ok (index, soff, entry.type) file ∧
      fileFoundType name state.file =
        .ok (head.fileOffset + soff, entry.type) file ∧
      state.file.Quiet file ∧
      state.file.headAt .types index = some head ∧
      (soff, entry) ∈ liveFrom 32 (contents.cats index) ∧
      entry.type.name = name ∧
      (head.fileOffset + soff, entry.type) ∈ state.added) ∨
    ∃ file, fileFindType name state.file = .failed file ∧
      fileFoundType name state.file = .failed file ∧
      state.file.Quiet file ∧
      ¬ ∃ entry ∈ state.added, entry.2.name = name := by
  rcases h.holds.find_type hname with
    ⟨index, head, soff, entry, file, hfind, hquiet, hhead, hmem, heq⟩ |
    ⟨file, hfind, hquiet, hall⟩
  · left
    have hlt := h.holds.live_lt hhead hmem
    have hhead' : file.headAt .types index = some head := by
      rw [File.headAt_congr (hquiet.sects _), hhead]
    refine ⟨index, head, soff, entry, file, hfind, ?_, hquiet, hhead, hmem,
      heq, (h.added _ _).mpr ⟨entry, ⟨index, head, soff, hhead, hmem, rfl⟩,
        rfl⟩⟩
    rw [fileFoundType, Prog.bind_of_ok hfind]
    simp only
    rw [Prog.bind_of_ok (File.fileSectFileoff_eq hhead' (by omega)),
      Prog.pure_apply]
  · right
    refine ⟨file, hfind, Prog.bind_of_failed hfind, hquiet, ?_⟩
    rintro ⟨⟨foff, type⟩, hmem, hname'⟩
    obtain ⟨entry, hentry, rfl⟩ := (h.added foff type).mp hmem
    exact hall hentry hname'

theorem CatalogueInv.congr (h : CatalogueInv state contents) {file : File}
    {contents' : Contents} (hholds : file.Holds contents'.Spelled)
    (hcatalogued : ∀ {foff entry}, file.Catalogued contents' foff entry ↔
      state.file.Catalogued contents foff entry) :
    CatalogueInv ⟨file, state.added⟩ contents' :=
  ⟨hholds, fun foff type => by simp only [hcatalogued, h.added], h.nodup⟩

theorem CatalogueInv.delete (h : CatalogueInv state contents)
    (hname : name.Word) :
    (∃ entry ∈ state.added, ∃ file contents', entry.2.name = name ∧
      (∃ file₁, fileFoundType name state.file = .ok entry file₁) ∧
      fileDeleteType name state.file = .ok () file ∧
      catalogueStep (.deleteType name) state =
        some ⟨file, state.added.erase entry⟩ ∧
      CatalogueInv ⟨file, state.added.erase entry⟩ contents' ∧
      state.file.Recatalogues contents file contents') ∨
    ∃ file, fileDeleteType name state.file = .failed file ∧
      catalogueStep (.deleteType name) state = some ⟨file, state.added⟩ ∧
      CatalogueInv ⟨file, state.added⟩ contents ∧
      state.file.Recatalogues contents file contents ∧
      ¬ ∃ entry ∈ state.added, entry.2.name = name := by
  rcases h.find (fun _ _ => hname.ne_nil) with
    ⟨index, head, soff, entry, file₁, hfind, hfound, hquiet, hhead, hmem,
      heq, hadded⟩ | ⟨file, hfind, hfound, hquiet, hnone⟩
  · left
    obtain ⟨file, contents', hdelete, hrecat, hcatalogued⟩ :=
      h.holds.delete_type hfind hquiet hhead hmem
    refine ⟨_, hadded, file, contents', heq, ⟨_, hfound⟩, hdelete, ?_,
      ⟨hrecat.holds, ?_, ?_⟩, hrecat⟩
    · simp only [catalogueStep, hfound, hdelete]
    · intro foff type
      rw [(List.Nodup.of_map _ h.nodup).mem_erase_iff, h.added]
      simp only [hcatalogued]
      constructor
      · rintro ⟨hne, entry', hentry', rfl⟩
        refine ⟨entry', ⟨hentry', ?_⟩, rfl⟩
        rintro rfl
        have hself : state.file.Catalogued contents
            (head.fileOffset + soff) entry :=
          ⟨index, head, soff, hhead, hmem, rfl⟩
        apply hne
        rw [h.holds.catalogued_unique hself hentry']
      · rintro ⟨entry', ⟨hentry', hne⟩, rfl⟩
        exact ⟨fun heq => hne (congrArg Prod.fst heq), entry', hentry', rfl⟩
    · exact h.nodup.sublist (List.erase_sublist.map _)
  · right
    have hdelete : fileDeleteType name state.file = .failed file :=
      Prog.bind_of_failed hfind
    refine ⟨file, hdelete, ?_, h.congr
      (hquiet.holds h.holds contents.local_spelled) hquiet.catalogued_iff,
      hquiet.recatalogues h.holds, hnone⟩
    simp only [catalogueStep, hfound, hdelete]

theorem CatalogueInv.add (h : CatalogueInv state contents)
    {type : DocType} (hnamed : type.Named) :
    ∃ state' contents',
      catalogueStep (.addType type) state = some state' ∧
      CatalogueInv state' contents' ∧
      state.file.Recatalogues contents state'.file contents' ∧
      (∀ {index}, none ∈ contents'.cats index →
        none ∈ contents.cats index) ∧
      ((fileAddType type state.file).isOk = true ↔
        typePhSz type ≤ SECTION_SIZE - sizeofSectHeadEntity) := by
  have hroom : SECTION_SIZE - sizeofSectHeadEntity = 8160 := rfl
  rw [hroom]
  rcases h.holds.add_type hnamed with
    ⟨hle, foff, file, contents', entry, hadd, hput⟩ |
    ⟨hlt, file, contents', hadd, hrecat, hcatalogued, hcleared⟩
  · refine ⟨⟨file, (foff, type) :: state.added⟩, contents', ?_,
      ⟨hput.recatalogues.holds, fun foff' type' => ?_, ?_⟩,
      hput.recatalogues, hput.cleared, ?_⟩
    · simp only [catalogueStep, hadd]
    · simp only [List.mem_cons, h.added, hput.catalogued, Prod.mk.injEq]
      constructor
      · rintro (⟨rfl, rfl⟩ | ⟨entry', hentry', rfl⟩)
        · exact ⟨entry, Or.inl ⟨rfl, rfl⟩, hput.type_eq⟩
        · exact ⟨entry', Or.inr hentry', rfl⟩
      · rintro ⟨entry', ⟨rfl, rfl⟩ | hentry', rfl⟩
        · exact Or.inl ⟨rfl, hput.type_eq⟩
        · exact Or.inr ⟨entry', hentry', rfl⟩
    · refine List.nodup_cons.mpr ⟨fun hmem => ?_, h.nodup⟩
      obtain ⟨⟨foff', type'⟩, hmem', rfl⟩ := List.mem_map.mp hmem
      obtain ⟨entry', hentry', -⟩ := (h.added foff' type').mp hmem'
      exact hput.fresh entry' hentry'
    · rw [hadd]
      exact ⟨fun _ => hle, fun _ => rfl⟩
  · refine ⟨⟨file, state.added⟩, contents', ?_,
      h.congr hrecat.holds hcatalogued, hrecat, hcleared, ?_⟩
    · simp only [catalogueStep, hadd]
    · rw [hadd]
      refine ⟨fun hok => ?_, fun hle => ?_⟩
      · cases hok
      · omega

theorem CatalogueInv.write (h : CatalogueInv state contents) {json : Json}
    (hjson : json.isNull = false) (dadFileoff typeFoff : ℕ) :
    ∃ state' contents',
      catalogueStep (.write json dadFileoff typeFoff) state = some state' ∧
      CatalogueInv state' contents' := by
  have hwrote := @File.Holds.write_link _ _ json h.holds dadFileoff typeFoff
  rw [if_neg (by rw [hjson]; exact Bool.false_ne_true)] at hwrote
  rcases hwrote with ⟨-, foff, file, contents', hwrite, hgrows, -⟩ |
    ⟨-, file, contents', hwrite, hgrows⟩
  · refine ⟨⟨file, state.added⟩, contents', ?_,
      h.congr hgrows.holds hgrows.catalogued_iff⟩
    simp only [catalogueStep, hwrite]
  · refine ⟨⟨file, state.added⟩, contents', ?_,
      h.congr hgrows.holds hgrows.catalogued_iff⟩
    simp only [catalogueStep, hwrite]

theorem CatalogueInv.step (h : CatalogueInv state contents)
    {call : CatalogueCall} (hvalid : call.Valid) :
    ∃ state' contents', catalogueStep call state = some state' ∧
      CatalogueInv state' contents' := by
  cases call with
  | addType type =>
      obtain ⟨state', contents', hstep, hinv, -⟩ := h.add hvalid
      exact ⟨state', contents', hstep, hinv⟩
  | deleteType name =>
      rcases h.delete hvalid with
        ⟨entry, -, file, contents', -, -, -, hstep, hinv, -⟩ |
        ⟨file, -, hstep, hinv, -⟩
      · exact ⟨_, contents', hstep, hinv⟩
      · exact ⟨_, contents, hstep, hinv⟩
  | write json dadFileoff typeFoff =>
      exact h.write hvalid dadFileoff typeFoff

theorem CatalogueInv.law (h : CatalogueInv state contents) :
    CatalogueLaw state where
  returns := by
    intro call hvalid
    obtain ⟨state', -, hstep, -⟩ := h.step hvalid
    exact ⟨state', hstep⟩
  add := by
    intro type hnamed
    obtain ⟨-, -, -, -, -, -, hiff⟩ := h.add hnamed
    exact hiff
  find := by
    intro name hname
    rcases h.find (fun _ _ => hname.ne_nil) with
      ⟨index, head, soff, entry, file, hfind, -, -, -, -, heq, hadded⟩ |
      ⟨file, hfind, -, -, hnone⟩
    · rw [hfind]
      exact ⟨fun _ => ⟨_, hadded, heq⟩, fun _ => rfl⟩
    · rw [hfind]
      refine ⟨fun hok => ?_, fun hex => absurd hex hnone⟩
      cases hok
  found := by
    intro name hname found file' hfound'
    rcases h.find (fun _ _ => hname.ne_nil) with
      ⟨index, head, soff, entry, file, -, hfound, -, -, -, heq, hadded⟩ |
      ⟨file, -, hfound, -⟩
    · rw [hfound] at hfound'
      injection hfound' with hentry
      rw [← hentry]
      exact ⟨hadded, heq⟩
    · rw [hfound] at hfound'
      cases hfound'
  delete := by
    intro name hname
    rcases h.delete hname with
      ⟨entry, hadded, file, contents', heq, -, hdelete, -⟩ |
      ⟨file, hdelete, -, -, -, hnone⟩
    · rw [hdelete]
      exact ⟨fun _ => ⟨_, hadded, heq⟩, fun _ => rfl⟩
    · rw [hdelete]
      refine ⟨fun hok => ?_, fun hex => absurd hex hnone⟩
      cases hok
  deleted := by
    intro name hname file' hdelete'
    rcases h.delete hname with
      ⟨entry, hadded, file, contents', heq, -, hdelete, hstep, -⟩ |
      ⟨file, hdelete, -⟩
    · rw [hdelete] at hdelete'
      injection hdelete' with _ hfile
      rw [← hfile]
      exact ⟨entry, hadded, heq, hstep⟩
    · rw [hdelete] at hdelete'
      cases hdelete'
  read := by
    rintro ⟨foff, type⟩ hmem
    obtain ⟨entry, hentry, rfl⟩ := (h.added foff type).mp hmem
    obtain ⟨file, hread, -⟩ := h.holds.read_type hentry
    exact ⟨file, hread⟩
  addresses := h.nodup

end Inv

/-! ## Whole runs -/

theorem CatalogueRun.inv {state : CatalogueState}
    (run : CatalogueRun state) : ∃ contents, CatalogueInv state contents := by
  apply run.invariant
  · rintro state ⟨hadded, hctor⟩
    exact ⟨_, .init hadded hctor⟩
  · rintro state call state' ⟨contents, hinv⟩ hvalid hstep
    obtain ⟨next, contents', hnext, hinv'⟩ := hinv.step hvalid
    rw [hstep, Option.some.injEq] at hnext
    subst hnext
    exact ⟨contents', hinv'⟩

/-- Whatever was added, deleted and written, the file finds, deletes and reads
exactly the types that were added and not yet deleted. -/
theorem catalogueRun_law {state : CatalogueState}
    (run : CatalogueRun state) : CatalogueLaw state := by
  obtain ⟨contents, hinv⟩ := run.inv
  exact hinv.law

def exampleType : DocType where
  name := stringCtor [97]
  attrList := [⟨stringCtor [98], .int32⟩]

theorem catalogueRun_law_two : ∃ state : CatalogueState,
    CatalogueLaw state ∧ state.added = [(88, exampleType)] := by
  obtain ⟨state, run, hadded⟩ := Run.exists_of_any
    catalogueStep (fun _ call => decide call.Valid)
    [.addType exampleType, .addType exampleType,
      .write (.node (stringCtor [99]) .object .null .null) 0 40,
      .deleteType (stringCtor [97])]
    (fun state => state.added == [(88, exampleType)])
    id (by simp)
    (show CatalogueRun ⟨emptyFile, []⟩ from
      .init ⟨rfl, ⟨0, [], [], Storage.empty⟩, rfl⟩)
    (by decide_cbv)
  exact ⟨state, catalogueRun_law run, by simpa using hadded⟩

end NosqlDbms
