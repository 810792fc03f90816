import NosqlDbms.Catalogue
import NosqlDbms.IterLaw
import NosqlDbms.Searching
import Mathlib

/-!
# Objects and the types they point to

Runs of `user_add_type`, `user_delete_type` and of INSERT commands.  An object
points to the place of its type, and nothing looks whether the type is still
there.  As long as no type is deleted that an object points to, a READ for a
type name gives objects of that type.
-/

namespace NosqlDbms

open Prog

/-- An object that was inserted: where it is, the type it points to and the
name of the type it was inserted with. -/
structure Root where
  foff : ℕ
  typePtr : ℕ
  typeName : Str

structure TypedState extends CatalogueState where
  roots : List Root

inductive TypedCall where
  | addType (type : DocType)
  | deleteType (name : Str)
  | insert (json : Json) (typeName : Str)

/-- The state after a call, when it returns. -/
def typedStep (call : TypedCall) (state : TypedState) : Option TypedState :=
  match call with
  | .addType type =>
      (catalogueStep (.addType type) state.toCatalogueState).map
        (fun next => ⟨next, state.roots⟩)
  | .deleteType name =>
      (catalogueStep (.deleteType name) state.toCatalogueState).map
        (fun next => ⟨next, state.roots⟩)
  | .insert json typeName =>
      match fileFoundType typeName state.file,
          userWrite json typeName state.file with
      | .ok found _, .ok foff file =>
          some ⟨⟨file, state.added⟩, ⟨foff, found.1, typeName⟩ :: state.roots⟩
      | _, .ok _ file => some ⟨⟨file, state.added⟩, state.roots⟩
      | _, .failed file => some ⟨⟨file, state.added⟩, state.roots⟩
      | _, .stuck => none

/-- Names are words, and a document is not a NULL pointer. -/
def TypedCall.Valid : TypedCall → Prop
  | .addType type => type.Named
  | .deleteType name => name.Word
  | .insert json _ => json.isNull = false

instance instDecidableTypedValid (call : TypedCall) : Decidable call.Valid :=
  match call with
  | .addType type => inferInstanceAs (Decidable type.Named)
  | .deleteType name => inferInstanceAs (Decidable name.Word)
  | .insert json _ => inferInstanceAs (Decidable (json.isNull = false))

/-- The states reached from `file_ctor`. -/
abbrev TypedRun : (TypedState → TypedCall → Prop) → TypedState → Prop :=
  Run (fun state => state.added = [] ∧ state.roots = [] ∧ ∃ file₀,
      fileCtor file₀ = .ok () state.file)
    (fun call state state' => typedStep call state = some state')

/-- What a READ for a type name yields and was inserted was inserted with that
name. -/
def TypedLaw (state : TypedState) : Prop :=
  ∀ (past : Str → List Byte) (depth rounds : ℕ) (query : Query)
    (typeName : Str), query.typeName = some typeName →
  ∀ all file, iterCollect past depth query rounds state.file = .ok all file →
  ∀ found ∈ all, ∀ root ∈ state.roots, root.foff = found.foff →
    root.typeName = typeName

/-- No object points to the type that is deleted, and what an INSERT finds is
not the empty name of a cleared slot. -/
def TypedCall.Keeps (state : TypedState) : TypedCall → Prop
  | .addType _ => True
  | .deleteType name => ∀ found file,
      fileFoundType name state.file = .ok found file →
      ∀ root ∈ state.roots, root.typePtr ≠ found.1
  | .insert _ typeName => ∀ found file,
      fileFoundType typeName state.file = .ok found file →
      typeName.val ≠ []

/-! ## The invariant -/

/-- The object lies where it was written, and its type is there. -/
structure Root.Typed (root : Root) (state : CatalogueState)
    (contents : Contents) : Prop where
  type : ∃ type, (root.typePtr, type) ∈ state.added ∧
    type.name = root.typeName
  node : ∃ item key value, state.file.Stores contents root.foff item ∧
    item.Spells key value ∧ item.entity.typePtr = root.typePtr

structure TypedInv (state : TypedState) (contents : Contents) : Prop where
  catalogue : CatalogueInv state.toCatalogueState contents
  roots : ∀ root ∈ state.roots, root.Typed state.toCatalogueState contents

section Inv

variable {state : TypedState} {contents : Contents}

theorem Root.Typed.mono {root : Root} {catalogue catalogue' : CatalogueState}
    {contents' : Contents} (h : root.Typed catalogue contents)
    (hadded : ∀ type, (root.typePtr, type) ∈ catalogue.added →
      (root.typePtr, type) ∈ catalogue'.added)
    (hstores : ∀ {foff item}, catalogue.file.Stores contents foff item →
      catalogue'.file.Stores contents' foff item) :
    root.Typed catalogue' contents' := by
  obtain ⟨type, hmem, hname⟩ := h.type
  obtain ⟨item, key, value, hitem, hspells, hptr⟩ := h.node
  exact ⟨⟨type, hadded type hmem, hname⟩,
    ⟨item, key, value, hstores hitem, hspells, hptr⟩⟩

theorem TypedInv.quiet (h : TypedInv state contents) {file : File}
    (hquiet : state.file.Quiet file) :
    TypedInv ⟨⟨file, state.added⟩, state.roots⟩ contents where
  catalogue := h.catalogue.congr
    (hquiet.holds h.catalogue.holds contents.local_spelled)
    hquiet.catalogued_iff
  roots := by
    intro root hmem
    apply (h.roots root hmem).mono
    · exact fun _ hadded => hadded
    · exact fun hitem => hitem.congr (hquiet.sects .extents)

theorem catalogueStep_addType_added {type : DocType}
    {catalogue catalogue' : CatalogueState}
    (hstep : catalogueStep (.addType type) catalogue = some catalogue')
    {entry : ℕ × DocType} (hmem : entry ∈ catalogue.added) :
    entry ∈ catalogue'.added := by
  rw [catalogueStep] at hstep
  split at hstep
  · injection hstep with hstate
    rw [← hstate]
    exact List.mem_cons_of_mem _ hmem
  · injection hstep with hstate
    rw [← hstate]
    exact hmem
  · cases hstep

theorem TypedInv.addType (h : TypedInv state contents) {type : DocType}
    (hnamed : type.Named) :
    ∃ state' contents', typedStep (.addType type) state = some state' ∧
      TypedInv state' contents' := by
  obtain ⟨next, contents', hstep, hinv, hrecat, -⟩ :=
    h.catalogue.add hnamed
  refine ⟨⟨next, state.roots⟩, contents', ?_, hinv, ?_⟩
  · rw [typedStep, hstep]
    rfl
  · intro root hmem
    apply (h.roots root hmem).mono
    · exact fun _ hadded => catalogueStep_addType_added hstep hadded
    · exact fun hitem => hrecat.stores_iff.mpr hitem

theorem TypedInv.deleteType (h : TypedInv state contents) {name : Str}
    (hname : name.Word) (hkeeps : (TypedCall.deleteType name).Keeps state) :
    ∃ state' contents', typedStep (.deleteType name) state = some state' ∧
      TypedInv state' contents' := by
  rcases h.catalogue.delete hname with
    ⟨entry, -, file, contents', -, ⟨file₁, hfound⟩, -, hstep, hinv,
      hrecat⟩ | ⟨file, -, hstep, hinv, hrecat, -⟩
  · refine ⟨⟨⟨file, state.added.erase entry⟩, state.roots⟩, contents', ?_,
      hinv, ?_⟩
    · rw [typedStep, hstep]
      rfl
    · intro root hmem
      apply (h.roots root hmem).mono
      · intro type hadded
        rw [(List.Nodup.of_map _ h.catalogue.nodup).mem_erase_iff]
        refine ⟨fun heq => ?_, hadded⟩
        exact hkeeps entry file₁ hfound root hmem (congrArg Prod.fst heq)
      · exact fun hitem => hrecat.stores_iff.mpr hitem
  · refine ⟨⟨⟨file, state.added⟩, state.roots⟩, contents, ?_, hinv, ?_⟩
    · rw [typedStep, hstep]
      rfl
    · intro root hmem
      apply (h.roots root hmem).mono
      · exact fun _ hadded => hadded
      · exact fun hitem => hrecat.stores_iff.mpr hitem

theorem fileFoundType_of_find {name : Str} {found : ℕ × ℕ × DocType}
    {file file₁ : File} (hfind : fileFindType name file = .ok found file₁) :
    ∃ foff, fileFoundType name file = .ok (foff, found.2.2) file₁ := by
  obtain ⟨head, hhead⟩ := fileFindType_headAt hfind
  refine ⟨(sectHeadGetFileoff head found.2.1).toNat, ?_⟩
  rw [fileFoundType, bind_of_ok hfind, fileSectFileoff]
  simp only [File.sectHead, bind_apply, hhead, pure_apply]

theorem typedStep_insert_failed {json : Json} {typeName : Str} {file : File}
    (hwrite : userWrite json typeName state.file = .failed file) :
    typedStep (.insert json typeName) state =
      some ⟨⟨file, state.added⟩, state.roots⟩ := by
  rw [typedStep, hwrite]
  cases fileFoundType typeName state.file <;> rfl

theorem TypedInv.insert (h : TypedInv state contents) {json : Json}
    {typeName : Str} (hjson : json.isNull = false)
    (hkeeps : (TypedCall.insert json typeName).Keeps state)
    {state' : TypedState}
    (hstep : typedStep (.insert json typeName) state = some state') :
    ∃ contents', TypedInv state' contents' := by
  cases hfind : fileFindType typeName state.file with
  | stuck =>
      have hwrite : userWrite json typeName state.file = .stuck := by
        rw [userWrite, bind_apply, hfind]
      rw [typedStep, hwrite] at hstep
      cases hfound : fileFoundType typeName state.file <;>
        rw [hfound] at hstep <;> cases hstep
  | failed file =>
      have hquiet := File.quiet_of_shown (keeps_fileFindType typeName
        state.file file (by rw [hfind, Outcome.final_failed]))
      rw [typedStep_insert_failed (bind_of_failed hfind)] at hstep
      injection hstep with hstate
      rw [← hstate]
      exact ⟨contents, h.quiet hquiet⟩
  | ok found file =>
      obtain ⟨foff, hfound⟩ := fileFoundType_of_find hfind
      have hname := hkeeps _ _ hfound
      rcases h.catalogue.find (fun _ _ => hname) with
        ⟨index, head, soff, entry, file₁, hfind', hfound', hquiet, hhead,
          hmem, hentry, hadded⟩ | ⟨file₁, hfind', -⟩
      · have hinv := h.quiet hquiet
        cases happly : jsonIsApplyType json entry.type with
        | false =>
            have hwrite : userWrite json typeName state.file =
                .failed file₁ := by
              rw [userWrite, bind_of_ok hfind', happly]
              rfl
            rw [typedStep_insert_failed hwrite] at hstep
            injection hstep with hstate
            rw [← hstate]
            exact ⟨contents, hinv⟩
        | true =>
            have hhead' : file₁.headAt .types index = some head := by
              rw [File.headAt_congr (hquiet.sects _), hhead]
            have hlt := h.catalogue.holds.live_lt hhead hmem
            have hwrite : userWrite json typeName state.file =
                fileWrite json 0 (head.fileOffset + soff) file₁ := by
              have hplace : fileSectFileoff .types index soff file₁ =
                  .ok (head.fileOffset + soff) file₁ :=
                File.fileSectFileoff_eq hhead' (by omega)
              rw [userWrite, bind_of_ok hfind', if_pos happly,
                bind_of_ok hplace]
            have hwrote := @File.Holds.write_link _ _ json
              hinv.catalogue.holds 0 (head.fileOffset + soff)
            rw [if_neg (by rw [hjson]; exact Bool.false_ne_true)] at hwrote
            have hgrown : ∀ {file' contents'},
                file₁.Grows contents file' contents' →
                TypedInv ⟨⟨file', state.added⟩, state.roots⟩ contents' := by
              intro file' contents' hgrows
              refine ⟨hinv.catalogue.congr hgrows.holds
                hgrows.catalogued_iff, fun root hmem => ?_⟩
              exact (hinv.roots root hmem).mono (fun _ hadded => hadded)
                hgrows.stores
            rcases hwrote with
              ⟨-, foff', file', contents', hok, hgrows, hstored⟩ |
              ⟨-, file', contents', hfailed, hgrows⟩
            · rw [typedStep, hfound', hwrite, hok] at hstep
              injection hstep with hstate
              rw [← hstate]
              obtain ⟨hcatalogue, hroots⟩ := hgrown hgrows
              refine ⟨contents', hcatalogue, fun root hmem => ?_⟩
              rcases List.mem_cons.mp hmem with rfl | hmem
              · refine ⟨⟨entry.type, hadded, hentry⟩, ?_⟩
                cases json with
                | null => cases hjson
                | node key value bro son =>
                    obtain ⟨-, item, ⟨hnew, -⟩, hspells, -, hptr, -, -⟩ :=
                      hstored
                    exact ⟨item, key, value, hnew, hspells, hptr⟩
              · exact hroots root hmem
            · rw [typedStep_insert_failed (hwrite.trans hfailed)] at hstep
              injection hstep with hstate
              rw [← hstate]
              exact ⟨contents', hgrown hgrows⟩
      · rw [hfind] at hfind'
        cases hfind'

theorem TypedInv.step (h : TypedInv state contents) {call : TypedCall}
    (hvalid : call.Valid) (hkeeps : call.Keeps state) {state' : TypedState}
    (hstep : typedStep call state = some state') :
    ∃ contents', TypedInv state' contents' := by
  cases call with
  | addType type =>
      obtain ⟨next, contents', hnext, hinv⟩ := h.addType hvalid
      rw [hstep, Option.some.injEq] at hnext
      exact ⟨contents', hnext ▸ hinv⟩
  | deleteType name =>
      obtain ⟨next, contents', hnext, hinv⟩ := h.deleteType hvalid hkeeps
      rw [hstep, Option.some.injEq] at hnext
      exact ⟨contents', hnext ▸ hinv⟩
  | insert json typeName => exact h.insert hvalid hkeeps hstep

theorem TypedInv.init (hadded : state.added = [])
    (hroots : state.roots = [])
    (hctor : ∃ file₀, fileCtor file₀ = .ok () state.file) :
    TypedInv state ⟨fun _ _ => none, fun _ => []⟩ where
  catalogue := .init hadded hctor
  roots := by
    rw [hroots]
    intro root hmem
    exact absurd hmem List.not_mem_nil

/-! ## What a READ yields -/

theorem TypedInv.searched (h : TypedInv state contents)
    {past : Str → List Byte} {depth : ℕ} {query : Query} {typeName : Str}
    (hquery : query.typeName = some typeName) {found : Found}
    (hfound : Searched (state.file.SameAs contents) past depth query found)
    {root : Root} (hmem : root ∈ state.roots)
    (hfoff : root.foff = found.foff) : root.typeName = typeName := by
  obtain ⟨name, ⟨file₁, file₂, hsameAs₁, -, hread⟩,
    ⟨file₃, file₄, hsameAs₃, -, hname⟩, hcheck⟩ := hfound
  obtain ⟨item, key, value, hitem, hspells, hptr⟩ :=
    (h.roots root hmem).node
  obtain ⟨type, hadded, htype⟩ := (h.roots root hmem).type
  rw [hfoff] at hitem
  have hentity : found.entity = item.entity :=
    hsameAs₁.holds.read_entity (hitem.congr (hsameAs₁.sects .extents))
      hspells hread
  obtain ⟨entry, hentry, hentryType⟩ :=
    (h.catalogue.added root.typePtr type).mp hadded
  have hentry₃ : file₃.Catalogued contents root.typePtr entry := by
    obtain ⟨index, head, soff, hhead, hlive, hplace⟩ := hentry
    refine ⟨index, head, soff, ?_, hlive, hplace⟩
    rw [File.headAt_congr (hsameAs₃.sects .types), hhead]
  rw [hentity, hptr] at hname
  have hreadName := hsameAs₃.holds.read_typeName hentry₃ hname
  have hqueried := (queryCheckType_iff hquery).mp (queryCheck_type hcheck)
  rw [hreadName, Option.some.injEq] at hqueried
  rw [← htype, ← hentryType, hqueried]

theorem TypedInv.law (h : TypedInv state contents) : TypedLaw state := by
  intro past depth rounds query typeName hquery all file hcollect found hmem
    root hroot hfoff
  have hsearch := @keptBySearch_sameAs state.file contents
  have hiter : (iterCollect past depth query rounds).Yields
      (state.file.SameAs contents) (fun all => ∀ found ∈ all,
        Searched (state.file.SameAs contents) past depth query found) :=
    (hsearch.iterCtor past depth (fun _ hfound => hfound)).bind
      (fun iter hiter => hsearch.collectFrom past depth
        (fun _ hfound => hfound) rounds hiter)
  have hall := (hiter.ok ⟨rfl, h.catalogue.holds⟩ hcollect).2
  exact h.searched hquery (hall found hmem) hroot hfoff

end Inv

/-! ## Whole runs -/

/-- When no type is deleted that an object points to, objects keep their
types. -/
theorem typedRun_law {state : TypedState}
    (run : TypedRun (fun state call => call.Valid ∧ call.Keeps state) state) :
    TypedLaw state := by
  have hinv : ∃ contents, TypedInv state contents := by
    apply run.invariant
    · rintro state ⟨hadded, hroots, hctor⟩
      exact ⟨_, .init hadded hroots hctor⟩
    · rintro state call state' ⟨contents, hinv⟩ ⟨hvalid, hkeeps⟩ hstep
      exact hinv.step hvalid hkeeps hstep
  obtain ⟨contents, hinv⟩ := hinv
  exact hinv.law

theorem emptyFile_typedRun (allowed : TypedState → TypedCall → Prop) :
    TypedRun allowed ⟨⟨emptyFile, []⟩, []⟩ :=
  .init ⟨rfl, rfl, ⟨0, [], [], Storage.empty⟩, rfl⟩

def plainType (name : List Byte) : DocType := ⟨stringCtor name, []⟩

def plainJson : Json := .node (stringCtor [99]) .object .null .null

def TypedCall.keepsTest (state : TypedState) : TypedCall → Bool
  | .addType _ => true
  | .deleteType name =>
      match fileFoundType name state.file with
      | .ok found _ => state.roots.all (fun root => root.typePtr != found.1)
      | _ => true
  | .insert _ typeName => typeName.val != []

theorem TypedCall.keeps_of_test {state : TypedState} {call : TypedCall}
    (h : call.keepsTest state = true) : call.Keeps state := by
  cases call with
  | addType type => trivial
  | deleteType name =>
      intro found file hfound root hmem
      rw [keepsTest, hfound] at h
      simpa using List.all_eq_true.mp h root hmem
  | insert json typeName =>
      intro found file _
      simpa [keepsTest] using h

theorem typedRun_law_two : ∃ state : TypedState, TypedLaw state ∧
    state.roots.length = 1 ∧ state.added.length = 1 := by
  obtain ⟨state, run, hfound⟩ := Run.exists_of_any typedStep
    (fun state call => decide call.Valid && call.keepsTest state)
    [.addType (plainType [97]), .addType (plainType [98]),
      .insert plainJson (stringCtor [98]), .deleteType (stringCtor [97])]
    (fun state => state.roots.length == 1 && state.added.length == 1)
    id
    (fun htest => by
      rw [Bool.and_eq_true] at htest
      exact ⟨of_decide_eq_true htest.1, TypedCall.keeps_of_test htest.2⟩)
    (emptyFile_typedRun (fun state call => call.Valid ∧ call.Keeps state))
    (by decide_cbv)
  rw [Bool.and_eq_true, beq_iff_eq, beq_iff_eq] at hfound
  exact ⟨state, typedRun_law run, hfound.1, hfound.2⟩

/-- A type is added where the one of an object was. -/
theorem typedRun_law_fails : ¬ ∀ state : TypedState,
    TypedRun (fun _ call => call.Valid) state → TypedLaw state := by
  intro hlaw
  obtain ⟨state, run, hfound⟩ := Run.exists_of_any typedStep
    (fun _ call => decide call.Valid)
    [.addType (plainType [97]), .insert plainJson (stringCtor [97]),
      .deleteType (stringCtor [97]), .addType (plainType [98])]
    (fun state => (state.roots.map (fun root => (root.foff, root.typeName)) ==
        [(8232, stringCtor [97])]) &&
      (iterCollect (fun _ => []) 2 ⟨some (stringCtor [98]), []⟩ 2
        state.file).holds (fun all _ => all.map Found.foff == [8232]))
    id of_decide_eq_true (emptyFile_typedRun (fun _ call => call.Valid))
    (by decide_cbv)
  rw [Bool.and_eq_true, beq_iff_eq] at hfound
  obtain ⟨hroots, hread⟩ := hfound
  obtain ⟨all, file, hcollect, hall⟩ := Outcome.exists_of_holds hread
  have hmap : all.map Found.foff = [8232] := by simpa using hall
  obtain ⟨found, hmem, hfoff⟩ := List.mem_map.mp
    (show 8232 ∈ all.map Found.foff by rw [hmap]; exact List.mem_cons_self)
  obtain ⟨root, hroot, hname⟩ := List.mem_map.mp
    (show (8232, stringCtor [97]) ∈
        state.roots.map (fun root => (root.foff, root.typeName)) by
      rw [hroots]; exact List.mem_cons_self)
  rw [Prod.mk.injEq] at hname
  have hsame := hlaw state run (fun _ => []) 2 2
    ⟨some (stringCtor [98]), []⟩ (stringCtor [98]) rfl all file hcollect found
    hmem root hroot (hname.1.trans hfoff.symm)
  rw [hname.2] at hsame
  exact absurd hsame (by decide)

end NosqlDbms
