import NosqlDbms.FileWrite
import NosqlDbms.SectionsRun
import Mathlib.Tactic

/-!
# Documents beside any types

Writing and reading documents looks at the extents sections only.  So what is
known of files without types carries over to files with types of any names,
also such as do not lie in their sections as they should.
-/

namespace NosqlDbms

/-! ## Calls that pass a part of the state by -/

namespace Prog

variable {σ α β : Type}

def Passes (change : σ → σ) (call : Prog σ α) : Prop :=
  ∀ state, call (change state) = (call state).mapState change

variable {change : σ → σ}

theorem passes_pure (value : α) :
    (pure value : Prog σ α).Passes change := fun _ => rfl

theorem passes_fail : (fail : Prog σ α).Passes change := fun _ => rfl

theorem passes_stuck : (stuck : Prog σ α).Passes change := fun _ => rfl

theorem Passes.bind {call : Prog σ α} {next : α → Prog σ β}
    (h : call.Passes change) (hnext : ∀ value, (next value).Passes change) :
    (call >>= next).Passes change := by
  intro state
  rw [bind_apply, bind_apply, h state]
  cases call state with
  | ok value state' => exact hnext value state'
  | failed state' => rfl
  | stuck => rfl

theorem passes_get_bind {next : σ → Prog σ β}
    (hnext : ∀ state, (next state).Passes change)
    (hsame : ∀ state, next (change state) = next state) :
    (get >>= next).Passes change := by
  intro state
  rw [bind_of_ok (get_apply state), bind_of_ok (get_apply (change state)),
    hsame]
  exact hnext state state

theorem Passes.status {call : Prog σ α} (h : call.Passes change) :
    call.status.Passes change := by
  intro state
  rw [Prog.status, Prog.status, h state]
  cases call state <;> rfl

end Prog

/-! ## Documents pass types by -/

def File.withTypes (file : File) (types : List SectHead) : File :=
  { file with types := types }

open Prog

section Passes

variable {α : Type} {types : List SectHead}

theorem passes_onSect (index : ℕ) (call : Prog Sect α) :
    (File.onSect .extents index call).Passes (·.withTypes types) := by
  intro file
  have hhead : (file.withTypes types).headAt .extents index =
      file.headAt .extents index := rfl
  rw [File.onSect, File.onSect, hhead]
  cases file.headAt .extents index with
  | none => rfl
  | some head =>
      change (call ⟨head, file.storage⟩).mapState _ =
        ((call ⟨head, file.storage⟩).mapState _).mapState _
      cases call ⟨head, file.storage⟩ <;> rfl

theorem passes_sectHead (index : ℕ) :
    (File.sectHead .extents index).Passes (·.withTypes types) := by
  intro file
  have hhead : (file.withTypes types).headAt .extents index =
      file.headAt .extents index := rfl
  rw [File.sectHead, File.sectHead, hhead]
  cases file.headAt .extents index <;> rfl

theorem passes_firstFit (call : Prog Sect α) (count index : ℕ) :
    (File.firstFit .extents call count index).Passes
      (·.withTypes types) := by
  induction count generalizing index with
  | zero => exact passes_pure none
  | succ count ih =>
      apply (passes_onSect index call).status.bind
      intro found
      cases found with
      | none => exact ih (index + 1)
      | some value => exact passes_pure _

theorem passes_fileFit (call : Prog Sect α) :
    (fileFit .extents fileAddSectExt call).Passes (·.withTypes types) := by
  have hfirst : (File.firstSect .extents call).Passes (·.withTypes types) :=
    passes_get_bind (fun file => passes_firstFit call _ 0) (fun _ => rfl)
  apply hfirst.bind
  intro found
  cases found with
  | some pair => exact passes_pure pair
  | none =>
      have hadd : fileAddSectExt.Passes (·.withTypes types) := by
        intro file
        have heq : ∀ file, fileAddSectExt file =
            .ok () (file.extended .extents) :=
          fun file => File.fileAddSect_eq file .extents
        rw [heq file]
        exact heq (file.withTypes types)
      refine passes_get_bind (fun file => ?_) (fun _ => rfl)
      apply hadd.bind
      intro _
      exact (passes_onSect _ call).bind (fun _ => passes_pure _)

theorem passes_fileAt (foff : ℕ) (call : ℕ → Prog Sect α) :
    (fileAt .extents foff call).Passes (·.withTypes types) := by
  have hsect : (getSect .extents foff).Passes (·.withTypes types) :=
    passes_get_bind (fun _ => passes_pure _) (fun _ => rfl)
  apply hsect.bind
  intro found
  cases found with
  | none => exact passes_fail
  | some index =>
      apply (passes_sectHead index).bind
      intro head
      exact (passes_onSect index _).bind (fun _ => passes_pure _)

theorem passes_fileHeadSync :
    fileHeadSync.Passes (·.withTypes types) := fun _ => rfl

theorem passes_fileWrite (json : Json) (dadFileoff typeFoff : ℕ) :
    (fileWrite json dadFileoff typeFoff).Passes (·.withTypes types) := by
  induction json generalizing dadFileoff typeFoff with
  | null => exact passes_stuck
  | node key value bro son ihBro ihSon =>
      have hrelative : ∀ (relative : Json) (dad : ℕ),
          (fileWrite relative dad 0).Passes (·.withTypes types) →
          (if relative.isNull then pure 0
            else fileWrite relative dad 0 : Prog File ℕ).Passes
              (·.withTypes types) := by
        intro relative dad ih
        split
        · exact passes_pure 0
        · exact ih
      rw [fileWrite]
      apply (passes_fileFit _).bind
      intro found
      apply ((passes_sectHead found.1).bind
        (fun head => passes_pure _)).bind
      intro wrtFoff
      apply (hrelative bro dadFileoff (ihBro dadFileoff 0)).bind
      intro broOffset
      apply (hrelative son wrtFoff (ihSon wrtFoff 0)).bind
      intro sonOffset
      apply (passes_onSect found.1 _).status.bind
      intro _
      apply passes_fileHeadSync.bind
      intro _
      exact passes_pure wrtFoff

theorem passes_fileRead (fuel foff : ℕ) :
    (fileRead fuel foff).Passes (·.withTypes types) := by
  induction fuel generalizing foff with
  | zero => exact passes_stuck
  | succ fuel ih =>
      have hrelative : ∀ (json : Json) (ptr : ℕ)
          (add : Json → Json → Json),
          (if ptr ≠ 0 then do
              let read ← fileRead fuel ptr
              pure (add json read.1)
            else pure json : Prog File Json).Passes
              (·.withTypes types) := by
        intro json ptr add
        split
        · exact (ih ptr).bind (fun _ => passes_pure _)
        · exact passes_pure json
      apply (passes_fileAt foff sectExtRead).bind
      intro read
      apply (hrelative _ _ jsonAddBro).bind
      intro json
      apply (hrelative _ _ jsonAddSon).bind
      intro json
      exact passes_pure _

theorem passes_fileDelete (fuel foff : ℕ) (isRoot : Bool) :
    (fileDelete fuel foff isRoot).Passes (·.withTypes types) := by
  have hheadWrite : ∀ (foff : ℕ) (data : List Byte),
      (fileHeadWrite foff data).Passes (·.withTypes types) := by
    intro foff data
    unfold fileHeadWrite
    split
    · exact fun _ => rfl
    · exact passes_pure ()
  induction fuel generalizing foff isRoot with
  | zero => exact passes_stuck
  | succ fuel ih =>
      rw [fileDelete]
      apply (passes_fileAt foff sectExtDelete).bind
      intro deleted
      apply Passes.bind
      · split
        · exact ih _ _
        · exact passes_pure ()
      intro _
      apply Passes.bind
      · split
        · exact ih _ _
        · exact passes_pure ()
      intro _
      apply Passes.bind
      · split
        · exact (hheadWrite _ _).status.bind (fun _ => passes_pure ())
        · exact passes_pure ()
      exact fun _ => passes_fileHeadSync

theorem passes_withTypes {call : Prog File α}
    (h : ∀ types : List SectHead, call.Passes (·.withTypes types))
    (file : File) : call file =
      (call (file.withTypes [])).mapState (·.withTypes file.types) :=
  h file.types (file.withTypes [])

end Passes

/-! ## Reading what is stored -/

def File.entityAt (file : File) (foff : ℕ) : Entity :=
  Entity.ofBytes (file.storage.bytes foff sizeofEntity)

/-- `file_read` returns the document; it goes as deep as that asks for. -/
def File.Reads (file : File) (foff : ℕ) (json : Json) : Prop :=
  ∃ depth, ∀ fuel ≥ depth, ∃ entity file',
    fileRead fuel foff file = .ok (json, entity) file'

theorem fileRead_leaf {file file' : File} {foff soff : ℕ} {entity : Entity}
    {key : Str} {value : JsonValue} (fuel : ℕ)
    (hread : fileAt .extents foff sectExtRead file =
      .ok (soff, entity, key, value) file')
    (hbro : entity.famAddr.broPtr = 0) (hson : entity.famAddr.sonPtr = 0) :
    fileRead (fuel + 1) foff file =
      .ok (.node key value .null .null, entity) file' := by
  unfold fileRead
  rw [Prog.bind_of_ok hread]
  dsimp only
  rw [hbro, hson]
  rfl

namespace File

section Read

variable {file : File} {contents : Contents} {foff : ℕ} {item : Item}

theorem Holds.read_item (h : file.Holds contents.Spelled)
    (hstores : file.Stores contents foff item) {key : Str}
    {value : JsonValue} (hspells : item.Spells key value) :
    ∃ index file', fileAt .extents foff sectExtRead file =
        .ok (index, item.entity, key, value) file' ∧
      file'.Holds contents.Spelled ∧
      ∀ kind, file'.sects kind = file.sects kind := by
  obtain ⟨index, head, soff, hhead, hitem, rfl⟩ := hstores
  have hlayout : Layout ⟨head, file.storage⟩ (contents.exts index) :=
    h.sect hhead
  have hslot := hlayout.border_lt hitem
  obtain ⟨sect', hread, hlayout', hsame, hwithin⟩ :=
    hlayout.read hitem hspells
  have hholds := h.setExt hhead (by rw [hsame]) (hwithin True).confined
    hlayout'
  have hcontents : contents.setExt index (contents.exts index) =
      contents := by
    rw [Contents.setExt, Function.update_eq_self]
  rw [hcontents] at hholds
  exact ⟨index, _, h.placed.fileAt_ok hhead (by omega) hread, hholds,
    sects_putSect_of_head hhead hsame⟩

/-- A stored tree is read back.  The induction is on the tree. -/
theorem Holds.read_tree {json : Json} {dad typePtr fuel : ℕ}
    (h : file.Holds contents.Spelled)
    (hstored : json.Stored (file.Stores contents) dad typePtr foff)
    (hnull : json.isNull = false) (hfuel : json.nodes.length ≤ fuel)
    (hitem : file.Stores contents foff item) :
    ∃ file', fileRead fuel foff file = .ok (json, item.entity) file' ∧
      file'.Holds contents.Spelled ∧
      ∀ kind, file'.sects kind = file.sects kind := by
  induction json generalizing file foff dad typePtr fuel item with
  | null => cases hnull
  | node key value bro son ihBro ihSon =>
      obtain ⟨hne, item', hitem', hspells, -, -, hbro, hson⟩ := hstored
      have hunique := h.stores_unique hitem hitem'
      subst hunique
      rw [Json.nodes, List.length_cons, List.length_append] at hfuel
      obtain ⟨rounds, rfl⟩ := Nat.exists_eq_add_one_of_ne_zero
        (show fuel ≠ 0 by omega)
      obtain ⟨index, file₁, hread, hholds₁, hsects₁⟩ :=
        h.read_item hitem hspells
      have hrelative : ∀ {relative : Json} {dad ptr : ℕ} {file' : File}
          (json : Json) (add : Json → Json → Json),
          (relative.isNull = false →
            ∀ {foff' item'}, relative.Stored (file'.Stores contents) dad 0
              foff' → file'.Stores contents foff' item' →
            ∃ file'', fileRead rounds foff' file' =
                .ok (relative, item'.entity) file'' ∧
              file''.Holds contents.Spelled ∧
              ∀ kind, file''.sects kind = file'.sects kind) →
          file'.Holds contents.Spelled →
          relative.Stored (file'.Stores contents) dad 0 ptr →
          ∃ file'', (if ptr ≠ 0 then do
              let read ← fileRead rounds ptr
              pure (add json read.1)
            else pure json : Prog File Json) file' =
              .ok (if relative.isNull then json else add json relative)
                file'' ∧
            file''.Holds contents.Spelled ∧
            ∀ kind, file''.sects kind = file'.sects kind := by
        intro relative dad ptr file' json add ih hholds hstored
        cases relative with
        | null =>
            have hptr : ptr = 0 := hstored
            rw [if_neg (not_not.mpr hptr)]
            exact ⟨file', rfl, hholds, fun _ => rfl⟩
        | node key' value' bro' son' =>
            have hptr : ptr ≠ 0 := hstored.1
            obtain ⟨item', hstores', -⟩ := hstored.2
            obtain ⟨file'', hrelative, hholds'', hsects''⟩ :=
              ih rfl hstored hstores'
            rw [if_pos hptr, Prog.bind_of_ok hrelative]
            exact ⟨file'', rfl, hholds'', hsects''⟩
      have hstored₁ : ∀ foff item, file.Stores contents foff item →
          file₁.Stores contents foff item :=
        fun _ _ hold => hold.congr (hsects₁ .extents)
      obtain ⟨file₂, hreadBro, hholds₂, hsects₂⟩ :=
        hrelative (.node key value .null .null) jsonAddBro
          (fun hnull foff' item' hstored hitem =>
            ihBro hholds₁ hstored hnull (by omega) hitem)
          hholds₁ (hbro.mono hstored₁)
      have hstored₂ : ∀ foff item, file.Stores contents foff item →
          file₂.Stores contents foff item :=
        fun _ _ hold => (hstored₁ _ _ hold).congr (hsects₂ .extents)
      obtain ⟨file₃, hreadSon, hholds₃, hsects₃⟩ :=
        hrelative (if bro.isNull then Json.node key value .null .null
            else jsonAddBro (.node key value .null .null) bro) jsonAddSon
          (fun hnull foff' item' hstored hitem =>
            ihSon hholds₂ hstored hnull (by omega) hitem)
          hholds₂ (hson.mono hstored₂)
      have hjson : (if son.isNull then
            (if bro.isNull then Json.node key value .null .null
              else jsonAddBro (.node key value .null .null) bro)
          else jsonAddSon (if bro.isNull then
              Json.node key value .null .null
            else jsonAddBro (.node key value .null .null) bro) son) =
          .node key value bro son := by
        cases bro <;> cases son <;> rfl
      refine ⟨file₃, ?_, hholds₃, fun kind => ((hsects₃ kind).trans
        (hsects₂ kind)).trans (hsects₁ kind)⟩
      rw [fileRead, Prog.bind_of_ok hread]
      simp only
      rw [Prog.bind_of_ok hreadBro, Prog.bind_of_ok hreadSon, hjson,
        Prog.pure_apply]

theorem Holds.entityAt (h : file.Holds contents.Spelled)
    (hstores : file.Stores contents foff item) :
    file.entityAt foff = item.entity := by
  obtain ⟨index, head, soff, hhead, hitem, rfl⟩ := hstores
  have hlayout : Layout ⟨head, file.storage⟩ (contents.exts index) :=
    h.sect hhead
  have hbytes : file.storage.bytes (head.fileOffset + soff) sizeofEntity =
      item.entity.bytes := hlayout.toLoose.held.entity hitem
  rw [File.entityAt, hbytes, Entity.ofBytes_bytes]

theorem Holds.reads {json : Json} {dad typePtr : ℕ}
    (h : file.Holds contents.Spelled)
    (hstored : json.Stored (file.Stores contents) dad typePtr foff)
    (hnull : json.isNull = false) : file.Reads foff json := by
  refine ⟨json.nodes.length, fun fuel hfuel => ?_⟩
  obtain ⟨item, hitem⟩ : ∃ item, file.Stores contents foff item := by
    cases json with
    | null => cases hnull
    | node key value bro son =>
        obtain ⟨-, item, hitem, -⟩ := hstored
        exact ⟨item, hitem⟩
  obtain ⟨file', hread, -⟩ := h.read_tree hstored hnull hfuel hitem
  exact ⟨item.entity, file', hread⟩

end Read

end File

/-! ## Files with any types -/

/-- The sections tile the file, and the extents sections hold the contents. -/
structure DocumentsInv (file : File) (contents : Contents) : Prop where
  sections : SectionsInv file
  documents : (file.withTypes []).Holds contents.Spelled

namespace DocumentsInv

variable {file : File} {contents : Contents} {json : Json}
  {dad typePtr foff : ℕ}

theorem write (h : DocumentsInv file contents) (hnull : json.isNull = false)
    (dad typePtr : ℕ) :
    (json.Fits ∧ ∃ foff file' contents',
      fileWrite json dad typePtr file = .ok foff file' ∧
      DocumentsInv file' contents' ∧
      (∀ foff item, file.Stores contents foff item →
        file'.Stores contents' foff item) ∧
      json.Stored (Heap.added (file.Stores contents)
        (file'.Stores contents')) dad typePtr foff) ∨
    (¬ json.Fits ∧ ∃ file' contents',
      fileWrite json dad typePtr file = .failed file' ∧
      DocumentsInv file' contents' ∧
      ∀ foff item, file.Stores contents foff item →
        file'.Stores contents' foff item) := by
  have hsections : ∀ {file'},
      (fileWrite json dad typePtr file).final = some file' →
      SectionsInv file' :=
    fun hfinal => ((follows_fileWrite json dad typePtr).final h.sections
      hfinal).1
  have hpasses := passes_withTypes
    (fun types => @passes_fileWrite types json dad typePtr) file
  have hwrote := @File.Holds.write_link _ _ json h.documents dad typePtr
  rw [if_neg (by rw [hnull]; exact Bool.false_ne_true)] at hwrote
  have hempty : ∀ {file' contents'},
      (file.withTypes []).Grows contents file' contents' →
      (file'.withTypes file.types).withTypes [] = file' := by
    intro file' contents' hgrows
    have htypes : file'.types = [] := hgrows.types
    change file'.withTypes [] = file'
    rw [← htypes]
    rfl
  rcases hwrote with ⟨hfits, foff, file', contents', hwrite, hgrows,
      hstored⟩ | ⟨hfits, file', contents', hwrite, hgrows⟩
  · left
    rw [hwrite, Outcome.mapState_ok] at hpasses
    refine ⟨hfits, foff, _, contents', hpasses, ⟨hsections (by
      rw [hpasses, Outcome.final_ok]), ?_⟩, ?_, hstored⟩
    · rw [hempty hgrows]
      exact hgrows.holds
    · intro foff item hstores
      exact hgrows.stores hstores
  · right
    rw [hwrite, Outcome.mapState_failed] at hpasses
    refine ⟨hfits, _, contents', hpasses, ⟨hsections (by
      rw [hpasses, Outcome.final_failed]), ?_⟩, ?_⟩
    · rw [hempty hgrows]
      exact hgrows.holds
    · intro foff item hstores
      exact hgrows.stores hstores

theorem elsewhere {file' : File} (h : DocumentsInv file contents)
    (hsections : SectionsInv file')
    (hlsp : file.lstSectPtr ≤ file'.lstSectPtr)
    (hextents : file'.extents = file.extents)
    (hcell : ∀ {index head}, file.headAt .extents index = some head →
      ∀ position < 8192, file'.storage.cell (head.fileOffset + position) =
        file.storage.cell (head.fileOffset + position))
    (hsize : file.storage.size ≤ file'.storage.size) :
    DocumentsInv file' contents := by
  have hhead : ∀ {kind index},
      (file'.withTypes []).headAt kind index =
        (file.withTypes []).headAt kind index := by
    intro kind index
    apply File.headAt_congr
    cases kind
    · exact hextents
    · rfl
  refine ⟨hsections, h.documents.placed.of_offsets hlsp
    (fun {kind index head} hhead' => ⟨head, hhead ▸ hhead', rfl⟩), ?_⟩
  intro kind index head hhead'
  rw [hhead] at hhead'
  cases kind with
  | extents =>
      exact contents.local_spelled.frame (h.documents.sect hhead')
        (fun position hlt => hcell hhead' position hlt) hsize
  | types =>
      have hnil : (file.withTypes []).headAt .types index = none := rfl
      rw [hnil] at hhead'
      cases hhead'

theorem follows_fileAddType (type : DocType) (sects : List SectHead) :
    (fileAddType type).Follows
      (fun file => DocumentsInv file contents ∧ file.extents = sects)
      (fun _ _ => True) (fun _ => True) := by
  have hadd : (fileAddSect .types sectHeadCtor).Follows
      (fun file => DocumentsInv file contents ∧ file.extents = sects)
      (fun _ _ => True) (fun _ => True) := by
    apply follows_step (fun file => File.fileAddSect_eq file .types)
    rintro file ⟨hinv, hextents⟩
    have hsame : (file.extended .types).extents = file.extents :=
      File.sects_extended_of_ne file (show SectKind.extents ≠ .types by
        decide)
    refine ⟨⟨hinv.elsewhere (hinv.sections.addSect .types)
      (by rw [File.lstSectPtr_extended]; omega) hsame ?_
      File.size_le_extended, hsame.trans hextents⟩, trivial⟩
    intro index head hhead position hlt
    have hlow := hinv.sections.placed.low hhead
    have hhigh := hinv.sections.placed.high hhead
    exact File.cell_extended (by omega) (by omega)
  have hwrite : ∀ index,
      (File.onSect .types index (sectTypesWrite type)).Follows
        (fun file => DocumentsInv file contents ∧ file.extents = sects)
        (fun _ _ => True) (fun _ => True) := by
    intro index
    have hkept : ∀ {file head sect'}, DocumentsInv file contents →
        file.headAt .types index = some head →
        (sectTypesWrite type ⟨head, file.storage⟩).final = some sect' →
        DocumentsInv (file.putSect .types index sect') contents ∧
          (file.putSect .types index sect').extents = file.extents := by
      intro file head sect' hinv hhead hfinal
      obtain ⟨hbalanced, hbordered⟩ := hinv.sections.heads hhead
      have hfills := (SectCall.typesWrite type).fills hbalanced hbordered
        hfinal
      have hconfined := (hfills.within True).confined
      have hsame : (file.putSect .types index sect').extents =
          file.extents :=
        File.sects_putSect_of_ne (show SectKind.extents ≠ .types by decide)
      refine ⟨hinv.elsewhere (hinv.sections.onSect hhead hfills)
        (by rw [File.putSect_lstSectPtr]) hsame ?_ hconfined.size_le, hsame⟩
      intro index' head' hhead' position hlt
      have hapart := hinv.sections.placed.apart hhead' hhead
        (fun heq => by cases heq)
      exact hconfined.cell _ (by simp only; omega)
    constructor
    · rintro file file' value ⟨hinv, hextents⟩ hok
      obtain ⟨head, sect', hhead, hcall, rfl⟩ := onSect_eq_ok hok
      obtain ⟨hinv', hsame⟩ := hkept hinv hhead
        (by rw [hcall, Outcome.final_ok])
      exact ⟨.single ⟨hinv', hsame.trans hextents⟩ trivial, trivial⟩
    · rintro file file' ⟨hinv, hextents⟩ hfailed
      obtain ⟨head, sect', hhead, hcall, rfl⟩ := onSect_eq_failed hfailed
      obtain ⟨hinv', hsame⟩ := hkept hinv hhead
        (by rw [hcall, Outcome.final_failed])
      exact .single ⟨hinv', hsame.trans hextents⟩ trivial
  have hsync : fileHeadSync.Follows
      (fun file => DocumentsInv file contents ∧ file.extents = sects)
      (fun _ _ => True) (fun _ => True) := by
    apply follows_step fileHeadSync_eq
    rintro file ⟨hinv, hextents⟩
    refine ⟨⟨hinv.elsewhere hinv.sections.headSync le_rfl rfl ?_
      (Storage.size_le_write _ _ _), hextents⟩, trivial⟩
    intro index head hhead position hlt
    have hlow := hinv.sections.placed.low hhead
    exact Storage.cell_write_of_out (Or.inr (by
      rw [length_wordBytes]
      omega))
  apply (follows_fileFit hadd hwrite).bind
  intro found _
  have hfoff : (fileSectFileoff .types found.1 found.2).Follows
      (fun file => DocumentsInv file contents ∧ file.extents = sects)
      (fun _ _ => True) (fun _ => True) :=
    (follows_sectHead found.1).bind (fun head _ => follows_pure trivial)
  apply hfoff.bind
  intro wrtFoff _
  apply hsync.bind
  intro _ _
  exact follows_pure trivial

end DocumentsInv

end NosqlDbms
