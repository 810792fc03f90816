import NosqlDbms.FileForest
import NosqlDbms.IterLaw
import NosqlDbms.Searching
import Mathlib.Tactic

/-!
# What a search finds

A search reads all slots in use, section by section, and those that a deletion
has cleared are among them: they read as an `int32` node without a key.  Where
`query_check` has a result for each of them, the search gives the offsets for
which the result is `true`.
-/

namespace NosqlDbms

/-- `query_check` of what is read at the offset, with the name of its type. -/
def File.queryAt (past : Str → List Byte) (depth : ℕ) (query : Query)
    (file : File) (foff : ℕ) : Option Bool :=
  match fileRead depth foff file with
  | .ok read file' =>
      match fileReadTypeName read.2.typePtr file' with
      | .ok name _ => queryCheck past query read.1 name
      | .failed _ => none
      | .stuck => none
  | .failed _ => none
  | .stuck => none

def SectHead.slots (head : SectHead) : List ℕ :=
  (slotOffsets head.lstItmPtr).map (head.fileOffset + ·)

/-- The slots in use from a section on, in the order of the sections and of the
slots. -/
def File.slotsFrom (file : File) (index : ℕ) : List ℕ :=
  (file.extents.drop index).flatMap SectHead.slots

def File.slots (file : File) : List ℕ := file.slotsFrom 0

/-! ## One section -/

section Load

variable {sect : Sect} {items : Items}

theorem Layout.load_slots (h : Layout sect items) {soffs : List ℕ}
    (hsoffs : ∀ soff ∈ soffs, soff ∈ slotOffsets sect.head.lstItmPtr)
    (hspelled : ∀ soff item, items soff = some item →
      ∃ key value, item.Spells key value) :
    ∃ sect', sectExtLoadSlots soffs sect =
        .ok (soffs.map (sect.head.fileOffset + ·)) sect' ∧
      Layout sect' items ∧ sect'.head = sect.head := by
  induction soffs generalizing sect with
  | nil => exact ⟨sect, rfl, h, rfl⟩
  | cons soff rest ih =>
      obtain ⟨hlow, hhigh, haligned⟩ :=
        (mem_slotOffsets h.aligned).mp (hsoffs soff List.mem_cons_self)
      have hlip := h.lip_le
      have hfrp := h.frp_le
      obtain ⟨read, sect₁, hread, hlayout, hhead⟩ : ∃ read sect₁,
          sectExtRead soff sect = .ok read sect₁ ∧ Layout sect₁ items ∧
            sect₁.head = sect.head := by
        cases hitem : items soff with
        | none =>
            obtain ⟨sect₁, hread, hlayout, hhead, -⟩ :=
              h.read_cleared hlow hhigh haligned hitem
            exact ⟨_, sect₁, hread, hlayout, hhead⟩
        | some item =>
            obtain ⟨key, value, hspells⟩ := hspelled soff item hitem
            obtain ⟨sect₁, hread, hlayout, hhead, -⟩ := h.read hitem hspells
            exact ⟨_, sect₁, hread, hlayout, hhead⟩
      obtain ⟨sect', hrest, hlayout', hhead'⟩ := ih hlayout
        (fun soff hmem => by
          rw [hhead]
          exact hsoffs soff (List.mem_cons_of_mem _ hmem))
      refine ⟨sect', ?_, hlayout', hhead'.trans hhead⟩
      have hfoff : (sectHeadGetFileoff sect.head soff).toNat =
          sect.head.fileOffset + soff := by
        rw [sectHeadGetFileoff_of_lt (by omega), Int.toNat_natCast]
      rw [sectExtLoadSlots, Prog.bind_of_ok (Sect.getHead_apply sect),
        Prog.bind_of_ok (Prog.status_of_ok hread), Prog.bind_of_ok hrest]
      simp only [Prog.pure_apply, hfoff, hhead, List.map_cons]

theorem Layout.load (h : Layout sect items)
    (hspelled : ∀ soff item, items soff = some item →
      ∃ key value, item.Spells key value) :
    ∃ sect', sectExtLoad sect = .ok sect.head.slots sect' := by
  obtain ⟨sect', hload, -⟩ :=
    h.load_slots (fun _ hmem => hmem) hspelled
  exact ⟨sect', hload⟩

end Load

/-! ## One slot -/

/-- What a search reads in a slot: the document, its entity and the name of its
type. -/
structure SlotDoc where
  json : Json
  entity : Entity
  name : Option Str

/-- What a cleared slot is taken for. -/
def clearedJson : Json := .node (stringCtor []) (.int32 0) .null .null

def clearedDoc : SlotDoc := ⟨clearedJson, entityClear, none⟩

def SlotDoc.check (past : Str → List Byte) (query : Query) (slotDoc : SlotDoc) :
    Option Bool := queryCheck past query slotDoc.json slotDoc.name

def SlotDoc.found (slotDoc : SlotDoc) (foff : ℕ) : Found :=
  ⟨foff, slotDoc.json, slotDoc.entity⟩

namespace File

section ReadsSlot

variable {file file' : File} {contents : Contents} {depth foff : ℕ}
  {slotDoc : SlotDoc} {item : Item}

theorem SameAs.refl (h : file.Holds contents.Spelled) :
    file.SameAs contents file := ⟨rfl, h⟩

theorem Quiet.sameAs (hquiet : file.Quiet file')
    (h : file.Holds contents.Spelled) : file.SameAs contents file' :=
  ⟨congrArg₂ Prod.mk hquiet.lstSectPtr (congrArg₂ Prod.mk
    (hquiet.sects .extents) (hquiet.sects .types)),
    hquiet.holds h contents.local_spelled⟩

theorem SameAs.after {α : Type} {call : Prog File α} {value : α}
    {file'' : File} (h : file.SameAs contents file')
    (hcall : call.Yields (file.SameAs contents) (fun _ => True))
    (hok : call file' = .ok value file'') : file.SameAs contents file'' :=
  (hcall.ok h hok).1.1

theorem SameAs.stores_iff (h : file.SameAs contents file') :
    file'.Stores contents foff item ↔ file.Stores contents foff item :=
  ⟨fun hstores => hstores.congr (h.sects .extents).symm,
    fun hstores => hstores.congr (h.sects .extents)⟩

theorem SameAs.catalogued_iff (h : file.SameAs contents file')
    {entry : TypeEntry} : file'.Catalogued contents foff entry ↔
      file.Catalogued contents foff entry := by
  unfold Catalogued
  simp only [headAt_congr (h.sects .types)]

/-- A search reads this in the slot, whatever it has read before. -/
def ReadsSlot (file : File) (contents : Contents) (depth foff : ℕ)
    (slotDoc : SlotDoc) : Prop :=
  ∀ file', file.SameAs contents file' → ∃ file₁ file₂,
    fileRead depth foff file' = .ok (slotDoc.json, slotDoc.entity) file₁ ∧
      fileReadTypeName slotDoc.entity.typePtr file₁ = .ok slotDoc.name file₂ ∧
      file.SameAs contents file₂

theorem ReadsSlot.queryAt (h : file.ReadsSlot contents depth foff slotDoc)
    (hsameAs : file.SameAs contents file') (past : Str → List Byte)
    (query : Query) :
    file'.queryAt past depth query foff = slotDoc.check past query := by
  obtain ⟨file₁, file₂, hread, hname, -⟩ := h file' hsameAs
  rw [File.queryAt, hread]
  simp only
  rw [hname]
  rfl

/-! ## Slots in use -/

theorem Holds.mem_slots (h : file.Holds contents.Spelled)
    (hitem : file.Stores contents foff item) : foff ∈ file.slots := by
  obtain ⟨index, head, soff, hhead, hsoff, rfl⟩ := hitem
  have hlayout : Layout ⟨head, file.storage⟩ (contents.exts index) :=
    h.sect hhead
  exact List.mem_flatMap.mpr ⟨head, List.mem_of_getElem? hhead,
    List.mem_map.mpr ⟨soff, (mem_slotOffsets hlayout.aligned).mpr
      (hlayout.slot hsoff), rfl⟩⟩

theorem Holds.mem_head_slots (h : file.Holds contents.Spelled) {index : ℕ}
    {head : SectHead} (hhead : file.headAt .extents index = some head)
    (hmem : foff ∈ head.slots) :
    head.fileOffset ≤ foff ∧ foff < head.fileOffset + 8192 := by
  have hlayout : Layout ⟨head, file.storage⟩ (contents.exts index) :=
    h.sect hhead
  obtain ⟨soff, hsoff, rfl⟩ := List.mem_map.mp hmem
  have hslot := (mem_slotOffsets hlayout.aligned).mp hsoff
  have hlip := hlayout.lip_le
  have hfrp := hlayout.frp_le
  simp only at hlip hfrp hslot
  omega

theorem Holds.slots_nodup (h : file.Holds contents.Spelled) :
    file.slots.Nodup := by
  rw [slots, slotsFrom, List.drop_zero, List.nodup_flatMap]
  constructor
  · intro head _
    apply List.Nodup.map (fun _ _ => Nat.add_left_cancel)
    exact (pairwise_slotOffsets _).imp Nat.ne_of_lt
  · rw [List.pairwise_iff_getElem]
    intro index index' hlt hlt' hbefore foff hmem hmem'
    have hhead : file.headAt .extents index = some file.extents[index] :=
      List.getElem?_eq_getElem hlt
    have hhead' : file.headAt .extents index' = some file.extents[index'] :=
      List.getElem?_eq_getElem hlt'
    have hapart := h.placed.apart hhead hhead'
      (fun heq => hbefore.ne (congrArg Prod.snd heq))
    have hin := h.mem_head_slots hhead hmem
    have hin' := h.mem_head_slots hhead' hmem'
    omega

theorem Holds.read_no_type (h : file.Holds contents.Spelled) :
    fileReadTypeName 0 file = .ok none file := by
  have hnone : getSect .types 0 file = .ok none file := by
    have hfind : (file.sects .types).findIdx? (fun head =>
        decide (head.fileOffset ≤ 0) &&
          decide (0 < head.fileOffset + SECTION_SIZE)) = none := by
      rw [List.findIdx?_eq_none_iff]
      intro head hmem
      obtain ⟨index, hindex⟩ := List.getElem?_of_mem hmem
      have hlow : 8 ≤ head.fileOffset := h.placed.low hindex
      rw [Bool.and_eq_false_iff]
      left
      rw [decide_eq_false_iff_not]
      omega
    rw [getSect, Prog.bind_of_ok (Prog.get_apply file), hfind,
      Prog.pure_apply]
  have hfailed : fileAt .types 0 sectTypesReadName file = .failed file := by
    rw [fileAt, Prog.bind_of_ok hnone]
    rfl
  rw [fileReadTypeName, Prog.bind_of_ok (Prog.status_of_failed hfailed)]
  rfl

/-- The name of the type that is there, none where none is pointed to. -/
def Named (file : File) (contents : Contents) (typePtr : ℕ)
    (name : Option Str) : Prop :=
  (typePtr = 0 ∧ name = none) ∨ ∃ entry,
    file.Catalogued contents typePtr entry ∧ name = some entry.type.name

theorem Named.read {typePtr : ℕ} {name : Option Str}
    (hnamed : file.Named contents typePtr name)
    (hsameAs : file.SameAs contents file') :
    ∃ file'', fileReadTypeName typePtr file' = .ok name file'' := by
  rcases hnamed with ⟨rfl, rfl⟩ | ⟨entry, hentry, rfl⟩
  · exact ⟨file', hsameAs.holds.read_no_type⟩
  · exact hsameAs.holds.read_type_name
      (hsameAs.catalogued_iff.mpr hentry)

/-- The type an item points to is there, or it points to none. -/
def Typed (file : File) (contents : Contents) (item : Item) : Prop :=
  item.entity.typePtr = 0 ∨
    ∃ entry, file.Catalogued contents item.entity.typePtr entry

theorem Typed.named (h : file.Typed contents item) :
    ∃ name, file.Named contents item.entity.typePtr name := by
  rcases h with hzero | ⟨entry, hentry⟩
  · exact ⟨none, Or.inl ⟨hzero, rfl⟩⟩
  · exact ⟨_, Or.inr ⟨entry, hentry, rfl⟩⟩

/-- What is in the slot of a live entity. -/
structure StoresDoc (file : File) (contents : Contents) (foff : ℕ)
    (slotDoc : SlotDoc) : Prop where
  item : ∃ item, file.Stores contents foff item ∧
    slotDoc.entity = item.entity
  not_null : slotDoc.json.isNull = false
  stored : slotDoc.json.Stored (file.Stores contents)
    slotDoc.entity.famAddr.dadPtr slotDoc.entity.typePtr foff
  named : file.Named contents slotDoc.entity.typePtr slotDoc.name

theorem StoresDoc.sameAs (h : file.StoresDoc contents foff slotDoc)
    (hsameAs : file.SameAs contents file') : file'.StoresDoc contents foff slotDoc where
  item := by
    obtain ⟨item, hitem, hentity⟩ := h.item
    exact ⟨item, hsameAs.stores_iff.mpr hitem, hentity⟩
  not_null := h.not_null
  stored := h.stored.mono (fun _ _ => hsameAs.stores_iff.mpr)
  named := by
    rcases h.named with hnone | ⟨entry, hentry, hname⟩
    · exact Or.inl hnone
    · exact Or.inr ⟨entry, hsameAs.catalogued_iff.mpr hentry, hname⟩

theorem StoresDoc.readsSlot (h : file.StoresDoc contents foff slotDoc)
    (hdepth : slotDoc.json.nodes.length ≤ depth) :
    file.ReadsSlot contents depth foff slotDoc := by
  intro file' hsameAs
  obtain ⟨item, hitem, hentity⟩ := h.item
  obtain ⟨file₁, hread, -⟩ := hsameAs.holds.read_tree
    (h.stored.mono (fun _ _ => hsameAs.stores_iff.mpr)) h.not_null hdepth
    (hsameAs.stores_iff.mpr hitem)
  have hsameAs₁ := hsameAs.after (keptBySearch_sameAs.fileRead depth foff) hread
  obtain ⟨file₂, hname⟩ := h.named.read hsameAs₁
  rw [← hentity] at hread
  exact ⟨file₁, file₂, hread, hname,
    hsameAs₁.after (keptBySearch_sameAs.typeName _) hname⟩

theorem readsSlot_cleared {index : ℕ} {head : SectHead}
    (hhead : file.headAt .extents index = some head)
    (hslot : foff ∈ head.slots) (hnone : ∀ item, ¬ file.Stores contents foff item)
    (hdepth : 0 < depth) :
    file.ReadsSlot contents depth foff clearedDoc := by
  intro file' hsameAs
  obtain ⟨rounds, rfl⟩ := Nat.exists_eq_add_one_of_ne_zero hdepth.ne'
  have hhead' : file'.headAt .extents index = some head := by
    rw [headAt_congr (hsameAs.sects _), hhead]
  have hlayout : Layout ⟨head, file'.storage⟩ (contents.exts index) :=
    hsameAs.holds.sect hhead'
  obtain ⟨soff, hsoff, rfl⟩ := List.mem_map.mp hslot
  obtain ⟨hlow, hhigh, haligned⟩ := (mem_slotOffsets hlayout.aligned).mp hsoff
  have hfree : contents.exts index soff = none := by
    by_contra hne
    obtain ⟨item, hitem⟩ := Option.ne_none_iff_exists'.mp hne
    exact hnone item ⟨index, head, soff, hhead, hitem, rfl⟩
  have hlip := hlayout.lip_le
  have hfrp := hlayout.frp_le
  simp only at hlip hfrp hhigh
  obtain ⟨sect', hread, -⟩ := hlayout.read_cleared hlow hhigh haligned hfree
  have hat := hsameAs.holds.placed.fileAt_ok hhead' (by omega) hread
  have hleaf := fileRead_leaf rounds hat rfl rfl
  have hsameAs₁ := hsameAs.after (keptBySearch_sameAs.fileRead (rounds + 1) _)
    hleaf
  exact ⟨_, _, hleaf, hsameAs₁.holds.read_no_type, hsameAs₁⟩

end ReadsSlot

end File

/-! ## Many slots -/

section Find

variable (past : Str → List Byte) (query : Query) (slotDocs : ℕ → SlotDoc)

def picks (foffs : List ℕ) : List ℕ :=
  foffs.filter (fun foff => (slotDocs foff).check past query == some true)

def pickFound (foff : ℕ) : Found := (slotDocs foff).found foff

/-- What comes of a search over the slots: it finds those that pass the check,
if that has a result for all of them. -/
def FindsIn (file : File) (contents : Contents) (foffs : List ℕ)
    (outcome : Outcome File (List Found)) : Prop :=
  ((∀ foff ∈ foffs, (slotDocs foff).check past query ≠ none) ∧
    ∃ file'', outcome =
        .ok ((picks past query slotDocs foffs).map (pickFound slotDocs)) file'' ∧
      file.SameAs contents file'') ∨
  (outcome = .stuck ∧
    ∃ foff ∈ foffs, (slotDocs foff).check past query = none)

/-- What an iterator in the section has still before it. -/
def File.ahead (file : File) : Option ℕ → List ℕ
  | none => []
  | some index => picks past query slotDocs (file.slotsFrom (index + 1))

variable {past query slotDocs} {file file' : File} {contents : Contents}
  {depth : ℕ}

theorem picks_append (foffs foffs' : List ℕ) :
    picks past query slotDocs (foffs ++ foffs') =
      picks past query slotDocs foffs ++ picks past query slotDocs foffs' :=
  List.filter_append foffs foffs'

theorem mem_picks {foffs : List ℕ} {foff : ℕ} :
    foff ∈ picks past query slotDocs foffs ↔
      foff ∈ foffs ∧ (slotDocs foff).check past query = some true := by
  rw [picks, List.mem_filter, beq_iff_eq]

theorem findFrom_spec {foffs : List ℕ}
    (hreadsSlot : ∀ foff ∈ foffs, file.ReadsSlot contents depth foff (slotDocs foff))
    (hsameAs : file.SameAs contents file') :
    FindsIn past query slotDocs file contents foffs
      (fileFindFrom past depth query foffs file') := by
  induction foffs generalizing file' with
  | nil =>
      exact Or.inl ⟨fun foff hmem => absurd hmem List.not_mem_nil, file',
        rfl, hsameAs⟩
  | cons foff rest ih =>
      obtain ⟨file₁, file₂, hread, hname, hsameAs₂⟩ :=
        hreadsSlot foff List.mem_cons_self file' hsameAs
      have hrest := ih (fun foff hmem =>
        hreadsSlot foff (List.mem_cons_of_mem _ hmem)) hsameAs₂
      rw [fileFindFrom, Prog.bind_of_ok (Prog.status_of_ok hread)]
      simp only
      rw [Prog.bind_of_ok hname]
      cases hcheck : (slotDocs foff).check past query with
      | none =>
          rw [SlotDoc.check] at hcheck
          rw [hcheck]
          exact Or.inr ⟨rfl, foff, List.mem_cons_self, hcheck⟩
      | some met =>
          have hquery := hcheck
          rw [SlotDoc.check] at hquery
          rw [hquery]
          rcases hrest with ⟨hall, file'', hfind, hsameAs''⟩ |
            ⟨hstuck, foff', hmem, hnone⟩
          · refine Or.inl ⟨fun foff' hmem => ?_, file'', ?_, hsameAs''⟩
            · rcases List.mem_cons.mp hmem with rfl | hmem
              · rw [hcheck]
                exact Option.some_ne_none met
              · exact hall foff' hmem
            · cases met with
              | true =>
                  rw [picks, List.filter_cons_of_pos (by rw [hcheck]; rfl)]
                  exact Prog.bind_of_ok hfind
              | false =>
                  rw [picks,
                    List.filter_cons_of_neg (by rw [hcheck]; simp)]
                  exact hfind
          · refine Or.inr ⟨?_, foff', List.mem_cons_of_mem _ hmem, hnone⟩
            cases met with
            | true =>
                simp only
                rw [Prog.bind_apply, hstuck]
            | false => exact hstuck

theorem FindsIn.append {first next : Prog File (List Found)}
    {foffs foffs' : List ℕ}
    (h : FindsIn past query slotDocs file contents foffs (first file'))
    (hnext : ∀ file'', file.SameAs contents file'' →
      FindsIn past query slotDocs file contents foffs' (next file'')) :
    FindsIn past query slotDocs file contents (foffs ++ foffs')
      ((do
        let found ← first
        let rest ← next
        return found ++ rest : Prog File (List Found)) file') := by
  rcases h with ⟨hall, file₁, hfirst, hsameAs₁⟩ | ⟨hstuck, foff, hmem, hnone⟩
  · rw [Prog.bind_of_ok hfirst]
    rcases hnext file₁ hsameAs₁ with
      ⟨hall', file₂, hrest, hsameAs₂⟩ | ⟨hstuck, foff, hmem, hnone⟩
    · refine Or.inl ⟨fun foff hmem => ?_, file₂, ?_, hsameAs₂⟩
      · exact (List.mem_append.mp hmem).elim (hall foff) (hall' foff)
      · rw [picks_append, List.map_append]
        exact Prog.bind_of_ok hrest
    · refine Or.inr ⟨?_, foff, List.mem_append_right _ hmem, hnone⟩
      rw [Prog.bind_apply, hstuck]
  · refine Or.inr ⟨?_, foff, List.mem_append_left _ hmem, hnone⟩
    rw [Prog.bind_apply, hstuck]

theorem FindsIn.ok {foffs : List ℕ} {outcome : Outcome File (List Found)}
    (h : FindsIn past query slotDocs file contents foffs outcome)
    (hcheck : ∀ foff ∈ foffs, (slotDocs foff).check past query ≠ none) :
    ∃ file'', outcome =
        .ok ((picks past query slotDocs foffs).map (pickFound slotDocs)) file'' ∧
      file.SameAs contents file'' := by
  rcases h with ⟨-, hok⟩ | ⟨-, foff, hmem, hnone⟩
  · exact hok
  · exact absurd hnone (hcheck foff hmem)

theorem File.slotsFrom_succ {index : ℕ} {head : SectHead}
    (hhead : file.headAt .extents index = some head) :
    file.slotsFrom index = head.slots ++ file.slotsFrom (index + 1) := by
  obtain ⟨hlt, heq⟩ := List.getElem?_eq_some_iff.mp hhead
  have hlt' : index < file.extents.length := hlt
  have hget : file.extents[index] = head := heq
  rw [slotsFrom, List.drop_eq_getElem_cons hlt', List.flatMap_cons, hget]
  rfl

theorem File.slotsFrom_end {index : ℕ} (hend : file.extents.length ≤ index) :
    file.slotsFrom index = [] := by
  rw [slotsFrom, List.drop_of_length_le hend, List.flatMap_nil]

theorem File.slotsFrom_subset (index : ℕ) : file.slotsFrom index ⊆ file.slots :=
  fun _ hmem => by
    obtain ⟨head, hhead, hslot⟩ := List.mem_flatMap.mp hmem
    exact List.mem_flatMap.mpr ⟨head, List.mem_of_mem_drop hhead, hslot⟩

section Whole

variable (hreadsSlot : ∀ foff ∈ file.slots,
    file.ReadsSlot contents depth foff (slotDocs foff))
  (hspelled : ∀ {foff item}, file.Stores contents foff item →
    ∃ key value, item.Spells key value)

include hreadsSlot hspelled

theorem find_spec {index : ℕ} {head : SectHead}
    (hhead : file.headAt .extents index = some head)
    (hsameAs : file.SameAs contents file') :
    FindsIn past query slotDocs file contents head.slots
      (fileFind past depth index query file') := by
  have hhead' : file'.headAt .extents index = some head := by
    rw [File.headAt_congr (hsameAs.sects _), hhead]
  have hlayout : Layout ⟨head, file'.storage⟩ (contents.exts index) :=
    hsameAs.holds.sect hhead'
  obtain ⟨sect', hload⟩ := hlayout.load (fun soff item hitem =>
    hspelled ⟨index, head, soff, hhead, hitem, rfl⟩)
  have hload' := File.onSect_of_ok hhead' hload
  have hsameAs' := hsameAs.after (keptBySearch_sameAs.load index) hload'
  rw [fileFind, Prog.bind_of_ok (Prog.status_of_ok hload')]
  refine findFrom_spec (fun foff hmem => hreadsSlot foff ?_) hsameAs'
  apply File.slotsFrom_subset index
  rw [File.slotsFrom_succ hhead]
  exact List.mem_append_left _ hmem

theorem searchFrom_spec {count index : ℕ}
    (hcount : index + count = file.extents.length)
    (hsameAs : file.SameAs contents file') :
    FindsIn past query slotDocs file contents (file.slotsFrom index)
      (searchFrom past depth query count index file') := by
  induction count generalizing index file' with
  | zero =>
      rw [File.slotsFrom_end (by omega)]
      exact Or.inl ⟨fun foff hmem => absurd hmem List.not_mem_nil, file',
        rfl, hsameAs⟩
  | succ count ih =>
      have hlt : index < file.extents.length := by omega
      have hhead : file.headAt .extents index = some file.extents[index] :=
        List.getElem?_eq_getElem hlt
      rw [File.slotsFrom_succ hhead]
      exact (find_spec hreadsSlot hspelled hhead hsameAs).append
        (fun file'' hsameAs'' => ih (by omega) hsameAs'')

/-- What the iterator goes through, given enough rounds. -/
theorem iterCollect_spec (h : file.Holds contents.Spelled) {rounds : ℕ}
    (hrounds : file.slots.length < rounds) :
    FindsIn past query slotDocs file contents file.slots
      (iterCollect past depth query rounds file) := by
  have hsearch : FindsIn past query slotDocs file contents file.slots
      (searchAll past depth query file) := by
    rw [searchAll, Prog.bind_of_ok (Prog.get_apply file)]
    exact searchFrom_spec hreadsSlot hspelled (Nat.zero_add _) (.refl h)
  rw [iterCollect_eq]
  rcases hsearch with ⟨hall, file', hsearch, hsameAs⟩ | ⟨hstuck, hnone⟩
  · refine Or.inl ⟨hall, file', ?_, hsameAs⟩
    have hlength : ((picks past query slotDocs file.slots).map
        (pickFound slotDocs)).length ≤ file.slots.length := by
      rw [List.length_map]
      exact List.length_filter_le _ _
    rw [Prog.bind_of_ok hsearch, inRounds, if_pos (by omega),
      Prog.pure_apply]
  · refine Or.inr ⟨?_, hnone⟩
    rw [Prog.bind_apply, hstuck]

end Whole

end Find

end NosqlDbms
