import NosqlDbms.FileContents
import Mathlib.Tactic

/-!
# Writing documents

A write puts one node after the other into the first section with room for it,
a new section if there is none.  It succeeds exactly when each node fits into
an empty section; then the tree is in the heap, apart from what was there.
Whether it succeeds or not, nothing that was stored is lost.
-/

namespace NosqlDbms

namespace File

/-! ## One item more -/

section Insert

variable {file : File} {contents : Contents} {index soff foff : ℕ}
  {head : SectHead} {sect' : Sect} {items : Items} {item new : Item}

theorem Holds.setExt (h : file.Holds contents.Spelled)
    (hhead : file.headAt .extents index = some head)
    (hoffset : sect'.head.fileOffset = head.fileOffset)
    (hconfined : Storage.Confined head.fileOffset (head.fileOffset + 8192)
      file.storage sect'.file)
    (hlayout : Layout sect' items) :
    (file.putSect .extents index sect').Holds
      (contents.setExt index items).Spelled := by
  apply h.putSect contents.local_spelled hhead hoffset hconfined
  · change Layout sect' ((contents.setExt index items).exts index)
    rw [Contents.exts_setExt_self]
    exact hlayout
  · intro kind' index' sect hne hsect
    exact Contents.spelled_setExt_of_ne hne hsect

theorem Holds.stores_insert (h : file.Holds contents.Spelled)
    (hhead : file.headAt .extents index = some head)
    (hoffset : sect'.head.fileOffset = head.fileOffset)
    (hsoff : soff < 8192) :
    (file.putSect .extents index sect').Stores
        (contents.setExt index ((contents.exts index).insert soff new))
        foff item ↔
      (foff = head.fileOffset + soff ∧ item = new) ∨
        (foff ≠ head.fileOffset + soff ∧ file.Stores contents foff item) := by
  constructor
  · rintro ⟨index', head', soff', hhead', hitem, rfl⟩
    by_cases hindex : index' = index
    · subst hindex
      rw [headAt_putSect_self hhead, Option.some.injEq] at hhead'
      subst hhead'
      rw [Contents.exts_setExt_self, Items.insert_eq_some] at hitem
      rw [hoffset]
      rcases hitem with ⟨rfl, rfl⟩ | ⟨hne, hold⟩
      · exact Or.inl ⟨rfl, rfl⟩
      · exact Or.inr ⟨by omega, index', head, soff', hhead, hold, rfl⟩
    · have hne : (SectKind.extents, index') ≠ (.extents, index) :=
        fun heq => hindex (congrArg Prod.snd heq)
      rw [headAt_putSect_of_ne hne] at hhead'
      rw [Contents.exts_setExt_of_ne hindex] at hitem
      have hlayout : Layout ⟨head', file.storage⟩ (contents.exts index') :=
        h.sect hhead'
      have hslot := hlayout.border_lt hitem
      have hapart := h.placed.apart hhead' hhead hne
      exact Or.inr ⟨by omega, index', head', soff', hhead', hitem, rfl⟩
  · rintro (⟨rfl, rfl⟩ | ⟨hne, index', head', soff', hhead', hitem, rfl⟩)
    · refine ⟨index, sect'.head, soff, headAt_putSect_self hhead, ?_,
        by rw [hoffset]⟩
      rw [Contents.exts_setExt_self, Items.insert_self]
    · by_cases hindex : index' = index
      · subst hindex
        rw [hhead, Option.some.injEq] at hhead'
        subst hhead'
        refine ⟨index', sect'.head, soff', headAt_putSect_self hhead, ?_,
          by rw [hoffset]⟩
        rw [Contents.exts_setExt_self, Items.insert_of_ne (by omega)]
        exact hitem
      · refine ⟨index', head', soff', ?_, ?_, rfl⟩
        · rw [headAt_putSect_of_ne
            (fun heq => hindex (congrArg Prod.snd heq))]
          exact hhead'
        · rw [Contents.exts_setExt_of_ne hindex]
          exact hitem

theorem putSect_heads (hhead : file.headAt .extents index = some head)
    (hoffset : sect'.head.fileOffset = head.fileOffset) {index' : ℕ}
    {head' : SectHead} (hhead' : file.headAt .extents index' = some head') :
    ∃ head'', (file.putSect .extents index sect').headAt .extents index' =
        some head'' ∧ head''.fileOffset = head'.fileOffset := by
  by_cases hindex : index' = index
  · subst hindex
    rw [hhead, Option.some.injEq] at hhead'
    subst hhead'
    exact ⟨sect'.head, headAt_putSect_self hhead, hoffset⟩
  · refine ⟨head', ?_, rfl⟩
    rw [headAt_putSect_of_ne (fun heq => hindex (congrArg Prod.snd heq))]
    exact hhead'

theorem Holds.grows_insert (h : file.Holds contents.Spelled)
    (hhead : file.headAt .extents index = some head)
    (hfree : contents.exts index soff = none)
    (hoffset : sect'.head.fileOffset = head.fileOffset)
    (hconfined : Storage.Confined head.fileOffset (head.fileOffset + 8192)
      file.storage sect'.file)
    (hlayout : Layout sect' ((contents.exts index).insert soff new)) :
    file.Grows contents (file.putSect .extents index sect')
      (contents.setExt index ((contents.exts index).insert soff new)) := by
  have hslot := hlayout.border_lt (Items.insert_self _ _ _)
  refine ⟨h.setExt hhead hoffset hconfined hlayout, rfl,
    sects_putSect_of_ne (by decide), putSect_heads hhead hoffset, ?_⟩
  intro foff item hstores
  rw [h.stores_insert hhead hoffset (by omega)]
  refine Or.inr ⟨?_, hstores⟩
  rintro rfl
  have hat := h.stores_at hstores hhead (by omega) (by omega)
  rw [Nat.add_sub_cancel_left, hfree] at hat
  cases hat

end Insert

/-! ## One section more -/

section Extend

variable {file : File} {contents : Contents} {foff : ℕ} {item : Item}

theorem Holds.extended_ext (h : file.Holds contents.Spelled) :
    (file.extended .extents).Holds
      (contents.setExt (file.sects .extents).length
        (fun _ => none)).Spelled := by
  apply h.extended contents.local_spelled (Contents.local_spelled _)
  · change Layout _ ((contents.setExt (file.sects .extents).length
      (fun _ => none)).exts (file.sects .extents).length)
    rw [Contents.exts_setExt_self]
    exact Sect.fresh_layout _ _
  · intro kind' index' sect hne hsect
    exact Contents.spelled_setExt_of_ne hne hsect

theorem stores_extended :
    (file.extended .extents).Stores (contents.setExt
        (file.sects .extents).length (fun _ => none)) foff item ↔
      file.Stores contents foff item := by
  constructor
  · rintro ⟨index, head, soff, hhead, hitem, rfl⟩
    rcases headAt_extended_cases hhead with ⟨heq, -⟩ | ⟨hne, hold⟩
    · rw [Prod.mk.injEq] at heq
      rw [heq.2, Contents.exts_setExt_self] at hitem
      cases hitem
    · rw [Contents.exts_setExt_of_ne
        (fun heq => hne (by rw [heq]))] at hitem
      exact ⟨index, head, soff, hold, hitem, rfl⟩
  · rintro ⟨index, head, soff, hhead, hitem, rfl⟩
    obtain ⟨hlt, -⟩ := List.getElem?_eq_some_iff.mp hhead
    refine ⟨index, head, soff, ?_, ?_, rfl⟩
    · rw [headAt, sects_extended_self, List.getElem?_append_left hlt]
      exact hhead
    · rw [Contents.exts_setExt_of_ne (Nat.ne_of_lt hlt)]
      exact hitem

theorem Holds.grows_extended (h : file.Holds contents.Spelled) :
    file.Grows contents (file.extended .extents)
      (contents.setExt (file.sects .extents).length (fun _ => none)) where
  holds := h.extended_ext
  cats := rfl
  types := sects_extended_of_ne file (by decide)
  heads := by
    intro index head hhead
    obtain ⟨hlt, -⟩ := List.getElem?_eq_some_iff.mp hhead
    refine ⟨head, ?_, rfl⟩
    rw [headAt, sects_extended_self, List.getElem?_append_left hlt]
    exact hhead
  stores := fun hstores => stores_extended.mpr hstores

end Extend

/-! ## One node -/

section Node

variable {file : File} {contents : Contents} {key : Str} {val : List Byte}
  {entity : Entity}

theorem Quiet.grows {file' : File} (h : file.Quiet file')
    (hholds : file.Holds contents.Spelled) :
    file.Grows contents file' contents :=
  (h.holds hholds contents.local_spelled).grows_of_sects h.sects

theorem Quiet.stores_iff {file' : File} (h : file.Quiet file') {foff : ℕ}
    {item : Item} : file'.Stores contents foff item ↔
      file.Stores contents foff item :=
  ⟨fun hstores => hstores.congr (h.sects .extents).symm,
    fun hstores => hstores.congr (h.sects .extents)⟩

theorem Holds.takenWhere (h : file.Holds contents.Spelled)
    (hkey : entity.keySize = key.cnt) (hval : entity.valSize = val.length) :
    file.TakenWhere .extents (sectExtWrite key val entity)
      (file.HasFree .extents (80 + key.cnt + val.length)) := by
  refine takenWhere_hasFree (fun hlt => sectExtWrite_refused hlt) ?_
  intro index head storage hhead hcell hsize hge
  have hlayout : Layout ⟨head, storage⟩ (contents.exts index) :=
    contents.local_spelled.frame (h.sect hhead)
      (fun _ _ => congrFun hcell _) hsize.ge
  obtain ⟨item, sect', hwrite, -⟩ := hlayout.write entity hkey hval hge
  exact ⟨_, sect', hwrite⟩

structure NodePut (file : File) (contents : Contents) (key : Str)
    (val : List Byte) (entity : Entity) (file' : File)
    (contents' : Contents) (index : ℕ) (head : SectHead) (soff : ℕ)
    (item : Item) : Prop where
  grows : file.Grows contents file' contents'
  head_eq : file'.headAt .extents index = some head
  item_eq : contents'.exts index soff = some item
  entity_eq : item.entity = { entity with
    keyPtr := item.entity.keyPtr, valPtr := item.entity.valPtr }
  record_eq : item.record = val ++ key.val
  fresh : ∀ item', ¬ file.Stores contents (head.fileOffset + soff) item'
  only : ∀ {foff item'}, file'.Stores contents' foff item' →
    foff = head.fileOffset + soff ∨ file.Stores contents foff item'

theorem Holds.putNode {index : ℕ} {head : SectHead} {value : ℕ × Entity}
    {sect' : Sect} (h : file.Holds contents.Spelled)
    (hkey : entity.keySize = key.cnt) (hval : entity.valSize = val.length)
    (hhead : file.headAt .extents index = some head)
    (hroom : 80 + key.cnt + val.length ≤ head.freeSpace)
    (hcall : sectExtWrite key val entity ⟨head, file.storage⟩ =
      .ok value sect') :
    ∃ item contents',
      value = (head.lstItmPtr, item.entity) ∧
      file.NodePut contents key val entity
        (file.putSect .extents index sect') contents' index sect'.head
        head.lstItmPtr item := by
  have hlayout : Layout ⟨head, file.storage⟩ (contents.exts index) :=
    h.sect hhead
  obtain ⟨item, sect'', hwrite, hentity, hrecord, hlayout', hwithin,
    hhead'⟩ := hlayout.write entity hkey hval hroom
  rw [hcall] at hwrite
  injection hwrite with hvalue hsect
  subst hsect
  have hoffset : sect'.head.fileOffset = head.fileOffset := by
    rw [hhead', SectHead.raise, SectHead.lower, SectHead.lower]
  have hfree : contents.exts index head.lstItmPtr = none := by
    by_contra hne
    obtain ⟨old, hold⟩ := Option.ne_none_iff_exists'.mp hne
    have hslot := hlayout.slot hold
    simp only at hslot
    omega
  have hslot := hlayout'.border_lt (Items.insert_self _ _ _)
  simp only at hslot
  refine ⟨item, _, hvalue, h.grows_insert hhead hfree hoffset
      (hwithin True).confined hlayout', headAt_putSect_self hhead, ?_, ?_,
      hrecord, ?_, ?_⟩
  · rw [Contents.exts_setExt_self, Items.insert_self]
  · rw [hentity]
    rfl
  · intro item' hstores
    have hat := h.stores_at hstores hhead (by omega) (by omega)
    rw [hoffset, Nat.add_sub_cancel_left, hfree] at hat
    cases hat
  · intro foff item' hstores
    rw [h.stores_insert hhead hoffset (by omega)] at hstores
    rw [hoffset]
    exact hstores.imp And.left And.right

theorem Holds.fit_node (h : file.Holds contents.Spelled)
    (hkey : entity.keySize = key.cnt) (hval : entity.valSize = val.length) :
    (80 + key.cnt + val.length ≤ 8160 ∧
      ∃ file' contents' index head soff item,
        fileFit .extents fileAddSectExt (sectExtWrite key val entity) file =
          .ok (index, soff, item.entity) file' ∧
        file.NodePut contents key val entity file' contents' index head soff
          item) ∨
    (8160 < 80 + key.cnt + val.length ∧ ∃ file' contents',
      fileFit .extents fileAddSectExt (sectExtWrite key val entity) file =
        .failed file' ∧ file.Grows contents file' contents' ∧
      ∀ {foff item}, file'.Stores contents' foff item →
        file.Stores contents foff item) := by
  rcases fileFit_spec (h.takenWhere hkey hval) with
    ⟨file₁, index, head, value, sect', hfit, hquiet, hhead, htakes, hcall⟩ |
    ⟨file₁, hquiet, -, hfit⟩
  · left
    have hholds := hquiet.holds h contents.local_spelled
    have hlayout : Layout ⟨head, file₁.storage⟩ (contents.exts index) :=
      hholds.sect hhead
    have hroom := htakes head
      (by rw [← headAt_congr (hquiet.sects _), hhead])
    have hlip := hlayout.lip_ge
    have hfrp := hlayout.frp_le
    have hfree := hlayout.free
    simp only at hlip hfrp hfree
    obtain ⟨item, contents', rfl, hput⟩ :=
      hholds.putNode hkey hval hhead hroom hcall
    refine ⟨by omega, _, contents', index, sect'.head, _, item, hfit,
      (hquiet.grows h).trans hput.grows, hput.head_eq, hput.item_eq,
      hput.entity_eq, hput.record_eq, ?_, ?_⟩
    · intro item' hstores
      exact hput.fresh item' (hquiet.stores_iff.mpr hstores)
    · intro foff item' hstores
      exact (hput.only hstores).imp id hquiet.stores_iff.mp
  · have hholds := hquiet.holds h contents.local_spelled
    have hgrows := (hquiet.grows h).trans hholds.grows_extended
    obtain ⟨index, hindex⟩ : ∃ index, index = (file.sects .extents).length :=
      ⟨_, rfl⟩
    have hlength : (file₁.sects .extents).length = index := by
      rw [hquiet.sects, hindex]
    have hnew : (file₁.extended .extents).headAt .extents index = some
        (Sect.fresh file₁.lstSectPtr file₁.storage).head := by
      rw [← hlength]
      exact headAt_extended_new
    have hfreeSpace : (Sect.fresh file₁.lstSectPtr
      file₁.storage).head.freeSpace = 8160 := rfl
    rw [← hindex] at hfit
    rcases Nat.lt_or_ge 8160 (80 + key.cnt + val.length) with hlt | hge
    · right
      have hsynced : (file₁.extended .extents).Quiet _ :=
        Quiet.putSect hnew ⟨rfl, rfl, rfl⟩
      refine ⟨hlt, _, _, ?_, hgrows.trans (hsynced.grows hgrows.holds),
        fun hstores => ?_⟩
      · refine hfit.trans (Prog.bind_of_failed (onSect_of_failed hnew ?_))
        exact sectExtWrite_refused (by rw [hfreeSpace]; exact hlt)
      · exact hquiet.stores_iff.mp
          (stores_extended.mp (hsynced.stores_iff.mp hstores))
    · left
      have hlayout : Layout ⟨_, (file₁.extended .extents).storage⟩ _ :=
        hgrows.holds.sect hnew
      obtain ⟨item₀, sect', hwrite, -⟩ := hlayout.write entity hkey hval
        (by rw [hfreeSpace]; exact hge)
      obtain ⟨item, contents', hvalue, hput⟩ :=
        hgrows.holds.putNode hkey hval hnew
          (by rw [hfreeSpace]; exact hge) hwrite
      refine ⟨hge, _, contents', index, sect'.head, _, item, ?_,
        hgrows.trans hput.grows, hput.head_eq, hput.item_eq,
        hput.entity_eq, hput.record_eq, ?_, ?_⟩
      · rw [hvalue] at hwrite
        exact hfit.trans (Prog.bind_of_ok (onSect_of_ok hnew hwrite))
      · intro item' hstores
        exact hput.fresh item' (hgrows.stores hstores)
      · intro foff item' hstores
        refine (hput.only hstores).imp id (fun hold => ?_)
        exact hquiet.stores_iff.mp (stores_extended.mp hold)

end Node

end File

/-! ## Trees -/

/-- Each node fits into an empty section. -/
def Json.Fits (json : Json) : Prop :=
  ∀ node ∈ json.nodes, sizeofEntity + node.1.cnt + jsonValSize node.2 ≤
    SECTION_SIZE - sizeofSectHeadEntity

instance (json : Json) : Decidable json.Fits :=
  inferInstanceAs (Decidable (∀ node ∈ json.nodes, _))

theorem Json.fits_node {key : Str} {value : JsonValue} {bro son : Json} :
    (Json.node key value bro son).Fits ↔
      80 + key.cnt + jsonValSize value ≤ 8160 ∧ bro.Fits ∧ son.Fits := by
  simp only [Fits, nodes, List.forall_mem_cons, List.forall_mem_append]
  rfl

/-- The item with the links that are known once brothers and sons are
written. -/
def Item.link (item : Item) (bro son : ℕ) : Item :=
  { item with
    entity := { item.entity with
      famAddr := { item.entity.famAddr with broPtr := bro, sonPtr := son } } }

theorem fileHeadSync_eq (file : File) : fileHeadSync file = .ok ()
    { file with
      storage := file.storage.write 0 (wordBytes file.lstSectPtr) } := rfl

namespace File

section Tree

variable {file : File} {contents : Contents}

theorem Holds.grows_synced (h : file.Holds contents.Spelled) :
    file.Grows contents { file with
      storage := file.storage.write 0 (wordBytes file.lstSectPtr) }
      contents :=
  (h.putHeader contents.local_spelled _ (length_wordBytes _)).grows_of_sects
    (sects_with_storage _ _)

theorem Holds.relink {index soff : ℕ} {head : SectHead} {item : Item}
    (h : file.Holds contents.Spelled)
    (hhead : file.headAt .extents index = some head)
    (hitem : contents.exts index soff = some item) (bro son : ℕ) :
    ∃ file' contents',
      (onSect .extents index
        (sectExtWrtItm soff (item.link bro son).entity)).status file =
          .ok (some ()) file' ∧
      file'.Holds contents'.Spelled ∧ contents'.cats = contents.cats ∧
      file'.sects .types = file.sects .types ∧
      (∀ {index' head'}, file.headAt .extents index' = some head' →
        ∃ head'', file'.headAt .extents index' = some head'' ∧
          head''.fileOffset = head'.fileOffset) ∧
      ∀ {foff item'}, file'.Stores contents' foff item' ↔
        (foff = head.fileOffset + soff ∧ item' = item.link bro son) ∨
          (foff ≠ head.fileOffset + soff ∧
            file.Stores contents foff item') := by
  have hlayout : Layout ⟨head, file.storage⟩ (contents.exts index) :=
    h.sect hhead
  have hslot := hlayout.border_lt hitem
  have hslot' := hlayout.slot hitem
  have hlength : (item.link bro son).entity.bytes.length = 80 :=
    Entity.length_bytes _
  obtain ⟨sect', hsect'⟩ : ∃ sect' : Sect, sect' =
      Sect.putAt ⟨head, file.storage⟩ soff (item.link bro son).entity.bytes :=
    ⟨_, rfl⟩
  have hcall : sectExtWrtItm soff (item.link bro son).entity
      ⟨head, file.storage⟩ = .ok () sect' := by
    rw [hsect']
    exact sectHeadWrite_of_lt _ (by omega)
  have hheadSect : sect'.head = head := by
    rw [hsect', Sect.putAt_head]
  have hfile : sect'.file = file.storage.put (head.fileOffset + soff)
      (item.link bro son).entity.bytes := by
    rw [hsect', Sect.putAt_file]
  have hlayout' : Layout sect'
      ((contents.exts index).insert soff (item.link bro son)) := by
    refine hlayout.replace hitem rfl rfl hheadSect ?_ ?_ ?_
    · rw [hfile, ← hlength, Storage.bytes_put_same]
    · intro position _ _ hside
      rw [hfile]
      exact Storage.cell_put_of_out (by simp only; omega)
    · rw [hfile]
      exact Storage.size_le_put _ _ _
  have hconfined : Storage.Confined head.fileOffset
      (head.fileOffset + 8192) file.storage sect'.file := by
    rw [hfile]
    exact .put (by omega) (by omega)
  have hoffset : sect'.head.fileOffset = head.fileOffset := by
    rw [hheadSect]
  exact ⟨_, _, Prog.status_of_ok (onSect_of_ok hhead hcall),
    h.setExt hhead hoffset hconfined hlayout', rfl,
    sects_putSect_of_ne (by decide), putSect_heads hhead hoffset,
    h.stores_insert hhead hoffset (by omega)⟩

/-- What is left of the write of a node once it has its slot. -/
def writeRelatives (bro son : Json) (dadFileoff : ℕ)
    (found : ℕ × ℕ × Entity) (wrtFoff : ℕ) : Prog File ℕ := do
  let broOffset ←
    (if bro.isNull then pure 0 else fileWrite bro dadFileoff 0)
  let sonOffset ←
    (if son.isNull then pure 0 else fileWrite son wrtFoff 0)
  let entity : Entity := { found.2.2 with
    famAddr := { found.2.2.famAddr with
      broPtr := broOffset
      sonPtr := sonOffset } }
  let _ ← (onSect .extents found.1 (sectExtWrtItm found.2.1 entity)).status
  fileHeadSync
  return wrtFoff

/-- The node has its slot, and nothing else was stored. -/
structure NodePlaced (file : File) (contents : Contents) (key : Str)
    (value : JsonValue) (dad typePtr : ℕ) (file₁ : File)
    (contents₁ : Contents) (index soff foff : ℕ) (item : Item) : Prop where
  fits : 80 + key.cnt + jsonValSize value ≤ 8160
  grows : file.Grows contents file₁ contents₁
  fresh : ∀ item', ¬ file.Stores contents foff item'
  only : ∀ {foff' item'}, file₁.Stores contents₁ foff' item' →
    foff' = foff ∨ file.Stores contents foff' item'
  spells : item.Spells key value
  entity_eq : item.entity = { entityInit key value dad 0 0 typePtr with
    keyPtr := item.entity.keyPtr, valPtr := item.entity.valPtr }
  place : ∃ head, file₁.headAt .extents index = some head ∧
    contents₁.exts index soff = some item ∧ foff = head.fileOffset + soff
  call_eq : (do
      let found ← fileFit .extents fileAddSectExt
        (sectExtWrite key (jsonValPtr value)
          (entityInit key value dad 0 0 typePtr))
      let wrtFoff ← fileSectFileoff .extents found.1 found.2.1
      return (found, wrtFoff) : Prog File _) file =
        .ok ((index, soff, item.entity), foff) file₁

theorem Holds.place_node {key : Str} {value : JsonValue} {dad typePtr : ℕ}
    (h : file.Holds contents.Spelled) :
    (∃ file₁ contents₁ index soff foff item,
      file.NodePlaced contents key value dad typePtr file₁ contents₁ index soff
        foff item) ∨
    (8160 < 80 + key.cnt + jsonValSize value ∧ ∃ file' contents',
      (do
        let found ← fileFit .extents fileAddSectExt
          (sectExtWrite key (jsonValPtr value)
            (entityInit key value dad 0 0 typePtr))
        let wrtFoff ← fileSectFileoff .extents found.1 found.2.1
        return (found, wrtFoff) : Prog File _) file = .failed file' ∧
      file.Grows contents file' contents' ∧
      ∀ {foff item}, file'.Stores contents' foff item →
        file.Stores contents foff item) := by
  have hval : (entityInit key value dad 0 0 typePtr).valSize =
    (jsonValPtr value).length := (length_jsonValPtr value).symm
  rcases @Holds.fit_node file contents key (jsonValPtr value)
      (entityInit key value dad 0 0 typePtr) h rfl hval with
    ⟨hroom, file₁, contents₁, index, head, soff, item, hfit, hput⟩ |
    ⟨hroom, file', contents', hfit, hgrows, hstores⟩
  · left
    have hlayout : Layout ⟨head, file₁.storage⟩ (contents₁.exts index) :=
      hput.grows.holds.sect hput.head_eq
    have hslot := hlayout.border_lt hput.item_eq
    rw [length_jsonValPtr] at hroom
    refine ⟨file₁, contents₁, index, soff, head.fileOffset + soff, item,
      hroom, hput.grows, hput.fresh, hput.only, ⟨hput.record_eq,
        congrArg Entity.keySize hput.entity_eq,
        congrArg Entity.valSize hput.entity_eq,
        congrArg Entity.type hput.entity_eq⟩, hput.entity_eq,
      ⟨head, hput.head_eq, hput.item_eq, rfl⟩, ?_⟩
    have hsoff : soff < 2 ^ 63 := by omega
    rw [Prog.bind_of_ok hfit, Prog.bind_of_ok
      (fileSectFileoff_eq hput.head_eq hsoff), Prog.pure_apply]
  · right
    rw [length_jsonValPtr] at hroom
    exact ⟨hroom, file', contents', Prog.bind_of_failed hfit, hgrows,
      hstores⟩

section PlaceNode

variable {key : Str} {value : JsonValue} {bro son : Json}
  {dad typePtr index soff foff : ℕ} {item : Item}
  {file₁ file₂ file₃ : File} {contents₁ contents₂ contents₃ : Contents}

theorem NodePlaced.stores
    (h : file.NodePlaced contents key value dad typePtr file₁ contents₁ index
      soff foff item) : file₁.Stores contents₁ foff item := by
  obtain ⟨head, hhead, hitem, hfoff⟩ := h.place
  exact ⟨index, head, soff, hhead, hitem, hfoff⟩

theorem fileWrite_nodePlaced
    (h : file.NodePlaced contents key value dad typePtr file₁ contents₁ index
      soff foff item) :
    fileWrite (.node key value bro son) dad typePtr file =
      writeRelatives bro son dad (index, soff, item.entity) foff file₁ := by
  obtain ⟨found, file', hfit, hrest⟩ := Prog.bind_eq_ok h.call_eq
  obtain ⟨wrtFoff, file'', hfileoff, hpure⟩ := Prog.bind_eq_ok hrest
  rw [Prog.pure_apply] at hpure
  injection hpure with hvalue hfile
  injection hvalue with hfound hfoff
  rw [fileWrite, Prog.bind_of_ok hfit, Prog.bind_of_ok hfileoff, hfound,
    hfoff, hfile]
  rfl

theorem fileWrite_refused {file' : File}
    (h : (do
      let found ← fileFit .extents fileAddSectExt
        (sectExtWrite key (jsonValPtr value)
          (entityInit key value dad 0 0 typePtr))
      let wrtFoff ← fileSectFileoff .extents found.1 found.2.1
      return (found, wrtFoff) : Prog File _) file = .failed file') :
    fileWrite (.node key value bro son) dad typePtr file =
      .failed file' := by
  rw [fileWrite]
  rcases Prog.bind_eq_failed h with hfit | ⟨found, file₁, hfit, hrest⟩
  · exact Prog.bind_of_failed hfit
  · rw [Prog.bind_of_ok hfit]
    rcases Prog.bind_eq_failed hrest with hfileoff |
      ⟨wrtFoff, file₂, -, hpure⟩
    · exact Prog.bind_of_failed hfileoff
    · cases hpure

theorem NodePlaced.link {broPtr sonPtr : ℕ}
    (h : file.NodePlaced contents key value dad typePtr file₁ contents₁ index
      soff foff item)
    (hgrows₂ : file₁.Grows contents₁ file₂ contents₂)
    (hgrows₃ : file₂.Grows contents₂ file₃ contents₃)
    (hbro : (if bro.isNull then pure 0 else fileWrite bro dad 0 :
      Prog File ℕ) file₁ = .ok broPtr file₂)
    (hson : (if son.isNull then pure 0 else fileWrite son foff 0 :
      Prog File ℕ) file₂ = .ok sonPtr file₃) :
    ∃ file₄ contents₄,
      fileWrite (.node key value bro son) dad typePtr file =
        .ok foff file₄ ∧
      file.Grows contents file₄ contents₄ ∧
      ∀ {foff' item'}, file₄.Stores contents₄ foff' item' ↔
        (foff' = foff ∧ item' = item.link broPtr sonPtr) ∨
          (foff' ≠ foff ∧ file₃.Stores contents₃ foff' item') := by
  obtain ⟨head, hhead, hitem, hfoff⟩ := h.place
  obtain ⟨head₂, hhead₂, hoffset₂⟩ := hgrows₂.heads hhead
  obtain ⟨head₃, hhead₃, hoffset₃⟩ := hgrows₃.heads hhead₂
  have hoffset : head₃.fileOffset = head.fileOffset :=
    hoffset₃.trans hoffset₂
  have hstores₃ := hgrows₃.stores (hgrows₂.stores h.stores)
  have hlayout : Layout ⟨head, file₁.storage⟩ (contents₁.exts index) :=
    h.grows.holds.sect hhead
  have hslot := hlayout.border_lt hitem
  have hitem₃ := hgrows₃.holds.stores_at hstores₃ hhead₃ (by omega)
    (by omega)
  rw [hoffset, hfoff, Nat.add_sub_cancel_left] at hitem₃
  obtain ⟨file₄, contents₄, hlink, hholds₄, hcats₄, htypes₄, hheads₄,
    hstores₄⟩ := hgrows₃.holds.relink hhead₃ hitem₃ broPtr sonPtr
  rw [hoffset, ← hfoff] at hstores₄
  have hsynced := hholds₄.grows_synced
  have hgrows := (h.grows.trans hgrows₂).trans hgrows₃
  refine ⟨_, contents₄, ?_, Grows.trans ⟨hholds₄, hcats₄.trans hgrows.cats,
    htypes₄.trans hgrows.types, fun hhead => ?_,
    fun {foff' item'} hstores => ?_⟩ hsynced, ?_⟩
  · rw [fileWrite_nodePlaced h, writeRelatives, Prog.bind_of_ok hbro,
      Prog.bind_of_ok hson]
    exact (Prog.bind_of_ok hlink).trans
      (Prog.bind_of_ok (fileHeadSync_eq file₄))
  · obtain ⟨head', hhead', hoff⟩ := hgrows.heads hhead
    obtain ⟨head'', hhead'', hoff'⟩ := hheads₄ hhead'
    exact ⟨head'', hhead'', hoff'.trans hoff⟩
  · refine hstores₄.mpr (Or.inr ⟨?_, hgrows.stores hstores⟩)
    rintro rfl
    exact h.fresh _ hstores
  · intro foff' item'
    exact hstores₄

end PlaceNode

/-- What a write of a tree comes to, null standing for no tree. -/
def Wrote (file : File) (contents : Contents) (json : Json)
    (dad typePtr : ℕ) (outcome : Outcome File ℕ) : Prop :=
  (json.Fits ∧ ∃ foff file' contents', outcome = .ok foff file' ∧
    file.Grows contents file' contents' ∧
    json.Stored (Heap.added (file.Stores contents) (file'.Stores contents'))
      dad typePtr foff) ∨
  (¬ json.Fits ∧ ∃ file' contents', outcome = .failed file' ∧
    file.Grows contents file' contents')

theorem Holds.write_link {json : Json} (h : file.Holds contents.Spelled)
    (dad typePtr : ℕ) :
    file.Wrote contents json dad typePtr
      ((if json.isNull then pure 0 else fileWrite json dad typePtr :
        Prog File ℕ) file) := by
  induction json generalizing file contents dad typePtr with
  | null =>
      exact Or.inl ⟨fun node hmem => absurd hmem List.not_mem_nil, 0, file,
        contents, rfl, .refl h, rfl⟩
  | node key value bro son ihBro ihSon =>
      rw [Json.isNull, if_neg Bool.false_ne_true]
      rcases @Holds.place_node file contents key value dad typePtr h with
        ⟨file₁, contents₁, index, soff, foff, item, hnodePlaced⟩ |
        ⟨hroom, file', contents', hrefused, hgrows, -⟩
      · rcases ihBro hnodePlaced.grows.holds dad 0 with
          ⟨hfitsBro, broPtr, file₂, contents₂, hbro, hgrows₂, hstoredBro⟩ |
          ⟨hnot, file₂, contents₂, hbro, hgrows₂⟩
        · rcases ihSon hgrows₂.holds foff 0 with
            ⟨hfitsSon, sonPtr, file₃, contents₃, hson, hgrows₃,
              hstoredSon⟩ | ⟨hnot, file₃, contents₃, hson, hgrows₃⟩
          · left
            obtain ⟨file₄, contents₄, hwrite, hgrows₄, hstores₄⟩ :=
              hnodePlaced.link hgrows₂ hgrows₃ hbro hson
            -- Brothers and sons lie in slots that were free when the node
            -- had its own.
            have hadded : ∀ {file' file'' contents' contents''},
                file.Grows contents file' contents' →
                file'.Stores contents' foff item →
                File.Grows file'' contents'' file₃ contents₃ →
                ∀ foff' item', Heap.added (file'.Stores contents')
                    (file''.Stores contents'') foff' item' →
                  Heap.added (file.Stores contents)
                    (file₄.Stores contents₄) foff' item' := by
              intro file' file'' contents' contents'' hold hself hnew foff'
                item' hitem'
              refine ⟨hstores₄.mpr (Or.inr ⟨?_, hnew.stores hitem'.1⟩),
                fun item'' hstores => hitem'.2 item'' (hold.stores hstores)⟩
              rintro rfl
              exact hitem'.2 item hself
            refine ⟨Json.fits_node.mpr ⟨hnodePlaced.fits, hfitsBro, hfitsSon⟩,
              foff, file₄, contents₄, hwrite, hgrows₄,
              hnodePlaced.grows.holds.stores_ne_zero hnodePlaced.stores,
              item.link broPtr sonPtr,
              ⟨hstores₄.mpr (Or.inl ⟨rfl, rfl⟩), hnodePlaced.fresh⟩,
              hnodePlaced.spells,
              congrArg (fun entity => entity.famAddr.dadPtr)
                hnodePlaced.entity_eq,
              congrArg Entity.typePtr hnodePlaced.entity_eq,
              hstoredBro.mono ?_, hstoredSon.mono ?_⟩
            · exact hadded hnodePlaced.grows hnodePlaced.stores hgrows₃
            · exact hadded (hnodePlaced.grows.trans hgrows₂)
                (hgrows₂.stores hnodePlaced.stores) (.refl hgrows₃.holds)
          · right
            refine ⟨fun hfits => hnot (Json.fits_node.mp hfits).2.2, file₃,
              contents₃, ?_, (hnodePlaced.grows.trans hgrows₂).trans hgrows₃⟩
            rw [fileWrite_nodePlaced hnodePlaced, writeRelatives,
              Prog.bind_of_ok hbro]
            exact Prog.bind_of_failed hson
        · right
          refine ⟨fun hfits => hnot (Json.fits_node.mp hfits).2.1, file₂,
            contents₂, ?_, hnodePlaced.grows.trans hgrows₂⟩
          rw [fileWrite_nodePlaced hnodePlaced]
          exact Prog.bind_of_failed hbro
      · right
        refine ⟨fun hfits => ?_, file', contents',
          fileWrite_refused hrefused, hgrows⟩
        have hnode := (Json.fits_node.mp hfits).1
        omega

end Tree

end File

end NosqlDbms
