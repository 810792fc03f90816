import NosqlDbms.Pointers
import NosqlDbms.Sons
import Mathlib

/-!
# Deletions of sons

Runs of commands that insert documents, read them and delete whole ones and
first sons.  The pointers stay a forest, and a document that loses the first
son of one of its nodes reads as what it was without that son.  A deletion of
any other son cuts the brothers before it off from their dad.
-/

namespace NosqlDbms

namespace File

variable {file : File} {contents : Contents} {foff : ℕ} {foffs : List ℕ}
  {item dadItem : Item}

theorem putSect_head {kind : SectKind} {index : ℕ} {head : SectHead}
    (hhead : file.headAt kind index = some head) (storage : Storage) :
    file.putSect kind index ⟨head, storage⟩ =
      { file with storage := storage } := by
  obtain ⟨hlt, hget⟩ := List.getElem?_eq_some_iff.mp hhead
  rw [putSect, ← hget, List.set_getElem_self]
  cases kind <;> rfl

/-- The eight bytes of the pointer to the son, written in place. -/
def withSonPtr (file : File) (dad son : ℕ) : File :=
  { file with
    storage := file.storage.write (dad + offsetofSonPtr) (wordBytes son) }

theorem Holds.write_son {dad : ℕ} (h : file.Holds contents.Spelled)
    (hdad : file.Stores contents dad dadItem) (son : ℕ) :
    ∃ contents',
      (file.withSonPtr dad son).Holds contents'.Spelled ∧
      contents'.cats = contents.cats ∧
      ∀ {foff item}, (file.withSonPtr dad son).Stores contents' foff item ↔
        (foff = dad ∧
          item = dadItem.link dadItem.entity.famAddr.broPtr son) ∨
        (foff ≠ dad ∧ file.Stores contents foff item) := by
  obtain ⟨index, head, soff, hhead, hitem, rfl⟩ := hdad
  have hlayout : Layout ⟨head, file.storage⟩ (contents.exts index) :=
    h.sect hhead
  have hslot := hlayout.border_lt hitem
  have hslot' := hlayout.slot hitem
  have hlength : (wordBytes son).length = 8 := length_wordBytes son
  obtain ⟨sect', hsect'⟩ : ∃ sect' : Sect, sect' = ⟨head, file.storage.write
      (head.fileOffset + soff + offsetofSonPtr) (wordBytes son)⟩ := ⟨_, rfl⟩
  have hlayout' : Layout sect' ((contents.exts index).insert soff
      (dadItem.link dadItem.entity.famAddr.broPtr son)) := by
    rw [hsect']
    refine hlayout.replace hitem rfl rfl rfl ?_ ?_ ?_
    · have hbytes := hlayout.entity hitem
      simp only at hbytes ⊢
      rw [Storage.bytes_write_slice (by rw [hlength]; decide), hbytes,
        hlength, Entity.splice_sonPtr]
      rfl
    · intro position _ _ hside
      refine Storage.cell_write_of_out ?_
      rw [hlength]
      simp only [offsetofSonPtr]
      omega
    · exact Storage.size_le_write _ _ _
  have hconfined : Storage.Confined head.fileOffset
      (head.fileOffset + 8192) file.storage sect'.file := by
    rw [hsect']
    refine Storage.Confined.write ?_ ?_ <;>
      simp only [hlength, offsetofSonPtr] <;> omega
  have hoffset : sect'.head.fileOffset = head.fileOffset := by
    rw [hsect']
  have hfile : file.putSect .extents index sect' =
      file.withSonPtr (head.fileOffset + soff) son := by
    rw [hsect', putSect_head hhead, withSonPtr]
  refine ⟨contents.setExt index ((contents.exts index).insert soff
    (dadItem.link dadItem.entity.famAddr.broPtr son)), ?_, rfl, ?_⟩
  · rw [← hfile]
    exact h.setExt hhead hoffset hconfined hlayout'
  · intro foff item
    rw [← hfile]
    exact h.stores_insert hhead hoffset (by omega)

/-- What is left once an entity with a dad is deleted. -/
structure Detaches (file : File) (contents : Contents) (dadItem item : Item)
    (gone : List ℕ) (file' : File) (contents' : Contents) : Prop where
  holds : file'.Holds contents'.Spelled
  cats : contents'.cats = contents.cats
  types : file'.sects .types = file.sects .types
  stores_iff : ∀ foff item', file'.Stores contents' foff item' ↔
    Heap.Bypassed (file.Stores contents) item.entity.famAddr.dadPtr dadItem
      item gone foff item'

theorem Detaches.catalogued {file' : File} {contents' : Contents}
    {gone : List ℕ}
    (h : file.Detaches contents dadItem item gone file' contents')
    {entry : TypeEntry} (hentry : file.Catalogued contents foff entry) :
    file'.Catalogued contents' foff entry := by
  obtain ⟨index, head, soff, hhead, hmem, hfoff⟩ := hentry
  refine ⟨index, head, soff, ?_, ?_, hfoff⟩
  · rw [headAt_congr h.types, hhead]
  · rw [h.cats]
    exact hmem

theorem Holds.delete_son {son : Json} {fuel : ℕ}
    (h : file.Holds contents.Spelled)
    (hitem : file.Stores contents foff item)
    (hne : item.entity.famAddr.dadPtr ≠ 0)
    (hdad : file.Stores contents item.entity.famAddr.dadPtr dadItem)
    (hleft : item.entity.famAddr.dadPtr ∉ foff :: foffs)
    (hson : son.Laid (file.Stores contents) foff 0
      item.entity.famAddr.sonPtr foffs)
    (hnodup : (foff :: foffs).Nodup) (hfuel : son.nodes.length < fuel)
    (hsafe : file.SafeWithout contents (foff :: foffs)) :
    ∃ file' contents', fileDelete fuel foff true file = .ok () file' ∧
      file.Detaches contents dadItem item (foff :: foffs) file'
        contents' := by
  obtain ⟨file₂, contents₂, herases, hdelete⟩ :=
    h.delete_below hitem hson hnodup hfuel hsafe
  have hdad₂ := herases.stores_iff.mpr ⟨hleft, hdad⟩
  obtain ⟨contents₃, hholds₃, hcats₃, hstores₃⟩ :=
    herases.holds.write_son hdad₂ item.entity.famAddr.broPtr
  have hsynced := (File.Erases.refl hholds₃).synced
  refine ⟨_, contents₃, ?_, hsynced.holds, hcats₃.trans herases.cats, ?_,
    fun foff' item' => ?_⟩
  · rw [hdelete, if_pos (by simpa using hne)]
    rfl
  · rw [hsynced.types]
    exact herases.types
  · rw [hsynced.stores_iff]
    constructor
    · rintro ⟨-, hstored⟩
      rcases hstores₃.mp hstored with hdad' | ⟨hne', hstored⟩
      · exact Or.inl hdad'
      · exact Or.inr ⟨hne', herases.stores_iff.mp hstored⟩
    · rintro (hdad' | ⟨hne', hstored⟩)
      · exact ⟨List.not_mem_nil, hstores₃.mpr (Or.inl hdad')⟩
      · exact ⟨List.not_mem_nil,
          hstores₃.mpr (Or.inr ⟨hne', herases.stores_iff.mpr hstored⟩)⟩

end File

/-! ## Sons of live entities -/

def File.IsSon (file : File) (live : List ℕ) (foff : ℕ) : Prop :=
  foff ∈ live ∧ (file.entityAt foff).famAddr.dadPtr ≠ 0

/-- One that the pointer of the dad leads to. -/
def File.IsFirstSon (file : File) (live : List ℕ) (foff : ℕ) : Prop :=
  file.IsSon live foff ∧
    (file.entityAt (file.entityAt foff).famAddr.dadPtr).famAddr.sonPtr = foff

def File.follow (file : File) : List Kin → ℕ → ℕ
  | [], foff => foff
  | kin :: path, foff =>
      if foff = 0 then 0
      else file.follow path ((file.entityAt foff).kinPtr kin)

theorem NodeCall.mem_note_delete {file : File} {live : List ℕ}
    {depth foff slot : ℕ} :
    slot ∈ (NodeCall.delete depth foff).note live file ↔
      slot ∈ live ∧ slot ∉ file.nodeFoffs depth true foff := by
  rw [NodeCall.note, List.mem_filter, decide_eq_true_eq]

theorem LiveInv.finite {file : File} {live : List ℕ} {contents : Contents}
    (h : LiveInv file live contents) :
    {slot | Heap.Live (file.Stores contents) slot}.Finite := by
  simp only [h.live]
  exact live.finite_toSet

/-- Live entities, and what nothing leads to are documents. -/
structure SonsInv (file : File) (live : List ℕ) (contents : Contents) :
    Prop where
  inv : LiveInv file live contents
  rootsDadless : Heap.RootsDadless (file.Stores contents)

theorem Heap.RootsDadless.congr {heap heap' : Heap} (h : heap.RootsDadless)
    (hheap : ∀ foff item, heap' foff item ↔ heap foff item) :
    heap'.RootsDadless := by
  have heq : heap' = heap := by
    funext foff item
    exact propext (hheap foff item)
  rw [heq]
  exact h

namespace SonsInv

variable {file file' : File} {live : List ℕ} {contents : Contents}
  {depth foff : ℕ}

/-! ## One deletion -/

theorem exists_subtree (h : SonsInv file live contents) (hmem : foff ∈ live)
    (hdepth : live.length ≤ depth) :
    ∃ (item : Item) (son : Json) (sonFoffs : List ℕ),
      file.Stores contents foff item ∧
      son.Laid (file.Stores contents) foff 0 item.entity.famAddr.sonPtr
        sonFoffs ∧
      file.nodeFoffs depth true foff = foff :: sonFoffs ∧
      son.nodes.length < depth := by
  obtain ⟨item, hitem⟩ := (h.inv.live foff).mpr hmem
  obtain ⟨bro, son, broFoffs, sonFoffs, -, hson, hnodup⟩ :=
    h.inv.sound.relatives hitem
  have hsub : (foff :: sonFoffs).Nodup := hnodup.sublist
    ((List.sublist_append_right broFoffs sonFoffs).cons_cons foff)
  have hlength := h.inv.length_le hsub (fun slot hslot => by
    rcases List.mem_cons.mp hslot with rfl | hslot
    · exact ⟨item, hitem⟩
    · exact hson.live hslot)
  rw [List.length_cons, hson.length_eq] at hlength
  have hroom : son.nodes.length < depth := by omega
  exact ⟨item, son, sonFoffs, hitem, hson,
    h.inv.holds.nodeFoffs_root hitem hson hroom, hroom⟩

theorem delete_unlinked (h : SonsInv file live contents)
    (hroot : file.IsRoot live foff) (hdepth : live.length ≤ depth)
    (hborders : file.BordersKept (file.nodeFoffs depth true foff)) :
    ∃ file' contents', fileDelete depth foff true file = .ok () file' ∧
      SonsInv file' ((NodeCall.delete depth foff).note live file) contents' := by
  obtain ⟨file', contents', hdelete, herases, hinv⟩ :=
    h.inv.delete_unlinked hroot hdepth (hborders.safe h.inv.holds)
  obtain ⟨item, son, sonFoffs, hitem, hson, hgone, -⟩ :=
    h.exists_subtree hroot.1 hdepth
  have hsubtree : Heap.Subtree (file.Stores contents) foff item
      (file.nodeFoffs depth true foff) := ⟨hitem, son, sonFoffs, hson, hgone⟩
  have hdad := hroot.2.1
  rw [h.inv.holds.entityAt hsubtree.atOut] at hdad
  exact ⟨file', contents', hdelete, hinv, hsubtree.rootsDadless h.inv.sound
    h.rootsDadless hdad (fun _ _ => herases.stores_iff)⟩

theorem delete_son (h : SonsInv file live contents)
    (hson : file.IsSon live foff) (hdepth : live.length ≤ depth)
    (hborders : file.BordersKept (file.nodeFoffs depth true foff)) :
    ∃ file' contents' dadItem item,
      fileDelete depth foff true file = .ok () file' ∧
      Heap.Son (file.Stores contents) (file.entityAt foff).famAddr.dadPtr
        dadItem foff item (file.nodeFoffs depth true foff) ∧
      file.Detaches contents dadItem item (file.nodeFoffs depth true foff)
        file' contents' := by
  obtain ⟨item, son, sonFoffs, hitem, hlaid, hgone, hroom⟩ :=
    h.exists_subtree hson.1 hdepth
  have hsubtree : Heap.Subtree (file.Stores contents) foff item
      (file.nodeFoffs depth true foff) := ⟨hitem, son, sonFoffs, hlaid, hgone⟩
  have hne := hson.2
  rw [h.inv.holds.entityAt hitem] at hne ⊢
  obtain ⟨dadItem, hdad⟩ :=
    h.inv.sound.son_of_dad h.rootsDadless h.inv.finite hsubtree hne
  have hnodup := hdad.nodup h.inv.sound
  have hleft := hdad.dad_not_mem h.inv.sound
  have hsafe := hborders.safe h.inv.holds
  rw [hgone] at hnodup hleft hsafe
  obtain ⟨file', contents', hdelete, hdetaches⟩ := h.inv.holds.delete_son
    hitem hne hdad.atDad hleft hlaid hnodup hroom hsafe
  rw [← hgone] at hdetaches
  exact ⟨file', contents', dadItem, item, hdelete, hdad, hdetaches⟩

theorem firstSon (h : SonsInv file live contents)
    (hfirst : file.IsFirstSon live foff) {dadItem item : Item}
    {gone : List ℕ} (hson : Heap.Son (file.Stores contents)
      (file.entityAt foff).famAddr.dadPtr dadItem foff item gone) :
    Heap.FirstSon (file.Stores contents)
      (file.entityAt foff).famAddr.dadPtr dadItem foff item gone := by
  refine ⟨hson, ?_⟩
  rw [← h.inv.holds.entityAt hson.atDad]
  exact hfirst.2

theorem of_detaches (h : SonsInv file live contents) {dad : ℕ}
    {dadItem item : Item} {contents' : Contents}
    (hfirst : Heap.FirstSon (file.Stores contents) dad dadItem foff item
      (file.nodeFoffs depth true foff))
    (hdetaches : file.Detaches contents dadItem item
      (file.nodeFoffs depth true foff) file' contents') :
    SonsInv file' ((NodeCall.delete depth foff).note live file) contents' := by
  have hheap := hdetaches.stores_iff
  rw [hfirst.dadPtr] at hheap
  have hsound := h.inv.sound
  refine ⟨⟨hdetaches.holds, hfirst.sound hheap hsound, fun slot => ?_,
    fun slot item' hitem' => ?_, fun index => ?_⟩,
    hfirst.rootsDadless hheap hsound h.rootsDadless⟩
  · rw [hfirst.live_iff hheap hsound, h.inv.live, NodeCall.mem_note_delete]
  · obtain ⟨-, item₀, hold, -, htype, -⟩ :=
      hfirst.of_bypassed hheap hsound hitem'
    rw [File.Typed, htype]
    rcases h.inv.typed slot item₀ hold with hzero | ⟨entry, hentry⟩
    · exact Or.inl hzero
    · exact Or.inr ⟨entry, hdetaches.catalogued hentry⟩
  · rw [hdetaches.cats]
    exact h.inv.uncleared index

theorem entities (h : SonsInv file live contents) {dad : ℕ}
    {dadItem item : Item} {contents' : Contents} {gone : List ℕ}
    (hson : Heap.Son (file.Stores contents) dad dadItem foff item gone)
    (hdetaches : file.Detaches contents dadItem item gone file' contents')
    {slot : ℕ} (hmem : slot ∈ live) (hleft : slot ∉ gone) :
    file'.entityAt slot = if slot = dad then
        { file.entityAt slot with famAddr :=
          { (file.entityAt slot).famAddr with
            sonPtr := (file.entityAt foff).famAddr.broPtr } }
      else file.entityAt slot := by
  have hheap := hdetaches.stores_iff
  rw [hson.dadPtr] at hheap
  obtain ⟨item₀, hold⟩ := (h.inv.live slot).mpr hmem
  by_cases heq : slot = dad
  · subst heq
    rw [if_pos rfl, hdetaches.holds.entityAt
      ((hheap slot _).mpr (Or.inl ⟨rfl, rfl⟩)),
      h.inv.holds.entityAt hson.atDad, h.inv.holds.entityAt hson.atOut]
    rfl
  · rw [if_neg heq, hdetaches.holds.entityAt
      ((hheap slot item₀).mpr (Or.inr ⟨heq, hleft, hold⟩)),
      h.inv.holds.entityAt hold]

end SonsInv

/-! ## The forest of pointers -/

section Forest

variable {state : LiveState} {contents : Contents} {depth foff : ℕ}

theorem SonsInv.forestLaw (h : SonsInv state.file state.live contents) :
    ForestLaw state where
  forest := h.inv.forest
  no_return := h.inv.forest.no_return
  dads := by
    intro foff hlive hdad
    obtain ⟨item, hitem⟩ := (h.inv.live foff).mpr hlive
    obtain ⟨root, hroot, hreach⟩ :=
      h.inv.sound.forest.exists_root h.inv.finite ⟨item, hitem⟩
    obtain ⟨rootItem, hrootItem⟩ : Heap.Live (state.file.Stores contents)
        root := by
      rcases Relation.ReflTransGen.cases_tail hreach with rfl | ⟨next, -, hstep⟩
      · exact ⟨item, hitem⟩
      · obtain ⟨kin, -, rootItem, hrootItem, -⟩ := hstep
        exact ⟨rootItem, hrootItem⟩
    obtain ⟨json, hnull, hstored⟩ := h.inv.sound.stored hrootItem
    rw [h.rootsDadless root rootItem hrootItem hroot] at hstored
    obtain ⟨foffs, hlaid⟩ := hstored.laid
    have hnodup := h.inv.sound.nodup hlaid
    have hlength := h.inv.length_le hnodup (fun _ hmem => hlaid.live hmem)
    have hmem := hlaid.reach_mem h.inv.sound.functional hreach
      (hlaid.mem_of_ne_zero (h.inv.sound.ne_zero hrootItem))
    rcases hlaid.broChain h.inv.holds hnodup hmem with
      ⟨hzero, -⟩ | ⟨hdad', hcount⟩
    · exact absurd hzero hdad
    · exact ⟨(h.inv.live _).mp (hlaid.live hdad'),
        fun fuel hfuel => hcount fuel (hlength.trans hfuel)⟩

theorem LinkForest.mem_broChain
    (h : LinkForest (· ∈ state.live) state.Points) {fuel start slot : ℕ}
    (hstart : start ≠ 0 → start ∈ state.live)
    (hmem : slot ∈ state.file.broChain fuel start) :
    slot ≠ 0 ∧ (slot = start ∨ ∃ node, state.Points node .bro slot) := by
  induction fuel generalizing start with
  | zero => exact absurd hmem List.not_mem_nil
  | succ fuel ih =>
      by_cases hzero : start = 0
      · rw [hzero, File.broChain_zero] at hmem
        exact absurd hmem List.not_mem_nil
      · rw [File.broChain, if_neg hzero] at hmem
        rcases List.mem_cons.mp hmem with rfl | hmem
        · exact ⟨hzero, Or.inl rfl⟩
        · have hpoints : (state.file.entityAt start).famAddr.broPtr ≠ 0 →
              state.Points start .bro
                (state.file.entityAt start).famAddr.broPtr :=
            fun hne => ⟨hstart hzero, hne, rfl⟩
          obtain ⟨hne, hcase⟩ :=
            ih (fun hne => (h.closed (hpoints hne)).2) hmem
          refine ⟨hne, Or.inr ?_⟩
          rcases hcase with rfl | hnode
          · exact ⟨start, hpoints hne⟩
          · exact hnode

/-- The forest is kept by the deletion of a first son, and of no other. -/
theorem SonsInv.forest_iff (h : SonsInv state.file state.live contents)
    (hson : state.file.IsSon state.live foff) {dadItem item : Item}
    {file' : File} {contents' : Contents}
    (hdad : Heap.Son (state.file.Stores contents)
      (state.file.entityAt foff).famAddr.dadPtr dadItem foff item
      (state.file.nodeFoffs depth true foff))
    (hdetaches : state.file.Detaches contents dadItem item
      (state.file.nodeFoffs depth true foff) file' contents') :
    ForestLaw ⟨file', (NodeCall.delete depth foff).note state.live state.file⟩ ↔
      state.file.IsFirstSon state.live foff := by
  constructor
  · intro hforest
    have hsound := h.inv.sound
    have hlive : ∀ {slot}, Heap.Live (state.file.Stores contents) slot →
        slot ∉ state.file.nodeFoffs depth true foff →
        slot ∈ (NodeCall.delete depth foff).note state.live state.file := by
      intro slot hslot hleft
      rw [NodeCall.mem_note_delete]
      exact ⟨(h.inv.live slot).mp hslot, hleft⟩
    have hsame : ∀ {slot},
        slot ∈ (NodeCall.delete depth foff).note state.live state.file →
        (file'.entityAt slot).famAddr.dadPtr =
            (state.file.entityAt slot).famAddr.dadPtr ∧
          (file'.entityAt slot).famAddr.broPtr =
            (state.file.entityAt slot).famAddr.broPtr := by
      intro slot hslot
      rw [NodeCall.mem_note_delete] at hslot
      rw [h.entities hdad hdetaches hslot.1 hslot.2]
      split <;> exact ⟨rfl, rfl⟩
    have hdadLeft := hdad.dad_not_mem hsound
    have hlinked := hdad.linked_first
    have hentityDad := h.inv.holds.entityAt hdad.atDad
    refine ⟨hson, ?_⟩
    rw [hentityDad]
    by_contra hne
    have hleft : dadItem.entity.famAddr.sonPtr ∉
        state.file.nodeFoffs depth true foff := by
      intro hmem
      rcases hdad.linked_into hsound hlinked hmem with hinside | heq
      · exact hdadLeft hinside
      · exact hne heq
    obtain ⟨firstItem, hfirst⟩ := (hsound.forest.closed hlinked).2
    have hmem := hlive ⟨firstItem, hfirst⟩ hleft
    have hptr : (file'.entityAt
        dadItem.entity.famAddr.sonPtr).famAddr.dadPtr =
        (state.file.entityAt foff).famAddr.dadPtr := by
      have hkin : dadItem.kinPtr .son ≠ 0 := hdad.sons
      rw [(hsame hmem).1, h.inv.holds.entityAt hfirst]
      exact (hsound.family hdad.atDad hkin hfirst).1
    have hsons : (file'.entityAt
        (state.file.entityAt foff).famAddr.dadPtr).famAddr.sonPtr =
        item.entity.famAddr.broPtr := by
      rw [h.entities hdad hdetaches ((h.inv.live _).mp
        ⟨dadItem, hdad.atDad⟩) hdadLeft, if_pos rfl,
        h.inv.holds.entityAt hdad.atOut]
    have hcount := (hforest.dads _ hmem (by
      rw [hptr]
      exact hson.2)).2 _ le_rfl
    simp only [hptr, hsons] at hcount
    obtain ⟨hzero, hcase⟩ := hforest.forest.mem_broChain (fun hbro =>
      hlive (hsound.forest.closed (@Heap.Linked.of_item _ foff item
        hdad.atOut .bro hbro)).2 (hdad.bro_not_mem hsound))
      (List.one_le_count_iff.mp hcount.ge)
    obtain ⟨node, hbro⟩ : ∃ node, Heap.Linked (state.file.Stores contents)
        node .bro dadItem.entity.famAddr.sonPtr := by
      rcases hcase with heq | ⟨node, hnode, -, hnodePtr⟩
      · exact ⟨foff, hzero, item, hdad.atOut, heq.symm⟩
      · refine ⟨node, h.inv.points_iff.mp ⟨?_, hzero, ?_⟩⟩
        · exact List.mem_of_mem_filter hnode
        · exact (hsame hnode).2.symm.trans hnodePtr
    cases (hsound.forest.single hbro hlinked).2
  · intro hfirst
    exact (h.of_detaches (h.firstSon hfirst hdad) hdetaches).forestLaw

end Forest

/-! ## The documents -/

section Docs

variable {file : File} {live : List ℕ} {contents : Contents}
  {foff slot : ℕ} {path : List Kin}

theorem Json.isNull_dropFirst {json : Json} (hnull : json.isNull = false) :
    (json.dropFirst path).isNull = false := by
  cases json with
  | null => cases hnull
  | node key value bro son =>
      cases path with
      | nil => rfl
      | cons kin path => cases kin <;> rfl

theorem File.follow_zero : file.follow path 0 = 0 := by
  cases path with
  | nil => rfl
  | cons kin path => exact if_pos rfl

theorem LiveInv.follow_iff (h : LiveInv file live contents)
    (hlive : foff ∈ live) (hne : slot ≠ 0) :
    file.follow path foff = slot ↔
      Heap.Leads (file.Stores contents) path foff slot := by
  induction path generalizing foff with
  | nil => exact Iff.rfl
  | cons kin path ih =>
      obtain ⟨item, hitem⟩ := (h.live foff).mpr hlive
      have hkin : (file.entityAt foff).kinPtr kin = item.kinPtr kin := by
        rw [h.holds.entityAt hitem]
        cases kin <;> rfl
      rw [File.follow, if_neg (h.sound.ne_zero hitem), hkin]
      constructor
      · intro hfollow
        by_cases hzero : item.kinPtr kin = 0
        · rw [hzero, File.follow_zero] at hfollow
          exact absurd hfollow.symm hne
        · have hlinked := Heap.Linked.of_item hitem hzero
          have hnext := (h.live _).mp (h.sound.forest.closed hlinked).2
          exact ⟨_, hlinked, (ih hnext).mp hfollow⟩
      · rintro ⟨next, hlinked, hrest⟩
        have hnext := (h.live _).mp (h.sound.forest.closed hlinked).2
        obtain ⟨-, item', hitem', rfl⟩ := hlinked
        rw [h.sound.functional foff item item' hitem hitem'] at hrest hnext
        exact (ih hnext).mpr hrest

/-- What is left of a document once a first son is deleted. -/
theorem SonsInv.docs {file' : File} {contents' : Contents} {dad : ℕ}
    {dadItem item : Item} {gone : List ℕ} (h : SonsInv file live contents)
    (hfirst : Heap.FirstSon (file.Stores contents) dad dadItem foff item gone)
    (hdetaches : file.Detaches contents dadItem item gone file' contents')
    (hmem : slot ∈ live) (hleft : slot ∉ gone) :
    ∃ json, file.Reads slot json ∧
      (∀ path, file.follow path slot = dad →
        file'.Reads slot (json.dropFirst path)) ∧
      ((∀ path, file.follow path slot ≠ dad) → file'.Reads slot json) := by
  have hheap := hdetaches.stores_iff
  rw [hfirst.dadPtr] at hheap
  have hsound := h.inv.sound
  have hne := hsound.ne_zero hfirst.atDad
  obtain ⟨slotItem, hitem⟩ := (h.inv.live slot).mpr hmem
  obtain ⟨json, hnull, hstored⟩ := hsound.stored hitem
  obtain ⟨foffs, hlaid⟩ := hstored.laid
  refine ⟨json, h.inv.holds.reads hstored hnull, fun path hfollow => ?_,
    fun hfollow => ?_⟩
  · have hdropped := hfirst.dropped hheap hsound hlaid
      ((h.inv.follow_iff hmem hne).mp hfollow) hleft
    exact hdetaches.holds.reads hdropped (Json.isNull_dropFirst hnull)
  · have hdad : dad ∉ foffs := by
      intro hdad
      obtain ⟨path, hleads⟩ := Heap.leads_of_mem hlaid hdad
      exact hfollow path ((h.inv.follow_iff hmem hne).mpr hleads)
    have hkept := hfirst.kept hheap hlaid hdad
      (hfirst.apart hsound hlaid hdad hleft)
    exact hdetaches.holds.reads hkept.stored hnull

end Docs

/-! ## Whole runs -/

/-- What is deleted is a whole document or a first son. -/
def NodeCall.HitsTree (live : List ℕ) (file : File) : NodeCall → Prop
  | .write _ _ _ => True
  | .delete depth foff =>
      (file.IsRoot live foff ∨ file.IsFirstSon live foff) ∧
        live.length ≤ depth

/-- A document has nodes that fit, and what is deleted are trees. -/
def LiveCall.Trims (state : LiveState) (call : LiveCall) : Prop :=
  call.Allowed (fun json => json.isNull = false ∧ json.Fits) NodeCall.HitsTree
    state

section Runs

variable {state : LiveState}

theorem SonsInv.kept : KeptByNodeCalls SonsInv
    (fun json => json.isNull = false ∧ json.Fits) NodeCall.HitsTree where
  live := SonsInv.inv
  sameAs := fun h hsameAs =>
    ⟨h.inv.sameAs hsameAs, h.rootsDadless.congr (fun _ _ => hsameAs.stores_iff)⟩
  recatalogued := fun h hrecat hinv =>
    ⟨hinv, h.rootsDadless.congr (fun _ _ => hrecat.stores_iff)⟩
  write := by
    intro file live contents json typePtr h hjson hentry
    obtain ⟨root, file', contents', hok, -, hinv, hgrowsBy, hlaid, -⟩ :=
      @LiveInv.write_fits _ _ _ h.inv _ hjson.1 hjson.2 0 typePtr
        (Or.inr hentry)
    exact ⟨file', contents', by rw [hok, Outcome.final_ok], hinv,
      hgrowsBy.rootsDadless h.rootsDadless hlaid⟩
  delete := by
    intro file live contents depth foff h hhits hborders
    obtain ⟨hroot | hfirst, hdepth⟩ := hhits
    · exact h.delete_unlinked hroot hdepth hborders
    · obtain ⟨file', contents', dadItem, item, hdelete, hson, hdetaches⟩ :=
        h.delete_son hfirst.1 hdepth hborders
      exact ⟨file', contents', hdelete,
        h.of_detaches (h.firstSon hfirst hson) hdetaches⟩

theorem trimRun_inv
    (run : LiveRun (fun state call => call.Trims state ∧ call.Keeps state)
      state) : ∃ contents, SonsInv state.file state.live contents := by
  apply run.invariant
  · rintro state ⟨hlive, file₀, hctor⟩
    rw [hlive]
    refine ⟨_, LiveInv.init hctor, ?_⟩
    rintro foff item ⟨index, head, soff, -, hitem, -⟩
    cases hitem
  · rintro state call state' ⟨contents, hinv⟩ ⟨htrims, hkeeps⟩ hstep
    exact SonsInv.kept.step hinv htrims hkeeps hstep

end Runs

/-! ## Conditions, evaluated -/

def File.sonTest (file : File) (live : List ℕ) (foff : ℕ) : Bool :=
  live.contains foff && (file.entityAt foff).famAddr.dadPtr != 0

def File.firstSonTest (file : File) (live : List ℕ) (foff : ℕ) : Bool :=
  file.sonTest live foff &&
    (file.entityAt (file.entityAt foff).famAddr.dadPtr).famAddr.sonPtr == foff

theorem File.sonTest_iff {file : File} {live : List ℕ} {foff : ℕ} :
    file.sonTest live foff = true ↔ file.IsSon live foff := by
  rw [sonTest, Bool.and_eq_true, List.contains_iff_mem, bne_iff_ne, IsSon]

theorem File.firstSonTest_iff {file : File} {live : List ℕ} {foff : ℕ} :
    file.firstSonTest live foff = true ↔ file.IsFirstSon live foff := by
  rw [firstSonTest, Bool.and_eq_true, sonTest_iff, beq_iff_eq, IsFirstSon]

def NodeCall.treeTest (live : List ℕ) (file : File) : NodeCall → Bool
  | .write _ _ _ => true
  | .delete depth foff => (NodeCall.delete depth foff).rootTest live file ||
      (file.firstSonTest live foff && decide (live.length ≤ depth))

theorem NodeCall.hitsTree_of_test {live : List ℕ} {file : File} {nodeCall : NodeCall}
    (htest : nodeCall.treeTest live file = true) : nodeCall.HitsTree live file := by
  cases nodeCall with
  | write json dadFileoff typeFoff => trivial
  | delete depth foff =>
      rw [treeTest, Bool.or_eq_true, Bool.and_eq_true, decide_eq_true_eq,
        File.firstSonTest_iff] at htest
      rcases htest with hroot | ⟨hfirst, hdepth⟩
      · have hhits := NodeCall.hitsRoot_of_test hroot
        exact ⟨Or.inl hhits.1, hhits.2⟩
      · exact ⟨Or.inr hfirst, hdepth⟩

def LiveCall.trimsTest (state : LiveState) (call : LiveCall) : Bool :=
  call.allowedTest (fun json => !json.isNull && decide json.Fits)
    NodeCall.treeTest state

theorem LiveCall.trims_of_test {state : LiveState} {call : LiveCall}
    (htest : call.trimsTest state = true) : call.Trims state := by
  refine LiveCall.allowed_of_test (fun hjson => ?_) NodeCall.hitsTree_of_test htest
  rw [Bool.and_eq_true, Bool.not_eq_true', decide_eq_true_eq] at hjson
  exact hjson

def exampleSons : List LiveCall :=
  [.addType ⟨stringCtor [97], []⟩,
    exampleApply .insert [] (exampleNode [98] .object
      (.node (stringCtor [99]) (.int32 3)
        (exampleNode [100] (.int32 4) .null) .null))]

theorem exists_trimRun (calls : List LiveCall) (found : LiveState → Bool)
    (hany : (runAll liveStep
      (fun state call => call.trimsTest state && call.keepsTest state) calls
      ⟨emptyFile, []⟩).any found = true) :
    ∃ state, LiveRun (fun state call => call.Trims state ∧ call.Keeps state)
      state ∧ found state = true :=
  Run.exists_of_any liveStep _ calls found id
    (fun htest => by
      rw [Bool.and_eq_true] at htest
      exact ⟨LiveCall.trims_of_test htest.1, LiveCall.keeps_of_test htest.2⟩)
    (emptyFile_liveRun _) hany

/-! ## Main results -/

/-- Along runs that delete documents and first sons a READ yields what it is
to yield, and the pointers form a forest. -/
theorem trimRun_law {state : LiveState}
    (run : LiveRun (fun state call => call.Trims state ∧ call.Keeps state)
      state) : ReadLaw state ∧ ForestLaw state := by
  obtain ⟨contents, hinv⟩ := trimRun_inv run
  exact ⟨hinv.inv.law, hinv.forestLaw⟩

/-- The only son of an object is deleted. -/
theorem trimRun_law_son : ∃ state : LiveState,
    (ReadLaw state ∧ ForestLaw state) ∧ state.live = [8232] := by
  obtain ⟨state, run, hfound⟩ := exists_trimRun
    [.addType ⟨stringCtor [97], []⟩,
      exampleApply .insert [] (exampleNode [98] .object
        (exampleNode [99] (.int32 3) .null)),
      exampleApply .delete [⟨[], .int32 3, .eq⟩] .null]
    (fun state => state.live == [8232]) (by decide_cbv)
  exact ⟨state, trimRun_law run, by simpa using hfound⟩

/-- The deletion of a son comes to its end.  It leaves all other entities as
they are but for the dad's pointer, and the forest is left exactly when the
son was the first. -/
theorem trimRun_delete_son {state : LiveState}
    (run : LiveRun (fun state call => call.Trims state ∧ call.Keeps state)
      state) {depth foff : ℕ} (hson : state.file.IsSon state.live foff)
    (hdepth : state.live.length ≤ depth)
    (hborders : state.file.BordersKept
      (state.file.nodeFoffs depth true foff)) :
    ∃ file', fileDelete depth foff true state.file = .ok () file' ∧
      (∀ slot ∈ (NodeCall.delete depth foff).note state.live state.file,
        file'.entityAt slot =
          if slot = (state.file.entityAt foff).famAddr.dadPtr then
            { state.file.entityAt slot with famAddr :=
              { (state.file.entityAt slot).famAddr with
                sonPtr := (state.file.entityAt foff).famAddr.broPtr } }
          else state.file.entityAt slot) ∧
      (ForestLaw
          ⟨file', (NodeCall.delete depth foff).note state.live state.file⟩ ↔
        state.file.IsFirstSon state.live foff) := by
  obtain ⟨contents, h⟩ := trimRun_inv run
  obtain ⟨file', contents', dadItem, item, hdelete, hdad, hdetaches⟩ :=
    h.delete_son hson hdepth hborders
  refine ⟨file', hdelete, fun slot hmem => ?_, h.forest_iff hson hdad hdetaches⟩
  rw [NodeCall.mem_note_delete] at hmem
  exact h.entities hdad hdetaches hmem.1 hmem.2

/-- The second of two sons is deleted. -/
theorem trimRun_delete_son_second : ∃ (state : LiveState) (file' : File),
    state.live = [8232, 8312, 8392] ∧
      fileDelete 3 8392 true state.file = .ok () file' ∧
      ¬ ForestLaw ⟨file', (NodeCall.delete 3 8392).note state.live state.file⟩ := by
  obtain ⟨state, run, hfound⟩ := exists_trimRun exampleSons
    (fun state => state.live == [8232, 8312, 8392] &&
      state.file.sonTest state.live 8392 &&
      !state.file.firstSonTest state.live 8392 &&
      (NodeCall.delete 3 8392).bordersTest state.file) (by decide_cbv)
  simp only [Bool.and_eq_true, beq_iff_eq, Bool.not_eq_true',
    File.sonTest_iff] at hfound
  obtain ⟨⟨⟨hlive, hson⟩, hfirst⟩, hborders⟩ := hfound
  rw [Bool.eq_false_iff, Ne, File.firstSonTest_iff] at hfirst
  obtain ⟨file', hdelete, -, hforest⟩ := trimRun_delete_son run hson
    (by rw [hlive]; decide) (NodeCall.keepsBorders_of_test hborders)
  exact ⟨state, file', hlive, hdelete, fun h => hfirst (hforest.mp h)⟩

/-- Once a first son is deleted, a document with the dad in it reads as it did
without that son, and any other one reads as it did. -/
theorem trimRun_first_son {state : LiveState}
    (run : LiveRun (fun state call => call.Trims state ∧ call.Keeps state)
      state) {depth foff : ℕ}
    (hfirst : state.file.IsFirstSon state.live foff)
    (hdepth : state.live.length ≤ depth)
    (hborders : state.file.BordersKept
      (state.file.nodeFoffs depth true foff)) :
    ∃ file', fileDelete depth foff true state.file = .ok () file' ∧
      ∀ slot ∈ (NodeCall.delete depth foff).note state.live state.file,
      ∃ json, state.file.Reads slot json ∧
        (∀ path, state.file.follow path slot =
            (state.file.entityAt foff).famAddr.dadPtr →
          file'.Reads slot (json.dropFirst path)) ∧
        ((∀ path, state.file.follow path slot ≠
            (state.file.entityAt foff).famAddr.dadPtr) →
          file'.Reads slot json) := by
  obtain ⟨contents, h⟩ := trimRun_inv run
  obtain ⟨file', contents', dadItem, item, hdelete, hdad, hdetaches⟩ :=
    h.delete_son hfirst.1 hdepth hborders
  refine ⟨file', hdelete, fun slot hmem => ?_⟩
  rw [NodeCall.mem_note_delete] at hmem
  exact h.docs (h.firstSon hfirst hdad) hdetaches hmem.1 hmem.2

/-- The first of two sons is gone from the object. -/
theorem trimRun_first_son_two : ∃ (state : LiveState) (file' : File)
    (json : Json), fileDelete 3 8312 true state.file = .ok () file' ∧
      state.file.Reads 8232 json ∧ file'.Reads 8232 (json.dropFirst []) := by
  obtain ⟨state, run, hfound⟩ := exists_trimRun exampleSons
    (fun state => decide (state.live.length ≤ 3) &&
      state.file.firstSonTest state.live 8312 &&
      (NodeCall.delete 3 8312).bordersTest state.file &&
      decide (8232 ∈ (NodeCall.delete 3 8312).note state.live state.file) &&
      (state.file.entityAt 8312).famAddr.dadPtr == 8232) (by decide_cbv)
  simp only [Bool.and_eq_true, beq_iff_eq, decide_eq_true_eq,
    File.firstSonTest_iff] at hfound
  obtain ⟨⟨⟨⟨hdepth, hfirst⟩, hborders⟩, hmem⟩, hdad⟩ := hfound
  obtain ⟨file', hdelete, hdocs⟩ := trimRun_first_son run hfirst hdepth
    (NodeCall.keepsBorders_of_test hborders)
  obtain ⟨json, hreads, hdropped, -⟩ := hdocs 8232 hmem
  exact ⟨state, file', json, hdelete, hreads, hdropped [] hdad.symm⟩

end NosqlDbms
