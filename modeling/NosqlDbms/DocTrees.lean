import NosqlDbms.DocStore
import NosqlDbms.UserDelete
import Mathlib.Tactic

/-!
# Where the documents lie

Each document of the store has its tree in the file.  The trees have no slot in
common, and all live entities are in them, so that a search over the slots goes
through the parts of the documents.
-/

namespace NosqlDbms

structure DocTree where
  doc : Doc
  foff : ℕ
  typePtr : ℕ
  foffs : List ℕ

/-- The document lies there, nothing leads to it, and its type is there. -/
structure DocTree.InFile (tree : DocTree) (file : File) (contents : Contents) :
    Prop where
  laid : tree.doc.json.Laid (file.Stores contents) 0 tree.typePtr tree.foff
    tree.foffs
  not_null : tree.doc.json.isNull = false
  broless : tree.doc.json.broless = true
  unlinked : Unlinked (Heap.Linked (file.Stores contents)) tree.foff
  type : ∃ entry, file.Catalogued contents tree.typePtr entry ∧
    entry.type.name = tree.doc.typeName

structure DocTrees (file : File) (live : List ℕ) (contents : Contents)
    (trees : List DocTree) : Prop where
  inFile : ∀ tree ∈ trees, tree.InFile file contents
  nodup : (trees.flatMap DocTree.foffs).Nodup
  live : ∀ foff, foff ∈ live ↔ foff ∈ trees.flatMap DocTree.foffs

def SlotDoc.part (slotDoc : SlotDoc) : Part := ⟨slotDoc.json, slotDoc.name⟩

/-! ## Parts and slots -/

section Parts

variable {file : File} {contents : Contents} {foff typePtr dad : ℕ}

theorem File.Reads.unique {json json' : Json} (h : file.Reads foff json)
    (h' : file.Reads foff json') : json' = json := by
  obtain ⟨depth, hread⟩ := h
  obtain ⟨depth', hread'⟩ := h'
  obtain ⟨entity, file₁, hok⟩ := hread _ (Nat.le_max_left depth depth')
  obtain ⟨entity', file₂, hok'⟩ := hread' _ (Nat.le_max_right depth depth')
  rw [hok] at hok'
  injection hok' with heq _
  exact (congrArg Prod.fst heq).symm

theorem File.Holds.catalogued_ne_zero (h : file.Holds contents.Spelled)
    {entry : TypeEntry} (hentry : file.Catalogued contents foff entry) :
    foff ≠ 0 := by
  obtain ⟨index, head, soff, hhead, -, rfl⟩ := hentry
  have hlow := h.placed.low hhead
  omega

theorem File.Named.unique (h : file.Holds contents.Spelled)
    {name name' : Option Str} (hnamed : file.Named contents typePtr name)
    (hnamed' : file.Named contents typePtr name') : name' = name := by
  rcases hnamed with ⟨hzero, rfl⟩ | ⟨entry, hentry, rfl⟩
  · rcases hnamed' with ⟨-, rfl⟩ | ⟨entry', hentry', -⟩
    · rfl
    · exact absurd hzero (h.catalogued_ne_zero hentry')
  · rcases hnamed' with ⟨hzero, -⟩ | ⟨entry', hentry', rfl⟩
    · exact absurd hzero (h.catalogued_ne_zero hentry)
    · rw [h.catalogued_unique hentry hentry']

structure File.Parts (file : File) (contents : Contents) (foff : ℕ)
    (part : Part) : Prop where
  not_null : part.json.isNull = false
  stored : ∃ dad typePtr,
    part.json.Stored (file.Stores contents) dad typePtr foff ∧
      file.Named contents typePtr part.typeName

/-- Each slot of a tree has its part.  The induction is on the tree. -/
theorem Json.Laid.parts {json : Json} {foffs : List ℕ} {name : Option Str}
    (h : json.Laid (file.Stores contents) dad typePtr foff foffs)
    (hname : file.Named contents typePtr name) :
    List.Forall₂ (file.Parts contents) foffs (json.parts name) := by
  induction json generalizing dad typePtr foff foffs name with
  | null =>
      rw [h.2]
      exact .nil
  | node key value bro son ihBro ihSon =>
      have hstored := h.stored
      obtain ⟨-, item, broFoffs, sonFoffs, -, -, -, -, hbro, hson, rfl⟩ := h
      have hnone : file.Named contents 0 none := Or.inl ⟨rfl, rfl⟩
      refine .cons ⟨rfl, dad, typePtr, hstored, hname⟩ ?_
      exact List.rel_append (ihBro hbro hnone) (ihSon hson hnone)

theorem File.Parts.slotDoc {part : Part} {slotDoc : SlotDoc}
    (h : file.Holds contents.Spelled) (hpart : file.Parts contents foff part)
    (hstoresDoc : file.StoresDoc contents foff slotDoc) : slotDoc.part = part := by
  obtain ⟨json, name⟩ := part
  obtain ⟨dad', typePtr', hstored, hnamed⟩ := hpart.stored
  have hjson : slotDoc.json = json :=
    (h.reads hstored hpart.not_null).unique
      (h.reads hstoresDoc.stored hstoresDoc.not_null)
  have htype : slotDoc.entity.typePtr = typePtr' := by
    obtain ⟨item, hitem, hentity⟩ := hstoresDoc.item
    have hnull := hpart.not_null
    cases json with
    | null => cases hnull
    | node key value bro son =>
        obtain ⟨-, item', hitem', -, -, htype', -⟩ := hstored
        rw [hentity, h.stores_unique hitem' hitem, htype']
  have hname := hstoresDoc.named
  rw [htype] at hname
  rw [SlotDoc.part, hjson, hnamed.unique h hname]

end Parts

namespace DocTree.InFile

variable {tree : DocTree} {file file' : File} {contents contents' : Contents}

theorem parts_eq (h : tree.InFile file contents)
    (hholds : file.Holds contents.Spelled) {slotDocs : ℕ → SlotDoc}
    (hstoresDoc : ∀ foff ∈ tree.foffs, file.StoresDoc contents foff (slotDocs foff)) :
    tree.foffs.map (fun foff => (slotDocs foff).part) = tree.doc.parts := by
  obtain ⟨entry, hentry, hname⟩ := h.type
  have hparts := h.laid.parts
    (Or.inr ⟨entry, hentry, congrArg some hname.symm⟩)
  rw [Doc.parts]
  generalize tree.doc.json.parts (some tree.doc.typeName) = parts at hparts
  generalize tree.foffs = foffs at hparts hstoresDoc
  induction hparts with
  | nil => rfl
  | cons hpart hrest ih =>
      rw [List.map_cons, hpart.slotDoc hholds (hstoresDoc _ List.mem_cons_self),
        ih (fun foff hmem => hstoresDoc foff (List.mem_cons_of_mem _ hmem))]

theorem shape (h : tree.InFile file contents) :
    ∃ item son sonFoffs, file.Stores contents tree.foff item ∧
      item.entity.famAddr.dadPtr = 0 ∧
      item.entity.typePtr = tree.typePtr ∧
      Json.Laid (file.Stores contents) son tree.foff 0
        item.entity.famAddr.sonPtr sonFoffs ∧
      tree.foffs = tree.foff :: sonFoffs := by
  have hlaid := h.laid
  have hnull := h.not_null
  have hbroless := h.broless
  cases hjson : tree.doc.json with
  | null => rw [hjson] at hnull; cases hnull
  | node key value bro son =>
      rw [hjson] at hlaid hbroless
      obtain ⟨-, item, broFoffs, sonFoffs, hitem, -, hdad, htype, hbro, hson,
        hfoffs⟩ := hlaid
      have hnone : broFoffs = [] := by
        cases bro with
        | null => exact hbro.2
        | node _ _ _ _ => cases hbroless
      rw [hnone, List.nil_append] at hfoffs
      exact ⟨item, son, sonFoffs, hitem, hdad, htype, hson, hfoffs⟩

theorem mem_foffs (h : tree.InFile file contents) : tree.foff ∈ tree.foffs := by
  obtain ⟨item, son, sonFoffs, -, -, -, -, hfoffs⟩ := h.shape
  rw [hfoffs]
  exact List.mem_cons_self

theorem self_eq (h : tree.InFile file contents)
    (hholds : file.Holds contents.Spelled) {slotDocs : ℕ → SlotDoc}
    (hstoresDoc : ∀ foff ∈ tree.foffs, file.StoresDoc contents foff (slotDocs foff)) :
    (slotDocs tree.foff).part = tree.doc.self ∧
      tree.doc.inner =
        tree.foffs.tail.map (fun foff => (slotDocs foff).part) := by
  have hparts := h.parts_eq hholds hstoresDoc
  obtain ⟨item, son, sonFoffs, -, -, -, -, hfoffs⟩ := h.shape
  have hnull := h.not_null
  rw [hfoffs, List.map_cons] at hparts
  rw [Doc.inner, ← hparts, hfoffs, List.tail_cons, List.tail_cons]
  refine ⟨?_, rfl⟩
  rw [Doc.parts] at hparts
  cases hjson : tree.doc.json with
  | null => rw [hjson] at hnull; cases hnull
  | node key value bro son =>
      rw [hjson, Json.parts] at hparts
      rw [Doc.self, hjson]
      exact (List.cons.inj hparts).1

theorem congr (h : tree.InFile file contents)
    (hstores : ∀ foff ∈ tree.foffs, ∀ item,
      file.Stores contents foff item → file'.Stores contents' foff item)
    (hunlinked : Unlinked (Heap.Linked (file'.Stores contents')) tree.foff)
    (hentry : ∀ {entry}, file.Catalogued contents tree.typePtr entry →
      file'.Catalogued contents' tree.typePtr entry) :
    tree.InFile file' contents' where
  laid := h.laid.congr hstores
  not_null := h.not_null
  broless := h.broless
  unlinked := hunlinked
  type := by
    obtain ⟨entry, hcatalogued, hname⟩ := h.type
    exact ⟨entry, hentry hcatalogued, hname⟩

theorem nodeFoffs_eq (h : tree.InFile file contents) {live : List ℕ}
    (hinv : LiveInv file live contents) {depth : ℕ}
    (hdepth : live.length ≤ depth) :
    file.nodeFoffs depth true tree.foff = tree.foffs := by
  have hnodup := hinv.sound.nodup h.laid
  have hlength := (hinv.length_le hnodup
    (fun _ hmem => h.laid.live hmem)).trans hdepth
  obtain ⟨item, son, sonFoffs, hitem, -, -, hson, hfoffs⟩ := h.shape
  rw [hfoffs, List.length_cons, hson.length_eq] at hlength
  rw [hfoffs, hinv.holds.nodeFoffs_root hitem hson (by omega)]

end DocTree.InFile

namespace DocTrees

variable {file file' : File} {live : List ℕ} {contents contents' : Contents}
  {trees : List DocTree} {tree tree' : DocTree} {foff : ℕ}

theorem mem_live (h : DocTrees file live contents trees) :
    foff ∈ live ↔ ∃ tree ∈ trees, foff ∈ tree.foffs := by
  rw [h.live, List.mem_flatMap]

theorem unique (h : DocTrees file live contents trees) (hmem : tree ∈ trees)
    (hmem' : tree' ∈ trees) (hfoff : foff ∈ tree.foffs)
    (hfoff' : foff ∈ tree'.foffs) : tree' = tree := by
  by_contra hne
  have hsymm : Std.Symm (Function.onFun List.Disjoint DocTree.foffs) :=
    ⟨fun _ _ => List.Disjoint.symm⟩
  have hapart := (List.nodup_flatMap.mp h.nodup).2.forall hmem' hmem hne
  exact hapart hfoff' hfoff

theorem isRoot_iff (h : DocTrees file live contents trees)
    (hinv : LiveInv file live contents) :
    file.IsRoot live foff ↔ ∃ tree ∈ trees, tree.foff = foff := by
  constructor
  · rintro ⟨hlive, hdad, -⟩
    obtain ⟨tree, hmem, hfoff⟩ := h.mem_live.mp hlive
    have hinFile := h.inFile tree hmem
    obtain ⟨item, son, sonFoffs, hitem, -, -, hson, hfoffs⟩ := hinFile.shape
    refine ⟨tree, hmem, ?_⟩
    rw [hfoffs, List.mem_cons] at hfoff
    rcases hfoff with rfl | hfoff
    · rfl
    · obtain ⟨item', hitem', hdad'⟩ := hson.dads hfoff
      rw [hinv.holds.entityAt hitem'] at hdad
      rw [hdad] at hdad'
      rcases hdad' with hzero | hzero
      · exact absurd hzero.symm (hinv.sound.ne_zero hitem)
      · exact absurd rfl (hson.ne_zero hzero)
  · rintro ⟨tree, hmem, rfl⟩
    have hinFile := h.inFile tree hmem
    obtain ⟨item, son, sonFoffs, hitem, hdad, -⟩ := hinFile.shape
    refine ⟨h.mem_live.mpr ⟨tree, hmem, hinFile.mem_foffs⟩, ?_, ?_⟩
    · rw [hinv.holds.entityAt hitem, hdad]
    · intro other hother heq
      obtain ⟨item', hitem'⟩ := (hinv.live other).mpr hother
      rw [hinv.holds.entityAt hitem'] at heq
      exact hinFile.unlinked other .bro
        ⟨hinv.sound.ne_zero hitem, item', hitem', heq⟩

/-! ## A search -/

variable {past : Str → List Byte} {query : Query} {slotDocs : ℕ → SlotDoc}

theorem parts_eq (h : DocTrees file live contents trees)
    (hinv : LiveInv file live contents)
    (hstoresDoc : ∀ foff ∈ live, file.StoresDoc contents foff (slotDocs foff)) :
    (trees.flatMap DocTree.foffs).map (fun foff => (slotDocs foff).part) =
      trees.flatMap (fun tree => tree.doc.parts) := by
  rw [List.map_flatMap]
  apply List.flatMap_congr
  intro tree hmem
  exact (h.inFile tree hmem).parts_eq hinv.holds
    (fun foff hfoff => hstoresDoc foff (h.mem_live.mpr ⟨tree, hmem, hfoff⟩))

/-- What a search picks are the parts that the query holds of. -/
theorem read_eq (h : DocTrees file live contents trees)
    (hinv : LiveInv file live contents)
    (hstoresDoc : ∀ foff ∈ live, file.StoresDoc contents foff (slotDocs foff))
    (hgone : ∀ foff ∉ live, slotDocs foff = clearedDoc)
    (hcleared : clearedDoc.check past query = some false)
    {store : Store} (hdocs : store.docs = ↑(trees.map DocTree.doc)) :
    (↑((picks past query slotDocs file.slots).map (fun foff =>
      (slotDocs foff).json)) : Multiset Json) = store.read past query := by
  have hparts : store.parts = ↑((trees.flatMap DocTree.foffs).map (fun foff =>
      (slotDocs foff).part)) := by
    rw [Store.parts, hdocs, Multiset.coe_bind, List.flatMap_map,
      h.parts_eq hinv hstoresDoc]
  have hperm : (picks past query slotDocs file.slots).Perm
      ((trees.flatMap DocTree.foffs).filter (fun foff =>
        (slotDocs foff).part.meets past query)) := by
    apply (List.perm_ext_iff_of_nodup (hinv.holds.slots_nodup.filter _)
      (h.nodup.filter _)).mpr
    intro foff
    rw [List.mem_filter, List.mem_filter, ← h.live]
    constructor
    · rintro ⟨hslot, hcheck⟩
      refine ⟨?_, hcheck⟩
      by_contra hnot
      rw [hgone foff hnot, hcleared] at hcheck
      cases hcheck
    · rintro ⟨hmem, hcheck⟩
      obtain ⟨item, hitem⟩ := (hinv.live foff).mpr hmem
      exact ⟨hinv.holds.mem_slots hitem, hcheck⟩
  rw [Store.read, hparts, Multiset.filter_coe, Multiset.map_coe,
    Multiset.coe_eq_coe, List.filter_map, List.map_map]
  simp only [Bool.decide_eq_true]
  exact hperm.map _

theorem part_mem (h : DocTrees file live contents trees)
    (hinv : LiveInv file live contents)
    (hstoresDoc : ∀ foff ∈ live, file.StoresDoc contents foff (slotDocs foff))
    (hmem : tree ∈ trees) (hfoff : foff ∈ tree.foffs) :
    (slotDocs foff).part ∈ tree.doc.parts := by
  rw [← (h.inFile tree hmem).parts_eq hinv.holds (fun foff hfoff =>
    hstoresDoc foff (h.mem_live.mpr ⟨tree, hmem, hfoff⟩))]
  exact List.mem_map_of_mem hfoff

theorem mem_picks_iff (h : DocTrees file live contents trees)
    (hsearchInv : SearchInv past query file live contents slotDocs)
    (hwhole : ∀ tree ∈ trees, tree.doc.Whole past query) :
    foff ∈ picks past query slotDocs file.slots ↔ ∃ tree ∈ trees,
      tree.foff = foff ∧ tree.doc.self.meets past query = true := by
  have hself : ∀ tree ∈ trees,
      (slotDocs tree.foff).part = tree.doc.self ∧ tree.doc.inner =
        tree.foffs.tail.map (fun foff => (slotDocs foff).part) :=
    fun tree hmem => (h.inFile tree hmem).self_eq hsearchInv.inv.holds
      (fun foff hfoff => hsearchInv.storesDoc foff
        (h.mem_live.mpr ⟨tree, hmem, hfoff⟩))
  constructor
  · intro hpick
    obtain ⟨hslot, hcheck⟩ := mem_picks.mp hpick
    obtain ⟨tree, hmem, hfoff⟩ := h.mem_live.mp (hsearchInv.mem_live hcheck)
    have hmeets : (slotDocs foff).part.meets past query = true :=
      beq_iff_eq.mpr hcheck
    obtain ⟨item, son, sonFoffs, -, -, -, -, hfoffs⟩ :=
      (h.inFile tree hmem).shape
    obtain ⟨hfirst, hinner⟩ := hself tree hmem
    rw [hfoffs, List.mem_cons] at hfoff
    rcases hfoff with rfl | hfoff
    · exact ⟨tree, hmem, rfl, by rw [← hfirst]; exact hmeets⟩
    · have hpart : (slotDocs foff).part ∈ tree.doc.inner := by
        rw [hinner, hfoffs, List.tail_cons]
        exact List.mem_map_of_mem hfoff
      rw [(hwhole tree hmem).2 _ hpart] at hmeets
      cases hmeets
  · rintro ⟨tree, hmem, rfl, hmeets⟩
    obtain ⟨item, hitem⟩ := (hsearchInv.inv.live tree.foff).mpr
      (h.mem_live.mpr ⟨tree, hmem, (h.inFile tree hmem).mem_foffs⟩)
    rw [← (hself tree hmem).1] at hmeets
    exact mem_picks.mpr ⟨hsearchInv.inv.holds.mem_slots hitem,
      beq_iff_eq.mp hmeets⟩

theorem mem_treeFoffs_iff (h : DocTrees file live contents trees)
    (hsearchInv : SearchInv past query file live contents slotDocs)
    (hwhole : ∀ tree ∈ trees, tree.doc.Whole past query) {depth : ℕ}
    (hdepth : live.length ≤ depth) :
    foff ∈ file.treeFoffs depth (picks past query slotDocs file.slots) ↔
      ∃ tree ∈ trees, tree.doc.self.meets past query = true ∧
        foff ∈ tree.foffs := by
  rw [File.treeFoffs, List.mem_flatMap]
  constructor
  · rintro ⟨hit, hpick, hfoff⟩
    obtain ⟨tree, hmem, rfl, hmeets⟩ :=
      (h.mem_picks_iff hsearchInv hwhole).mp hpick
    rw [(h.inFile tree hmem).nodeFoffs_eq hsearchInv.inv hdepth] at hfoff
    exact ⟨tree, hmem, hmeets, hfoff⟩
  · rintro ⟨tree, hmem, hmeets, hfoff⟩
    refine ⟨tree.foff,
      (h.mem_picks_iff hsearchInv hwhole).mpr ⟨tree, hmem, rfl, hmeets⟩, ?_⟩
    rw [(h.inFile tree hmem).nodeFoffs_eq hsearchInv.inv hdepth]
    exact hfoff

/-! ## Changes -/

theorem empty (file : File) (contents : Contents) :
    DocTrees file [] contents [] where
  inFile := fun _ hmem => absurd hmem List.not_mem_nil
  nodup := .nil
  live := fun _ => Iff.rfl

theorem congr (h : DocTrees file live contents trees)
    (hstores : ∀ {foff item}, file'.Stores contents' foff item ↔
      file.Stores contents foff item)
    (hentry : ∀ {foff entry}, file.Catalogued contents foff entry →
      file'.Catalogued contents' foff entry) :
    DocTrees file' live contents' trees where
  inFile := by
    intro tree hmem
    have hinFile := h.inFile tree hmem
    apply hinFile.congr (fun _ _ _ hitem => hstores.mpr hitem) _ hentry
    rintro node kin ⟨hne, item, hitem, hptr⟩
    exact hinFile.unlinked node kin ⟨hne, item, hstores.mp hitem, hptr⟩
  nodup := h.nodup
  live := h.live

theorem sameAs (h : DocTrees file live contents trees)
    (hsameAs : file.SameAs contents file') : DocTrees file' live contents trees :=
  h.congr hsameAs.stores_iff hsameAs.catalogued_iff.mpr

theorem erased (h : DocTrees file live contents trees) {gone : List ℕ}
    {dead : DocTree → Bool} (herases : file.Erases contents gone file' contents')
    (hgone : ∀ foff, foff ∈ gone ↔
      ∃ tree ∈ trees, dead tree = true ∧ foff ∈ tree.foffs) :
    DocTrees file' (leftLive live gone) contents'
      (trees.filter (fun tree => !dead tree)) := by
  have hout : ∀ tree ∈ trees, dead tree = false →
      ∀ foff ∈ tree.foffs, foff ∉ gone := by
    intro tree hmem hleft foff hfoff hgone'
    obtain ⟨tree', hmem', hdead, hfoff'⟩ := (hgone foff).mp hgone'
    rw [h.unique hmem hmem' hfoff hfoff', hleft] at hdead
    cases hdead
  have hkept : ∀ tree, tree ∈ trees.filter (fun tree => !dead tree) ↔
      tree ∈ trees ∧ dead tree = false := by
    intro tree
    rw [List.mem_filter, Bool.not_eq_true']
  refine ⟨fun tree hmem => ?_, ?_, fun foff => ?_⟩
  · obtain ⟨hmem, hleft⟩ := (hkept tree).mp hmem
    have hinFile := h.inFile tree hmem
    apply hinFile.congr (fun foff hfoff item hitem => herases.stores_iff.mpr
      ⟨hout tree hmem hleft foff hfoff, hitem⟩) _
      herases.catalogued_iff.mpr
    rintro node kin ⟨hne, item, hitem, hptr⟩
    exact hinFile.unlinked node kin
      ⟨hne, item, (herases.stores_iff.mp hitem).2, hptr⟩
  · exact h.nodup.sublist (List.filter_sublist.flatMap _)
  · rw [mem_leftLive, h.mem_live, hgone, List.mem_flatMap]
    constructor
    · rintro ⟨⟨tree, hmem, hfoff⟩, hnot⟩
      refine ⟨tree, (hkept tree).mpr ⟨hmem, ?_⟩, hfoff⟩
      by_contra hdead
      exact hnot ⟨tree, hmem, eq_true_of_ne_false hdead, hfoff⟩
    · rintro ⟨tree, hmem, hfoff⟩
      obtain ⟨hmem, hleft⟩ := (hkept tree).mp hmem
      refine ⟨⟨tree, hmem, hfoff⟩, fun hgone' => ?_⟩
      exact hout tree hmem hleft foff hfoff ((hgone foff).mpr hgone')

theorem add (h : DocTrees file live contents trees)
    (hinv : LiveInv file live contents)
    (hgrows : file.Grows contents file' contents') {json : Json}
    {typePtr foff : ℕ} {entry : TypeEntry}
    (hnull : json.isNull = false) (hbroless : json.broless = true)
    (hentry : file.Catalogued contents typePtr entry)
    (hgrowsBy : Heap.GrowsBy (file.Stores contents) (file'.Stores contents')
      (fileWritten json 0 typePtr file))
    (hlaid : json.Laid (file'.Stores contents') 0 typePtr foff
      (fileWritten json 0 typePtr file))
    (hrooted : foff ≠ 0 → (file'.Stores contents').Rooted 0 typePtr foff) :
    DocTrees file' ((NodeCall.write json 0 typePtr).note live file) contents'
      (⟨⟨entry.type.name, json⟩, foff, typePtr,
        fileWritten json 0 typePtr file⟩ :: trees) := by
  have hne : foff ≠ 0 := by
    cases json with
    | null => cases hnull
    | node key value bro son => exact hlaid.1
  refine ⟨fun tree hmem => ?_, ?_, fun slot => ?_⟩
  · rcases List.mem_cons.mp hmem with rfl | hmem
    · exact ⟨hlaid, hnull, hbroless, (hrooted hne).unlinked, entry,
        hgrows.catalogued_iff.mpr hentry, rfl⟩
    · have hinFile := h.inFile tree hmem
      obtain ⟨item, son, sonFoffs, hitem, -⟩ := hinFile.shape
      exact hinFile.congr (fun _ _ _ hitem => hgrowsBy.kept hitem)
        (hgrowsBy.unlinked ⟨item, hitem⟩ hinFile.unlinked)
        hgrows.catalogued_iff.mpr
  · rw [List.flatMap_cons, List.nodup_append]
    refine ⟨hgrowsBy.sound.nodup hlaid, h.nodup, ?_⟩
    rintro slot hnew slot' hold rfl
    exact hgrowsBy.fresh slot hnew
      ((hinv.live slot).mpr ((h.live slot).mpr hold))
  · rw [NodeCall.note, List.mem_append, h.live, List.flatMap_cons,
      List.mem_append]

end DocTrees

end NosqlDbms
