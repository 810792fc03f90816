import NosqlDbms.DocTrees
import Mathlib.Tactic

/-!
# What an UPDATE replaces

The loop of `user_update` deletes and writes while it searches, and what it
writes may lie in a section it has still before it.  Where the query is false
of the new document, each document that it held of is replaced once.
-/

namespace NosqlDbms

def otherTrees (trees : List DocTree) (foff : ℕ) : List DocTree :=
  trees.filter (fun tree => !decide (tree.foff = foff))

section WroteLaid

variable {past : Str → List Byte} {query : Query} {slotDocs : ℕ → SlotDoc}
  {file file' : File} {live : List ℕ} {contents contents' : Contents}
  {trees : List DocTree} {tree : DocTree} {foff depth : ℕ}

theorem File.StoresDoc.grown {slotDoc : SlotDoc} (h : file.StoresDoc contents foff slotDoc)
    (hgrows : file.Grows contents file' contents') :
    file'.StoresDoc contents' foff slotDoc where
  item := by
    obtain ⟨item, hitem, hentity⟩ := h.item
    exact ⟨item, hgrows.stores hitem, hentity⟩
  not_null := h.not_null
  stored := h.stored.mono (fun _ _ => hgrows.stores)
  named := by
    rcases h.named with hnone | ⟨entry, hentry, hname⟩
    · exact Or.inl hnone
    · exact Or.inr ⟨entry, hgrows.catalogued_iff.mpr hentry, hname⟩

theorem LiveInv.keeps_grown (h : LiveInv file live contents)
    (hgrows : file.Grows contents file' contents') :
    file.Keeps contents live file' contents' where
  holds := h.holds
  holds' := hgrows.holds
  stores := by
    intro foff hmem
    obtain ⟨item, hitem⟩ := (h.live foff).mpr hmem
    exact ⟨item, hitem, hgrows.stores hitem⟩
  heads := hgrows.heads

theorem SearchInv.add (h : SearchInv past query file live contents slotDocs)
    {written : List ℕ} (hgrows : file.Grows contents file' contents')
    (hgrowsBy : Heap.GrowsBy (file.Stores contents) (file'.Stores contents')
      written)
    (hinv : LiveInv file' (written ++ live) contents')
    (hinFile : tree.InFile file' contents') (hfoffs : tree.foffs = written)
    (houtside : tree.doc.Outside past query) :
    ∃ slotDocs', SearchInv past query file' (written ++ live) contents' slotDocs' ∧
      (∀ foff ∈ live, slotDocs' foff = slotDocs foff) ∧
      ∀ foff, (slotDocs' foff).check past query = some true → foff ∈ live := by
  obtain ⟨found, hstoresDoc, hgone⟩ := hinv.exists_slotDocs
  have hfresh : ∀ foff ∈ live, foff ∉ written :=
    fun foff hmem hnew => hgrowsBy.fresh foff hnew ((h.inv.live foff).mpr hmem)
  have hfalse : ∀ foff ∈ written,
      (found foff).check past query = some false := by
    intro foff hmem
    have hparts := hinFile.parts_eq hinv.holds (fun foff hfoff =>
      hstoresDoc foff (List.mem_append_left _ (hfoffs ▸ hfoff)))
    apply houtside (found foff).part
    rw [← hparts, hfoffs]
    exact List.mem_map_of_mem hmem
  obtain ⟨slotDocs', hnew, hold⟩ : ∃ slotDocs' : ℕ → SlotDoc,
      (∀ foff ∈ written, slotDocs' foff = found foff) ∧
        ∀ foff ∉ written, slotDocs' foff = slotDocs foff :=
    ⟨fun foff => if foff ∈ written then found foff else slotDocs foff,
      fun _ hmem => if_pos hmem, fun _ hnot => if_neg hnot⟩
  refine ⟨slotDocs', ⟨hinv, fun foff hmem => ?_, fun foff hnot => ?_,
      fun foff => ?_, h.cleared⟩, fun foff hmem => hold foff
        (hfresh foff hmem), fun foff hpasses => ?_⟩
  · by_cases hin : foff ∈ written
    · rw [hnew foff hin]
      exact hstoresDoc foff hmem
    · rw [hold foff hin]
      have hlive := (List.mem_append.mp hmem).resolve_left hin
      exact (h.storesDoc foff hlive).grown hgrows
  · rw [List.mem_append, not_or] at hnot
    rw [hold foff hnot.1]
    exact h.gone foff hnot.2
  · by_cases hin : foff ∈ written
    · rw [hnew foff hin, hfalse foff hin]
      exact Option.some_ne_none false
    · rw [hold foff hin]
      exact h.check foff
  · by_cases hin : foff ∈ written
    · rw [hnew foff hin, hfalse foff hin] at hpasses
      cases hpasses
    · rw [hold foff hin] at hpasses
      exact h.mem_live hpasses

theorem mem_otherTrees :
    tree ∈ otherTrees trees foff ↔ tree ∈ trees ∧ tree.foff ≠ foff := by
  rw [otherTrees, List.mem_filter, Bool.not_eq_true',
    decide_eq_false_iff_not]

namespace DocTrees

theorem nodup_trees (h : DocTrees file live contents trees) : trees.Nodup := by
  apply List.Pairwise.imp_of_mem _ (List.nodup_flatMap.mp h.nodup).2
  rintro tree tree' hmem _ hapart rfl
  have hfoff := (h.inFile tree hmem).mem_foffs
  exact hapart hfoff hfoff

theorem perm_cons (h : DocTrees file live contents trees) (hmem : tree ∈ trees) :
    trees.Perm (tree :: otherTrees trees tree.foff) := by
  apply (List.perm_ext_iff_of_nodup h.nodup_trees (List.nodup_cons.mpr
    ⟨fun hmem' => (mem_otherTrees.mp hmem').2 rfl,
      h.nodup_trees.filter _⟩)).mpr
  intro other
  rw [List.mem_cons, mem_otherTrees]
  constructor
  · intro hmem'
    by_cases heq : other.foff = tree.foff
    · left
      apply h.unique hmem hmem' (h.inFile tree hmem).mem_foffs
      rw [← heq]
      exact (h.inFile other hmem').mem_foffs
    · exact Or.inr ⟨hmem', heq⟩
  · rintro (rfl | ⟨hmem', -⟩)
    · exact hmem
    · exact hmem'

end DocTrees

end WroteLaid

/-! ## The loop -/

/-- The live entities are those of the trees, and a search can go over them. -/
structure TreesInv (past : Str → List Byte) (query : Query) (file : File)
    (live : List ℕ) (contents : Contents) (slotDocs : ℕ → SlotDoc)
    (trees : List DocTree) : Prop where
  searchInv : SearchInv past query file live contents slotDocs
  docTrees : DocTrees file live contents trees

/-- A document of its own whose nodes fit. -/
structure Json.Sound (json : Json) : Prop where
  not_null : json.isNull = false
  broless : json.broless = true
  fits : json.Fits

def File.SameTypes (file : File) (contents : Contents) (file' : File)
    (contents' : Contents) : Prop :=
  ∀ {foff entry}, file'.Catalogued contents' foff entry ↔
    file.Catalogued contents foff entry

section Loop

variable {past : Str → List Byte} {query : Query} {slotDocs : ℕ → SlotDoc}
  {file file' : File} {live : List ℕ} {contents : Contents} {trees : List DocTree}
  {tree : DocTree} {depth : ℕ} {newJson : Json} {iter : Iter}

theorem TreesInv.delete_unlinked (h : TreesInv past query file live contents slotDocs trees)
    (hmem : tree ∈ trees) (hdepth : live.length ≤ depth)
    (hsafe : file.SafeWithout contents
      (file.nodeFoffs depth true tree.foff)) :
    ∃ file' contents', fileDelete depth tree.foff true file = .ok () file' ∧
      file.SameTypes contents file' contents' ∧
      file.Keeps contents (leftLive live tree.foffs) file' contents' ∧
      TreesInv past query file' (leftLive live tree.foffs) contents'
        (leftDocs (leftLive live tree.foffs) slotDocs)
        (otherTrees trees tree.foff) := by
  have hinv := h.searchInv.inv
  have hinFile := h.docTrees.inFile tree hmem
  have hroot : file.IsRoot live tree.foff :=
    (h.docTrees.isRoot_iff hinv).mpr ⟨tree, hmem, rfl⟩
  have hfoffs := hinFile.nodeFoffs_eq hinv hdepth
  have hunlinkedTree := hinv.unlinkedTree hdepth hroot
  obtain ⟨file', contents', hdelete, herases, hinv'⟩ :=
    hinv.delete_unlinked hroot hdepth hsafe
  rw [hfoffs] at hunlinkedTree herases
  rw [NodeCall.note, hfoffs] at hinv'
  have hgone : ∀ foff, foff ∈ tree.foffs ↔ ∃ other ∈ trees,
      decide (other.foff = tree.foff) = true ∧ foff ∈ other.foffs := by
    intro foff
    constructor
    · exact fun hfoff => ⟨tree, hmem, decide_eq_true rfl, hfoff⟩
    · rintro ⟨other, hother, heq, hfoff⟩
      have hfirst := (h.docTrees.inFile other hother).mem_foffs
      rw [of_decide_eq_true heq] at hfirst
      rw [← h.docTrees.unique hmem hother hinFile.mem_foffs hfirst]
      exact hfoff
  exact ⟨file', contents', hdelete, herases.catalogued_iff,
    hinv.keeps_erased herases,
    h.searchInv.erased hunlinkedTree.closed herases hinv',
    h.docTrees.erased herases hgone⟩

theorem TreesInv.write (h : TreesInv past query file live contents slotDocs trees)
    (hnew : newJson.Sound) {typePtr : ℕ} {entry : TypeEntry}
    (hentry : file.Catalogued contents typePtr entry)
    (houtside : Doc.Outside past query ⟨entry.type.name, newJson⟩) :
    ∃ foff file' contents' slotDocs' tree',
      fileWrite newJson 0 typePtr file = .ok foff file' ∧
      file.SameTypes contents file' contents' ∧
      file.Keeps contents live file' contents' ∧
      TreesInv past query file'
        ((NodeCall.write newJson 0 typePtr).note live file) contents' slotDocs'
        (tree' :: trees) ∧
      (∀ foff ∈ live, slotDocs' foff = slotDocs foff) ∧
      (∀ foff, (slotDocs' foff).check past query = some true →
        foff ∈ live) ∧
      ((NodeCall.write newJson 0 typePtr).note live file).length =
        newJson.nodes.length + live.length ∧
      tree'.doc = ⟨entry.type.name, newJson⟩ ∧ tree'.foff ∉ live := by
  have hinv := h.searchInv.inv
  obtain ⟨foff, file', contents', hwrite, hgrows, hinv', hgrowsBy, hlaid,
    hrooted⟩ := @LiveInv.write_fits _ _ _ hinv _ hnew.not_null hnew.fits 0
      typePtr (Or.inr ⟨entry, hentry⟩)
  have hdocTrees := h.docTrees.add hinv hgrows hnew.not_null hnew.broless hentry
    hgrowsBy hlaid hrooted
  have hinFile := hdocTrees.inFile _ List.mem_cons_self
  obtain ⟨slotDocs', hsearchInv, hsame, hpasses⟩ :=
    h.searchInv.add hgrows hgrowsBy hinv' hinFile rfl houtside
  refine ⟨foff, file', contents', slotDocs', _, hwrite, hgrows.catalogued_iff,
    hinv.keeps_grown hgrows, ⟨hsearchInv, hdocTrees⟩, hsame, hpasses, ?_, rfl, ?_⟩
  · rw [NodeCall.note, List.length_append, hlaid.length_eq]
  · exact fun hlive => hgrowsBy.fresh _ hinFile.mem_foffs
      ((hinv.live _).mpr hlive)

theorem TreesInv.found_entity
    (h : TreesInv past query file live contents slotDocs trees)
    (hmem : tree ∈ trees) :
    (pickFound slotDocs tree.foff).entity.famAddr.dadPtr = 0 ∧
      (pickFound slotDocs tree.foff).entity.typePtr = tree.typePtr := by
  have hinFile := h.docTrees.inFile tree hmem
  have hstoresDoc := h.searchInv.storesDoc tree.foff
    (h.docTrees.mem_live.mpr ⟨tree, hmem, hinFile.mem_foffs⟩)
  obtain ⟨item, son, sonFoffs, hitem, hdad, htype, -⟩ := hinFile.shape
  obtain ⟨item', hitem', hentity⟩ := hstoresDoc.item
  have heq : (pickFound slotDocs tree.foff).entity = item.entity := by
    rw [← h.searchInv.inv.holds.stores_unique hitem hitem']
    exact hentity
  rw [heq]
  exact ⟨hdad, htype⟩

/-- What comes of a document that is replaced: the others stay, and so does
what an iterator has before it of them. -/
structure Replaced (past : Str → List Byte) (query : Query)
    (file : File) (live : List ℕ) (contents : Contents) (slotDocs : ℕ → SlotDoc)
    (trees : List DocTree) (tree : DocTree) (newJson : Json) (file' : File)
    (live' : List ℕ) (contents' : Contents) (slotDocs' : ℕ → SlotDoc)
    (tree' : DocTree) : Prop where
  treesInv : TreesInv past query file' live' contents' slotDocs'
    (tree' :: otherTrees trees tree.foff)
  doc : tree'.doc = ⟨tree.doc.typeName, newJson⟩
  fresh : tree'.foff ∉ leftLive live tree.foffs
  length_le : live'.length ≤ live.length + newJson.nodes.length
  types : file.SameTypes contents file' contents'
  sects_le : file.extents.length ≤ file'.extents.length
  same : ∀ foff ∈ leftLive live tree.foffs, slotDocs' foff = slotDocs foff
  ahead : ∀ curSect, (∀ foff ∈ file.ahead past query slotDocs curSect,
      foff ∈ leftLive live tree.foffs) →
    file'.ahead past query slotDocs' curSect =
      file.ahead past query slotDocs curSect

theorem TreesInv.sameAs (h : TreesInv past query file live contents slotDocs trees)
    (hsameAs : file.SameAs contents file') :
    TreesInv past query file' live contents slotDocs trees :=
  ⟨h.searchInv.sameAs hsameAs, h.docTrees.sameAs hsameAs⟩

theorem Replaced.sameAs {file'' : File} {live' : List ℕ} {contents' : Contents}
    {slotDocs' : ℕ → SlotDoc} {tree' : DocTree}
    (h : Replaced past query file live contents slotDocs trees tree newJson
      file' live' contents' slotDocs' tree')
    (hsameAs : file'.SameAs contents' file'') :
    Replaced past query file live contents slotDocs trees tree newJson
      file'' live' contents' slotDocs' tree' := by
  have hextents : file''.extents = file'.extents := hsameAs.sects .extents
  refine ⟨h.treesInv.sameAs hsameAs, h.doc, h.fresh, h.length_le,
    hsameAs.catalogued_iff.trans h.types, ?_, h.same, fun curSect hahead => ?_⟩
  · rw [hextents]
    exact h.sects_le
  · rw [← h.ahead curSect hahead, File.ahead_congr hextents]

theorem TreesInv.replace (h : TreesInv past query file live contents slotDocs trees)
    (hnew : newJson.Sound) (hmem : tree ∈ trees)
    (houtside : Doc.Outside past query ⟨tree.doc.typeName, newJson⟩)
    (hdepth : live.length ≤ depth)
    (hsafe : file.SafeWithout contents
      (file.nodeFoffs depth true tree.foff)) :
    ∃ file₁ foff file' contents' slotDocs' tree',
      fileDelete depth tree.foff true file = .ok () file₁ ∧
      fileWrite newJson 0 tree.typePtr file₁ = .ok foff file' ∧
      Replaced past query file live contents slotDocs trees tree newJson
        file' ((NodeCall.write newJson 0 tree.typePtr).note
          ((NodeCall.delete depth tree.foff).note live file) file₁) contents'
        slotDocs' tree' := by
  obtain ⟨entry, hentry, hname⟩ := (h.docTrees.inFile tree hmem).type
  have hfoffs := (h.docTrees.inFile tree hmem).nodeFoffs_eq h.searchInv.inv hdepth
  obtain ⟨file₁, contents₁, hdelete, htypes₁, hkeeps₁, htreesInv₁⟩ :=
    h.delete_unlinked hmem hdepth hsafe
  rw [← hname] at houtside
  obtain ⟨foff, file', contents', slotDocs', tree', hwrite, htypes, hkeeps,
    htreesInv, hsame, hpasses, hlength, hdoc, hfresh⟩ :=
    htreesInv₁.write hnew (htypes₁.mpr hentry) houtside
  have hlower : (leftLive live tree.foffs).length ≤ live.length :=
    List.length_filter_le _ _
  have hnote : (NodeCall.delete depth tree.foff).note live file =
      leftLive live tree.foffs := by
    rw [NodeCall.note, hfoffs, leftLive]
  refine ⟨file₁, foff, file', contents', slotDocs', tree', hdelete, hwrite, ?_⟩
  rw [hnote]
  refine ⟨htreesInv, by rw [hdoc, hname], hfresh, by omega,
    htypes.trans htypes₁, hkeeps₁.length_le.trans hkeeps.length_le,
    fun foff hleft => (hsame foff hleft).trans (if_pos hleft),
    fun curSect hahead => ?_⟩
  rw [← hkeeps₁.ahead_eq hahead
    (fun foff hcheck => htreesInv₁.searchInv.mem_live hcheck)
    (fun foff hleft => if_pos hleft)]
  exact hkeeps.ahead_eq (fun foff hin => htreesInv₁.searchInv.ahead_live hin)
    hpasses hsame

/-- One round: the document is replaced, and the iterator has the others
before it. -/
theorem TreesInv.round {rest : List ℕ}
    (h : TreesInv past query file live contents slotDocs trees)
    (hnew : newJson.Sound) (hmem : tree ∈ trees)
    (houtside : Doc.Outside past query ⟨tree.doc.typeName, newJson⟩)
    (hdepth : live.length + newJson.nodes.length ≤ depth)
    (hpos : 0 < depth)
    (hiter : iter.HandsOut past query slotDocs file (tree.foff :: rest))
    (hnodup : (tree.foff :: rest).Nodup)
    (hrest : ∀ foff ∈ rest, ∃ other ∈ trees, other.foff = foff)
    (hsafe : file.SafeWithout contents
      (file.nodeFoffs depth true tree.foff)) :
    ∃ tail file₁ foff file₂ iter' file' contents' slotDocs' tree',
      iter.curCol = pickFound slotDocs tree.foff :: tail ∧
      fileDelete depth tree.foff true file = .ok () file₁ ∧
      fileWrite newJson 0 tree.typePtr file₁ = .ok foff file₂ ∧
      iterNext past depth iter file₂ = .ok iter' file' ∧
      Replaced past query file live contents slotDocs trees tree newJson
        file' ((NodeCall.write newJson 0 tree.typePtr).note
          ((NodeCall.delete depth tree.foff).note live file) file₁) contents'
        slotDocs' tree' ∧
      iter'.HandsOut past query slotDocs' file' rest ∧ tree'.foff ∉ rest := by
  obtain ⟨tail, hcol, hsplit⟩ := hiter.cons
  obtain ⟨file₁, foff, file₂, contents₂, slotDocs₂, tree', hdelete, hwrite,
    hreplaced⟩ := h.replace hnew hmem houtside (by omega) hsafe
  have hleft : ∀ foff ∈ rest, foff ∈ leftLive live tree.foffs := by
    intro foff hfoff
    obtain ⟨other, hother, rfl⟩ := hrest foff hfoff
    have hinFile := h.docTrees.inFile other hother
    refine mem_leftLive.mpr ⟨h.docTrees.mem_live.mpr
      ⟨other, hother, hinFile.mem_foffs⟩, fun hin => ?_⟩
    rw [h.docTrees.unique hmem hother hin hinFile.mem_foffs] at hfoff
    exact (List.nodup_cons.mp hnodup).1 hfoff
  have hahead := hreplaced.ahead iter.curSect (fun foff hin =>
    hleft foff (by
      rw [hsplit]
      exact List.mem_append_right _ hin))
  have htail : tail.map (pickFound slotDocs) =
      tail.map (pickFound slotDocs₂) := by
    apply List.map_congr_left
    intro foff hin
    rw [pickFound, pickFound, hreplaced.same foff (hleft foff (by
      rw [hsplit]
      exact List.mem_append_left _ hin))]
  have hsearchInv := hreplaced.treesInv.searchInv
  have hreadsSlot : ∀ foff ∈ file₂.slots,
      file₂.ReadsSlot contents₂ depth foff (slotDocs₂ foff) :=
    hsearchInv.readsSlot (hreplaced.length_le.trans hdepth) hpos
  obtain ⟨iter', file', hnext, hsameAs, hhandsOut⟩ := iterNext_spec hreadsSlot
    (fun hitem => hsearchInv.inv.sound.spelled hitem)
    (fun foff _ => hsearchInv.check foff) hiter.query_eq
    (show iter.curCol.tail = _ by rw [hcol, ← htail]; rfl)
    (fun index hindex =>
      (hiter.sect_lt index hindex).trans_le hreplaced.sects_le)
    (.refl hsearchInv.inv.holds)
  rw [hahead, ← hsplit] at hhandsOut
  refine ⟨_, file₁, foff, file₂, iter', file', contents₂, slotDocs₂, tree',
    hcol, hdelete, hwrite, hnext, hreplaced.sameAs hsameAs,
    hhandsOut.sameAs hsameAs, fun hin => hreplaced.fresh (hleft _ hin)⟩

structure Replaces (newJson : Json) (hits : List ℕ)
    (trees trees' : List DocTree) : Prop where
  docs : (↑(trees'.map DocTree.doc) : Multiset Doc) =
    ↑(trees.map (fun tree =>
      if tree.foff ∈ hits then ⟨tree.doc.typeName, newJson⟩ else tree.doc))
  kept : ∀ tree ∈ trees, tree.foff ∉ hits → tree ∈ trees'

theorem Replaces.cons {rest : List ℕ} {tree' : DocTree} {trees' : List DocTree}
    (hperm : trees.Perm (tree :: otherTrees trees tree.foff))
    (hdoc : tree'.doc = ⟨tree.doc.typeName, newJson⟩)
    (hnot : tree'.foff ∉ rest)
    (h : Replaces newJson rest (tree' :: otherTrees trees tree.foff)
      trees') : Replaces newJson (tree.foff :: rest) trees trees' where
  docs := by
    rw [h.docs, Multiset.coe_eq_coe]
    refine List.Perm.trans ?_ (hperm.map _).symm
    rw [List.map_cons, List.map_cons, if_neg hnot, hdoc,
      if_pos List.mem_cons_self]
    apply List.Perm.cons
    rw [List.map_congr_left]
    intro other hmem
    have hne := (mem_otherTrees.mp hmem).2
    by_cases hin : other.foff ∈ rest
    · rw [if_pos hin, if_pos (List.mem_cons_of_mem _ hin)]
    · rw [if_neg hin, if_neg (List.not_mem_cons_of_ne_of_not_mem hne hin)]
  kept := by
    intro other hmem hout
    rw [List.mem_cons, not_or] at hout
    exact h.kept other (List.mem_cons_of_mem _
      (mem_otherTrees.mpr ⟨hmem, hout.1⟩)) hout.2

/-- All documents that the iterator has before it are replaced.  The induction
is on what is before it. -/
theorem TreesInv.userUpdateFrom_spec {hits : List ℕ} {rounds : ℕ}
    (h : TreesInv past query file live contents slotDocs trees)
    (hnew : newJson.Sound)
    (houtside : ∀ tree ∈ trees,
      Doc.Outside past query ⟨tree.doc.typeName, newJson⟩)
    (hdepth : live.length + hits.length * newJson.nodes.length ≤ depth)
    (hpos : 0 < depth) (hiter : iter.HandsOut past query slotDocs file hits)
    (hnodup : hits.Nodup)
    (hhits : ∀ foff ∈ hits, ∃ tree ∈ trees, tree.foff = foff)
    (hborders : NodeCalls.All (fun _ file nodeCall => nodeCall.KeepsBorders file) live
      (updateNodeCallsFrom past depth newJson rounds iter file))
    (hrounds : hits.length < rounds) :
    ∃ file' contents' slotDocs' trees',
      userUpdateFrom past depth newJson rounds iter file = .ok () file' ∧
      file.SameTypes contents file' contents' ∧
      TreesInv past query file' (NodeCalls.note live
          (updateNodeCallsFrom past depth newJson rounds iter file)) contents'
        slotDocs' trees' ∧
      Replaces newJson hits trees trees' := by
  induction hits generalizing file live contents slotDocs trees rounds iter with
  | nil =>
      obtain ⟨rounds, rfl⟩ := Nat.exists_eq_add_one_of_ne_zero
        (Nat.ne_of_gt hrounds)
      rw [userUpdateFrom, updateNodeCallsFrom, hiter.nil]
      refine ⟨file, contents, slotDocs, trees, rfl, Iff.rfl, h, ?_,
        fun _ hmem _ => hmem⟩
      rw [List.map_congr_left]
      exact fun tree _ => (if_neg List.not_mem_nil).symm
  | cons hit rest ih =>
      rw [List.length_cons] at hrounds
      rw [List.length_cons, Nat.add_one_mul] at hdepth
      obtain ⟨rounds, rfl⟩ := Nat.exists_eq_add_one_of_ne_zero
        (show rounds ≠ 0 by omega)
      have hrounds' : rest.length < rounds := by omega
      obtain ⟨tree, hmem, rfl⟩ := hhits hit List.mem_cons_self
      obtain ⟨hdad, htype⟩ := h.found_entity hmem
      obtain ⟨tail, hcol, -⟩ := hiter.cons
      rw [updateNodeCallsFrom, hcol] at hborders ⊢
      dsimp only at hborders ⊢
      rw [hdad, htype] at hborders ⊢
      have hkept : file.BordersKept (file.nodeFoffs depth true tree.foff) :=
        hborders.1
      obtain ⟨-, file₁, foff, file₂, iter', file₃, contents₃, slotDocs₃, tree',
        -, hdelete, hwrite, hnext, hreplaced, hhandsOut, hnot⟩ :=
        h.round hnew hmem (houtside tree hmem) (by omega) hpos hiter hnodup
          (fun foff hin => hhits foff (List.mem_cons_of_mem _ hin))
          (hkept.safe h.searchInv.inv.holds)
      have hfoff : (pickFound slotDocs tree.foff).foff = tree.foff := rfl
      rw [hfoff, hdelete, Outcome.nodeCalls] at hborders ⊢
      rw [hwrite, Outcome.nodeCalls] at hborders ⊢
      rw [hnext, Outcome.nodeCalls] at hborders ⊢
      have hlength := hreplaced.length_le
      have hothers : ∀ foff ∈ rest, ∃ other ∈
          tree' :: otherTrees trees tree.foff, other.foff = foff := by
        intro foff hin
        obtain ⟨other, hother, rfl⟩ := hhits foff (List.mem_cons_of_mem _ hin)
        refine ⟨other, List.mem_cons_of_mem _ (mem_otherTrees.mpr
          ⟨hother, fun heq => ?_⟩), rfl⟩
        rw [heq] at hin
        exact (List.nodup_cons.mp hnodup).1 hin
      have houtside' : ∀ other ∈ tree' :: otherTrees trees tree.foff,
          Doc.Outside past query ⟨other.doc.typeName, newJson⟩ := by
        intro other hother
        rcases List.mem_cons.mp hother with rfl | hother
        · rw [hreplaced.doc]
          exact houtside tree hmem
        · exact houtside other (mem_otherTrees.mp hother).1
      obtain ⟨file', contents', slotDocs', trees', hrest, htypes, htreesInv,
        hreplaces⟩ := ih hreplaced.treesInv houtside' (by omega) hhandsOut
          (List.nodup_cons.mp hnodup).2 hothers hborders.2.2 hrounds'
      refine ⟨file', contents', slotDocs', trees', ?_,
        htypes.trans hreplaced.types, htreesInv,
        .cons (h.docTrees.perm_cons hmem) hreplaced.doc hnot hreplaces⟩
      rw [userUpdateFrom, hcol]
      dsimp only
      rw [hdad, htype, hfoff, Prog.bind_of_ok hdelete,
        Prog.bind_of_ok hwrite, Prog.bind_of_ok hnext, hrest]

end Loop

end NosqlDbms
