import NosqlDbms.DeleteRun
import NosqlDbms.UserUpdate
import Mathlib

/-!
# The file is the store

Runs of the commands on the file and, next to it, on the store.  Where
deletions and updates hit whole documents, the file holds at each time the
documents of the store and no other ones.
-/

namespace NosqlDbms

def Store.step (call : LiveCall) (store : Store) : Store :=
  match call with
  | .addType type => store.addType type
  | .apply past _ _ command => store.apply past command

structure StoreState where
  base : LiveState
  store : Store

def storeStep (call : LiveCall) (state : StoreState) : Option StoreState :=
  (liveStep call state.base).map (fun base => ⟨base, state.store.step call⟩)

/-- The query holds of whole documents only, and it is false of a cleared
slot; there is room for the recursion and for the rounds of the loop. -/
structure StoreState.Targets (state : StoreState) (past : Str → List Byte)
    (depth rounds : ℕ) (query : Query) : Prop where
  whole : ∀ doc ∈ state.store.docs, doc.Whole past query
  cleared : queryCheck past query clearedJson none = some false
  depth_lt : state.base.live.length < depth
  rounds_lt : (state.base.hits past depth query).length < rounds

/-- The query is false of what the documents are replaced with, and there is
room for all of it. -/
structure StoreState.Updates (state : StoreState) (past : Str → List Byte)
    (depth rounds : ℕ) (command : Command) : Prop where
  targets : state.Targets past depth rounds command.query
  sound : command.json.Sound
  outside : ∀ doc ∈ state.store.docs,
    Doc.Outside past command.query ⟨doc.typeName, command.json⟩
  depth_le : state.base.live.length +
    (state.base.hits past depth command.query).length *
      command.json.nodes.length ≤ depth
  borders : NodeCalls.All (fun _ file nodeCall => nodeCall.KeepsBorders file)
    state.base.live (commandNodeCalls past depth rounds command state.base.file)

structure StoreState.Deletes (state : StoreState) (past : Str → List Byte)
    (depth rounds : ℕ) (query : Query) : Prop where
  targets : state.Targets past depth rounds query
  borders : state.base.file.BordersKept
    (state.base.file.treeFoffs depth (state.base.hits past depth query))

/-- There is room for the recursion and for the rounds of the loop, and the
query has a result everywhere and is false of a cleared slot. -/
structure StoreState.Reads (state : StoreState) (past : Str → List Byte)
    (depth rounds : ℕ) (query : Query) : Prop where
  depth_lt : state.base.live.length < depth
  rounds_lt : state.base.file.slots.length < rounds
  defined : ∀ part ∈ state.store.parts, part.check past query ≠ none
  cleared : queryCheck past query clearedJson none = some false

/-- A type is new or the same again, and a document is one without a brother
whose nodes fit. -/
def LiveCall.Fair (state : StoreState) : LiveCall → Prop
  | .addType type => type.Named ∧
      ∀ known ∈ state.store.types, known.name = type.name → known = type
  | .apply past depth rounds command =>
      match command.type with
      | .insert => command.json.Sound
      | .read => True
      | .update => state.Updates past depth rounds command
      | .delete => state.Deletes past depth rounds command.query

/-- The states reached from `file_ctor` and the store without documents. -/
abbrev DocStoreRun : (StoreState → LiveCall → Prop) → StoreState → Prop :=
  Run (fun state => state.base.live = [] ∧ state.store = ⟨[], 0⟩ ∧
      ∃ file₀, fileCtor file₀ = .ok () state.base.file)
    (fun call state state' => storeStep call state = some state')

/-- The documents of the store are in the file. -/
structure StoreInv (state : StoreState) (contents : Contents)
    (trees : List DocTree) : Prop where
  inv : LiveInv state.base.file state.base.live contents
  docTrees : DocTrees state.base.file state.base.live contents trees
  docs : state.store.docs = ↑(trees.map DocTree.doc)
  types : ∀ type, type ∈ state.store.types ↔ ∃ foff entry,
    state.base.file.Catalogued contents foff entry ∧ entry.type = type
  agrees : state.store.Agrees

namespace StoreInv

variable {state : StoreState} {contents : Contents} {trees : List DocTree}

theorem init {file₀ : File} (hlive : state.base.live = [])
    (hstore : state.store = ⟨[], 0⟩)
    (hctor : fileCtor file₀ = .ok () state.base.file) :
    StoreInv state ⟨fun _ _ => none, fun _ => []⟩ [] where
  inv := by
    rw [hlive]
    exact LiveInv.init hctor
  docTrees := by
    rw [hlive]
    exact .empty _ _
  docs := by rw [hstore]; rfl
  types := by
    intro type
    rw [hstore]
    refine iff_of_false List.not_mem_nil ?_
    rintro ⟨foff, entry, ⟨index, head, soff, -, hmem, -⟩, -⟩
    exact absurd hmem List.not_mem_nil
  agrees := by
    rw [hstore]
    exact fun type hmem => absurd hmem List.not_mem_nil

theorem sameAs (h : StoreInv state contents trees) {file : File}
    (hsameAs : state.base.file.SameAs contents file) :
    StoreInv ⟨⟨file, state.base.live⟩, state.store⟩ contents trees where
  inv := h.inv.sameAs hsameAs
  docTrees := h.docTrees.sameAs hsameAs
  docs := h.docs
  types := by
    intro type
    rw [h.types]
    exact exists_congr (fun foff => exists_congr (fun entry =>
      and_congr_left' hsameAs.catalogued_iff.symm))
  agrees := h.agrees

/-! ## Types and documents more -/

theorem addType (h : StoreInv state contents trees) {type : DocType}
    (hnamed : type.Named)
    (hsame : ∀ known ∈ state.store.types, known.name = type.name →
      known = type) {file : File}
    (hfinal : (userAddType type state.base.file).final = some file) :
    ∃ contents', StoreInv
      ⟨⟨file, state.base.live⟩, state.store.addType type⟩ contents' trees := by
  have hagrees := h.agrees.addType hsame
  rcases h.inv.holds.add_type hnamed with
    ⟨hfits, foff, file', contents', entry, hadd, hput⟩ |
    ⟨hbig, file', contents', hadd, hrecat, hcatalogued, hcleared⟩
  · rw [userAddType, Prog.bind_of_ok hadd, Prog.pure_apply,
      Outcome.final_ok, Option.some.injEq] at hfinal
    subst hfinal
    have hkept : ∀ {foff entry},
        state.base.file.Catalogued contents foff entry →
        file'.Catalogued contents' foff entry :=
      fun hentry => hput.catalogued.mpr (Or.inr hentry)
    refine ⟨contents', h.inv.recatalogued hput.recatalogues hkept
      hput.cleared, h.docTrees.congr hput.recatalogues.stores_iff hkept,
      (Store.docs_addType type).trans h.docs, fun type' => ?_, hagrees⟩
    rw [Store.mem_types_addType, and_iff_left hfits, h.types]
    constructor
    · rintro (rfl | ⟨foff', entry', hentry, htype⟩)
      · exact ⟨foff, entry, hput.catalogued.mpr (Or.inl ⟨rfl, rfl⟩),
          hput.type_eq⟩
      · exact ⟨foff', entry', hkept hentry, htype⟩
    · rintro ⟨foff', entry', hentry, htype⟩
      rcases hput.catalogued.mp hentry with ⟨-, rfl⟩ | hold
      · exact Or.inl (htype.symm.trans hput.type_eq)
      · exact Or.inr ⟨foff', entry', hold, htype⟩
  · rw [userAddType, Prog.bind_of_failed hadd, Outcome.final_failed,
      Option.some.injEq] at hfinal
    subst hfinal
    refine ⟨contents', h.inv.recatalogued hrecat hcatalogued.mpr hcleared,
      h.docTrees.congr hrecat.stores_iff hcatalogued.mpr,
      (Store.docs_addType type).trans h.docs, fun type' => ?_, hagrees⟩
    rw [Store.mem_types_addType, h.types]
    constructor
    · rintro (⟨-, hfits⟩ | ⟨foff, entry, hentry, htype⟩)
      · omega
      · exact ⟨foff, entry, hcatalogued.mpr hentry, htype⟩
    · rintro ⟨foff, entry, hentry, htype⟩
      exact Or.inr ⟨foff, entry, hcatalogued.mp hentry, htype⟩

theorem accepts_eq (h : StoreInv state contents trees) {foff : ℕ}
    {entry : TypeEntry}
    (hentry : state.base.file.Catalogued contents foff entry) (json : Json) :
    state.store.accepts entry.type.name json =
      jsonIsApplyType json entry.type :=
  h.agrees.accepts_eq ((h.types _).mpr ⟨foff, entry, hentry, rfl⟩) json

theorem insert (h : StoreInv state contents trees) {command : Command}
    (hsound : command.json.Sound) :
    ∃ file contents' trees',
      StoreInv ⟨⟨file, NodeCalls.note state.base.live
          (insertNodeCalls command state.base.file)⟩,
        state.store.insert command.typeName command.json⟩ contents' trees' ∧
      ((state.store.accepts command.typeName command.json = true ∧
        ∃ foff, userWrite command.json command.typeName state.base.file =
          .ok foff file) ∨
      (state.store.accepts command.typeName command.json = false ∧
        userWrite command.json command.typeName state.base.file =
          .failed file)) := by
  rcases h.inv.userWrite_cases command with
    ⟨file₁, hquiet, hwrite, hnodeCalls, hwhy⟩ |
    ⟨file₁, foff, entry, hquiet, hentry, hname, happlies, hwrite, hnodeCalls⟩
  · have hrefused : state.store.accepts command.typeName command.json =
        false := by
      rcases hwhy with hnone | ⟨foff, entry, hentry, hname, happlies⟩
      · rw [Bool.eq_false_iff, Ne, Store.accepts_iff]
        rintro ⟨type, htype, hname, -⟩
        obtain ⟨foff, entry, hentry, rfl⟩ := (h.types type).mp htype
        exact hnone hentry hname
      · rw [← hname, h.accepts_eq hentry, happlies]
    refine ⟨file₁, contents, trees, ?_, Or.inr ⟨hrefused, hwrite⟩⟩
    rw [hnodeCalls, Store.insert, if_neg (by rw [hrefused]; exact
      Bool.false_ne_true)]
    exact h.sameAs (hquiet.sameAs h.inv.holds)
  · have haccepted : state.store.accepts command.typeName command.json =
        true := by
      rw [← hname, h.accepts_eq hentry, happlies]
    have hsameAs := hquiet.sameAs h.inv.holds
    have hinv₁ := h.inv.sameAs hsameAs
    have hentry₁ : file₁.Catalogued contents foff entry :=
      hquiet.catalogued_iff.mpr hentry
    obtain ⟨root, file', contents', hok, hgrows, hinv, hgrowsBy, hlaid,
      hrooted⟩ := @LiveInv.write_fits _ _ _ hinv₁ _ hsound.not_null
        hsound.fits 0 foff (Or.inr ⟨entry, hentry₁⟩)
    have hdocTrees := (h.docTrees.sameAs hsameAs).add hinv₁ hgrows
      hsound.not_null hsound.broless hentry₁ hgrowsBy hlaid hrooted
    have hinsert : state.store.insert command.typeName command.json =
        ⟨state.store.types,
          ⟨command.typeName, command.json⟩ ::ₘ state.store.docs⟩ :=
      if_pos haccepted
    rw [hnodeCalls, hinsert]
    refine ⟨file', contents', _, ⟨hinv, hdocTrees, ?_, fun type => ?_, h.agrees⟩,
      Or.inl ⟨haccepted, root, hwrite.trans hok⟩⟩
    · rw [h.docs, ← hname]
      rfl
    · rw [h.types]
      exact exists_congr (fun foff => exists_congr (fun entry =>
        and_congr_left' (hquiet.catalogued_iff.symm.trans
          hgrows.catalogued_iff.symm)))

/-! ## Documents less, and documents replaced -/

variable {past : Str → List Byte} {depth rounds : ℕ} {query : Query}

theorem treesInv (h : StoreInv state contents trees)
    (htargets : state.Targets past depth rounds query) :
    (∀ tree ∈ trees, tree.doc.Whole past query) ∧ ∃ slotDocs,
      TreesInv past query state.base.file state.base.live contents slotDocs
        trees ∧
      state.base.hits past depth query =
        picks past query slotDocs state.base.file.slots := by
  have hwhole : ∀ tree ∈ trees, tree.doc.Whole past query := by
    intro tree hmem
    apply htargets.whole
    rw [h.docs]
    exact Multiset.mem_coe.mpr (List.mem_map_of_mem hmem)
  obtain ⟨slotDocs, hstoresDoc, hgone⟩ := h.inv.exists_slotDocs
  have hcleared : clearedDoc.check past query = some false :=
    htargets.cleared
  have hcheck : ∀ foff, (slotDocs foff).check past query ≠ none := by
    intro foff
    by_cases hlive : foff ∈ state.base.live
    · obtain ⟨tree, hmem, hfoff⟩ := h.docTrees.mem_live.mp hlive
      exact (hwhole tree hmem).1 _ (h.docTrees.part_mem h.inv hstoresDoc hmem hfoff)
    · rw [hgone foff hlive, hcleared]
      exact Option.some_ne_none false
  refine ⟨hwhole, slotDocs, ⟨⟨h.inv, hstoresDoc, hgone, hcheck, hcleared⟩, h.docTrees⟩,
    List.filter_congr (fun foff hslot => ?_)⟩
  rw [h.inv.queryAt hstoresDoc hgone htargets.depth_lt hslot]

theorem delete (h : StoreInv state contents trees)
    (hdeletes : state.Deletes past depth rounds query) :
    ∃ file contents' trees',
      userDelete past depth rounds query state.base.file = .ok () file ∧
      StoreInv ⟨⟨file, NodeCalls.note state.base.live
          ((iterCtor past depth query state.base.file).nodeCalls
            (deleteNodeCallsFrom past depth rounds))⟩,
        state.store.delete past query⟩ contents' trees' := by
  have htargets := hdeletes.targets
  obtain ⟨hwhole, slotDocs, ⟨hsearchInv, hdocTrees⟩, hhits⟩ := h.treesInv htargets
  have hborders := hdeletes.borders
  have hrounds := htargets.rounds_lt
  have hdepth := htargets.depth_lt.le
  rw [hhits] at hborders hrounds
  obtain ⟨file, contents', hdelete, hnote, herases, hsearchInv'⟩ :=
    hsearchInv.userDelete hdepth (Nat.zero_lt_of_lt htargets.depth_lt)
      (fun foff hpick => by
        obtain ⟨tree, hmem, hfoff, -⟩ :=
          (hdocTrees.mem_picks_iff hsearchInv hwhole).mp hpick
        exact (hdocTrees.isRoot_iff h.inv).mpr ⟨tree, hmem, hfoff⟩)
      (hborders.safe h.inv.holds) hrounds
  rw [← hnote] at hsearchInv'
  have hdocTrees' := hdocTrees.erased herases
    (fun foff => hdocTrees.mem_treeFoffs_iff hsearchInv hwhole hdepth)
  rw [← hnote] at hdocTrees'
  refine ⟨file, contents', _, hdelete, hsearchInv'.inv, hdocTrees', ?_,
    fun type => ?_, h.agrees⟩
  · rw [Store.delete, h.docs, Multiset.filter_coe, List.filter_map]
    simp only [Function.comp_def, Bool.decide_eq_false]
  · rw [Store.delete, h.types]
    exact exists_congr (fun foff => exists_congr (fun entry =>
      and_congr_left' herases.catalogued_iff.symm))

/-- What an UPDATE comes to: the documents that the query is false of stay
where they are. -/
theorem update (h : StoreInv state contents trees) {command : Command}
    (hupdate : command.type = .update)
    (hupdates : state.Updates past depth rounds command) :
    ∃ file contents' trees',
      userUpdate past depth rounds command.query command.json
        state.base.file = .ok () file ∧
      StoreInv ⟨⟨file, NodeCalls.note state.base.live
          (commandNodeCalls past depth rounds command state.base.file)⟩,
        state.store.update past command.query command.json⟩ contents'
        trees' ∧
      ∀ tree ∈ trees, tree.doc.self.meets past command.query = false →
        tree ∈ trees' := by
  have htargets := hupdates.targets
  obtain ⟨hwhole, slotDocs, htreesInv, hhits⟩ := h.treesInv htargets
  have hsearchInv := htreesInv.searchInv
  have hpos := Nat.zero_lt_of_lt htargets.depth_lt
  obtain ⟨iter, file₁, hctor, hsameAs, hhandsOut⟩ := iterCtor_spec
    (hsearchInv.readsSlot htargets.depth_lt.le hpos)
    (fun hitem => h.inv.sound.spelled hitem)
    (fun foff _ => hsearchInv.check foff) h.inv.holds
  have hborders := hupdates.borders
  have hdepth := hupdates.depth_le
  have hrounds := htargets.rounds_lt
  rw [commandNodeCalls, hupdate] at hborders ⊢
  dsimp only at hborders ⊢
  rw [hctor, Outcome.nodeCalls] at hborders ⊢
  rw [hhits] at hdepth hrounds
  have hmem_picks : ∀ {foff}, foff ∈ picks past command.query slotDocs
      state.base.file.slots ↔ ∃ tree ∈ trees, tree.foff = foff ∧
        tree.doc.self.meets past command.query = true :=
    h.docTrees.mem_picks_iff hsearchInv hwhole
  have hpicks : ∀ tree ∈ trees, tree.foff ∈ picks past command.query slotDocs
      state.base.file.slots ↔
        tree.doc.self.meets past command.query = true := by
    intro tree hmem
    rw [hmem_picks]
    constructor
    · rintro ⟨other, hother, heq, hmeets⟩
      have hfirst := (h.docTrees.inFile other hother).mem_foffs
      rw [heq] at hfirst
      rw [← h.docTrees.unique hmem hother (h.docTrees.inFile tree hmem).mem_foffs
        hfirst]
      exact hmeets
    · exact fun hmeets => ⟨tree, hmem, rfl, hmeets⟩
  obtain ⟨file, contents', slotDocs', trees', hok, htypes, htreesInv',
    hreplaces⟩ := (htreesInv.sameAs hsameAs).userUpdateFrom_spec hupdates.sound
      (fun tree hmem => hupdates.outside tree.doc (by
        rw [h.docs]
        exact Multiset.mem_coe.mpr (List.mem_map_of_mem hmem)))
      hdepth hpos (hhandsOut.sameAs hsameAs)
      (h.inv.holds.slots_nodup.filter _)
      (fun foff hpick => by
        obtain ⟨tree, hmem, hfoff, -⟩ := hmem_picks.mp hpick
        exact ⟨tree, hmem, hfoff⟩)
      hborders hrounds
  refine ⟨file, contents', trees', ?_, ⟨htreesInv'.searchInv.inv, htreesInv'.docTrees,
    ?_, fun type => ?_, h.agrees⟩, fun tree hmem hmeets => ?_⟩
  · rw [userUpdate, Prog.bind_of_ok hctor, hok]
  · rw [hreplaces.docs, Store.update, h.docs, Multiset.map_coe,
      List.map_map, Multiset.coe_eq_coe, List.map_congr_left]
    intro tree hmem
    rw [Function.comp_apply]
    exact if_congr (hpicks tree hmem).symm rfl rfl
  · rw [Store.update, h.types]
    exact exists_congr (fun foff => exists_congr (fun entry =>
      and_congr_left' ((htypes.trans hsameAs.catalogued_iff).symm)))
  · apply hreplaces.kept tree hmem
    rw [hpicks tree hmem, hmeets]
    exact Bool.false_ne_true

/-! ## One step -/

theorem step (h : StoreInv state contents trees) {call : LiveCall}
    (hfair : call.Fair state) {state' : StoreState}
    (hstep : storeStep call state = some state') :
    ∃ contents' trees', StoreInv state' contents' trees' := by
  rw [storeStep, Option.map_eq_some_iff] at hstep
  obtain ⟨base, hbase, rfl⟩ := hstep
  cases call with
  | addType type =>
      rw [liveStep, Option.map_eq_some_iff] at hbase
      obtain ⟨file, hfinal, rfl⟩ := hbase
      obtain ⟨contents', hinv⟩ := h.addType hfair.1 hfair.2 hfinal
      exact ⟨contents', trees, hinv⟩
  | apply past depth rounds command =>
      rw [liveStep, Option.map_eq_some_iff] at hbase
      obtain ⟨file, hfinal, rfl⟩ := hbase
      obtain ⟨type, typeName, query, json⟩ := command
      cases type with
      | insert =>
          rw [userApply, Prog.final_bind_pure] at hfinal
          obtain ⟨file', contents', trees', hinv, houtcome⟩ :=
            @StoreInv.insert _ _ _ h ⟨.insert, typeName, query, json⟩ hfair
          have hfile : file' = file := by
            rcases houtcome with ⟨-, foff, hok⟩ | ⟨-, hfailed⟩
            · rw [hok, Outcome.final_ok, Option.some.injEq] at hfinal
              exact hfinal
            · rw [hfailed, Outcome.final_failed, Option.some.injEq] at hfinal
              exact hfinal
          exact ⟨contents', trees', hfile ▸ hinv⟩
      | read =>
          rw [userApply, Prog.final_bind_pure] at hfinal
          have hsameAs : state.base.file.SameAs contents file :=
            ((keptBySearch_sameAs.iterCtor past depth
              (fun _ _ => trivial)).final (.refl h.inv.holds) hfinal).1
          exact ⟨contents, trees, h.sameAs hsameAs⟩
      | update =>
          rw [userApply, Prog.final_bind_pure] at hfinal
          obtain ⟨file', contents', trees', hok, hinv, -⟩ := h.update rfl hfair
          rw [hok, Outcome.final_ok, Option.some.injEq] at hfinal
          exact ⟨contents', trees', hfinal ▸ hinv⟩
      | delete =>
          rw [userApply, Prog.final_bind_pure] at hfinal
          obtain ⟨file', contents', trees', hok, hinv⟩ := h.delete hfair
          rw [hok, Outcome.final_ok, Option.some.injEq] at hfinal
          exact ⟨contents', trees', hfinal ▸ hinv⟩

end StoreInv

/-! ## Whole runs -/

/-- The roots in the file are the documents of the store with the names of
their types, an INSERT is taken when the store accepts the document, and a
READ yields what it does in the store. -/
structure StoreLaw (state : StoreState) : Prop where
  roots : ∃ (roots : List ℕ) (docs : List Doc), roots.Nodup ∧
    (∀ foff, foff ∈ roots ↔
      state.base.file.IsRoot state.base.live foff) ∧
    ↑docs = state.store.docs ∧
    List.Forall₂ (fun foff doc => state.base.file.Reads foff doc.json ∧
      ∃ file, fileReadTypeName (state.base.file.entityAt foff).typePtr
        state.base.file = .ok (some doc.typeName) file) roots docs
  inserts : ∀ (typeName : Str) (json : Json), json.Sound → ∃ file,
    (state.store.accepts typeName json = true ∧ ∃ foff,
      userWrite json typeName state.base.file = .ok foff file) ∨
    (state.store.accepts typeName json = false ∧
      userWrite json typeName state.base.file = .failed file)
  reads : ∀ (past : Str → List Byte) (depth rounds : ℕ) (query : Query),
    state.Reads past depth rounds query →
    ∃ found file, iterCollect past depth query rounds state.base.file =
        .ok found file ∧
      (↑(found.map Found.json) : Multiset Json) =
        state.store.read past query

theorem StoreInv.root {state : StoreState} {contents : Contents}
    {trees : List DocTree} (h : StoreInv state contents trees) {tree : DocTree}
    (hmem : tree ∈ trees) :
    state.base.file.Reads tree.foff tree.doc.json ∧
      ∃ file, fileReadTypeName (state.base.file.entityAt tree.foff).typePtr
        state.base.file = .ok (some tree.doc.typeName) file := by
  have hinFile := h.docTrees.inFile tree hmem
  obtain ⟨item, son, sonFoffs, hitem, -, htype, -⟩ := hinFile.shape
  obtain ⟨entry, hentry, hname⟩ := hinFile.type
  refine ⟨h.inv.holds.reads hinFile.laid.stored hinFile.not_null, ?_⟩
  rw [h.inv.holds.entityAt hitem, htype, ← hname]
  exact h.inv.holds.read_type_name hentry

theorem StoreInv.law {state : StoreState} {contents : Contents}
    {trees : List DocTree} (h : StoreInv state contents trees) :
    StoreLaw state where
  roots := by
    refine ⟨trees.map DocTree.foff, trees.map DocTree.doc, ?_, fun foff => ?_,
      h.docs.symm, ?_⟩
    · apply List.Nodup.map_on _ h.docTrees.nodup_trees
      intro tree hmem other hother heq
      apply h.docTrees.unique hother hmem (h.docTrees.inFile other hother).mem_foffs
      rw [← heq]
      exact (h.docTrees.inFile tree hmem).mem_foffs
    · rw [List.mem_map]
      exact (h.docTrees.isRoot_iff h.inv).symm
    · rw [List.forall₂_map_left_iff, List.forall₂_map_right_iff,
        List.forall₂_same]
      exact fun tree hmem => h.root hmem
  inserts := by
    intro typeName json hsound
    obtain ⟨file, -, -, -, houtcome⟩ := @StoreInv.insert _ _ _ h
      ⟨.insert, typeName, queryNew, json⟩ hsound
    exact ⟨file, houtcome⟩
  reads := by
    rintro past depth rounds query ⟨hdepth, hrounds, hdefined, hcleared⟩
    obtain ⟨slotDocs, hstoresDoc, hgone⟩ := h.inv.exists_slotDocs
    have hcheck : ∀ foff ∈ state.base.file.slots,
        (slotDocs foff).check past query ≠ none := by
      intro foff _
      by_cases hlive : foff ∈ state.base.live
      · obtain ⟨tree, hmem, hfoff⟩ := h.docTrees.mem_live.mp hlive
        apply hdefined (slotDocs foff).part
        rw [Store.parts, h.docs, Multiset.mem_bind]
        exact ⟨tree.doc, Multiset.mem_coe.mpr (List.mem_map_of_mem hmem),
          h.docTrees.part_mem h.inv hstoresDoc hmem hfoff⟩
      · rw [hgone foff hlive]
        have hfalse : clearedDoc.check past query = some false := hcleared
        rw [hfalse]
        exact Option.some_ne_none false
    have hfinds : FindsIn past query slotDocs state.base.file contents
        state.base.file.slots
        (iterCollect past depth query rounds state.base.file) :=
      iterCollect_spec
        (h.inv.readsSlot hstoresDoc hgone hdepth.le (Nat.zero_lt_of_lt hdepth))
        (fun hitem => h.inv.sound.spelled hitem) h.inv.holds hrounds
    obtain ⟨file, hcollect, -⟩ := hfinds.ok hcheck
    refine ⟨_, file, hcollect, ?_⟩
    rw [List.map_map]
    exact h.docTrees.read_eq h.inv hstoresDoc hgone hcleared h.docs

theorem docStoreRun_inv {state : StoreState}
    {allowed : StoreState → LiveCall → Prop}
    (hallowed : ∀ {state call}, allowed state call → call.Fair state)
    (run : DocStoreRun allowed state) :
    ∃ contents trees, StoreInv state contents trees := by
  apply run.invariant
  · rintro state ⟨hlive, hstore, file₀, hctor⟩
    exact ⟨_, [], StoreInv.init hlive hstore hctor⟩
  · rintro state call state' ⟨contents, trees, h⟩ hcall hstep
    exact h.step (hallowed hcall) hstep

/-! ## Conditions, evaluated -/

def Store.allDocs (store : Store) (test : Doc → Bool) : Bool :=
  (store.docs.filter (fun doc => test doc = false)).card == 0

theorem Store.of_allDocs {store : Store} {test : Doc → Bool}
    (h : store.allDocs test = true) : ∀ doc ∈ store.docs, test doc = true := by
  rw [allDocs, beq_iff_eq, Multiset.card_eq_zero,
    Multiset.filter_eq_nil] at h
  exact fun doc hmem => eq_true_of_ne_false (h doc hmem)

def Doc.wholeTest (past : Str → List Byte) (query : Query) (doc : Doc) :
    Bool :=
  doc.parts.all (fun part => (part.check past query).isSome) &&
    doc.inner.all (fun part => !part.meets past query)

theorem Doc.whole_of_test {past : Str → List Byte} {query : Query}
    {doc : Doc} (htest : doc.wholeTest past query = true) :
    doc.Whole past query := by
  simp only [wholeTest, Bool.and_eq_true, List.all_eq_true,
    Bool.not_eq_true'] at htest
  exact ⟨fun part hmem => Option.isSome_iff_ne_none.mp (htest.1 part hmem),
    htest.2⟩

def Json.soundTest (json : Json) : Bool :=
  !json.isNull && json.broless && decide json.Fits

theorem Json.sound_of_test {json : Json} (htest : json.soundTest = true) :
    json.Sound := by
  simp only [soundTest, Bool.and_eq_true, Bool.not_eq_true',
    decide_eq_true_eq] at htest
  exact ⟨htest.1.1, htest.1.2, htest.2⟩

def StoreState.targetsTest (state : StoreState) (past : Str → List Byte)
    (depth rounds : ℕ) (query : Query) : Bool :=
  state.store.allDocs (fun doc => doc.wholeTest past query) &&
    queryCheck past query clearedJson none == some false &&
    decide (state.base.live.length < depth) &&
    decide ((state.base.hits past depth query).length < rounds)

theorem StoreState.targets_of_test {state : StoreState}
    {past : Str → List Byte} {depth rounds : ℕ} {query : Query}
    (htest : state.targetsTest past depth rounds query = true) :
    state.Targets past depth rounds query := by
  simp only [targetsTest, Bool.and_eq_true, beq_iff_eq,
    decide_eq_true_eq] at htest
  obtain ⟨⟨⟨hwhole, hcleared⟩, hdepth⟩, hrounds⟩ := htest
  exact ⟨fun doc hmem => Doc.whole_of_test (Store.of_allDocs hwhole doc hmem),
    hcleared, hdepth, hrounds⟩

def StoreState.updatesTest (state : StoreState) (past : Str → List Byte)
    (depth rounds : ℕ) (command : Command) : Bool :=
  state.targetsTest past depth rounds command.query &&
    command.json.soundTest &&
    state.store.allDocs (fun doc =>
      (Doc.mk doc.typeName command.json).parts.all (fun part =>
        part.check past command.query == some false)) &&
    decide (state.base.live.length +
      (state.base.hits past depth command.query).length *
        command.json.nodes.length ≤ depth) &&
    (commandNodeCalls past depth rounds command state.base.file).passes
      (fun _ file nodeCall => nodeCall.bordersTest file) state.base.live

theorem StoreState.updates_of_test {state : StoreState}
    {past : Str → List Byte} {depth rounds : ℕ} {command : Command}
    (htest : state.updatesTest past depth rounds command = true) :
    state.Updates past depth rounds command := by
  simp only [updatesTest, Bool.and_eq_true, decide_eq_true_eq] at htest
  obtain ⟨⟨⟨⟨htargets, hsound⟩, houtside⟩, hdepth⟩, hborders⟩ := htest
  refine ⟨targets_of_test htargets, Json.sound_of_test hsound,
    fun doc hmem part hpart => ?_, hdepth,
    NodeCalls.all_of_passes hborders NodeCall.keepsBorders_of_test⟩
  exact beq_iff_eq.mp
    (List.all_eq_true.mp (Store.of_allDocs houtside doc hmem) part hpart)

def LiveCall.fairTest (state : StoreState) : LiveCall → Bool
  | .addType type => decide type.Named && state.store.types.all (fun known =>
      decide (known.name = type.name → known = type))
  | .apply past depth rounds command =>
      match command.type with
      | .insert => command.json.soundTest
      | .read => true
      | .update => state.updatesTest past depth rounds command
      | .delete => state.targetsTest past depth rounds command.query &&
          state.base.file.bordersTest [] (state.base.file.treeFoffs depth
            (state.base.hits past depth command.query))

theorem LiveCall.fair_of_test {state : StoreState} {call : LiveCall}
    (htest : call.fairTest state = true) : call.Fair state := by
  cases call with
  | addType type =>
      simp only [fairTest, Bool.and_eq_true, decide_eq_true_eq,
        List.all_eq_true] at htest
      exact htest
  | apply past depth rounds command =>
      obtain ⟨type, typeName, query, json⟩ := command
      cases type with
      | insert => exact Json.sound_of_test htest
      | read => trivial
      | update => exact StoreState.updates_of_test htest
      | delete =>
          rw [fairTest, Bool.and_eq_true] at htest
          refine ⟨StoreState.targets_of_test htest.1, ?_⟩
          intro before foff after hsplit index sect hsect hlow hhigh
          exact File.bordersKept_of_test htest.2 hsplit hsect hlow hhigh

/-! ## The laws -/

theorem emptyFile_docStoreRun (allowed : StoreState → LiveCall → Prop) :
    DocStoreRun allowed ⟨⟨emptyFile, []⟩, ⟨[], 0⟩⟩ :=
  .init ⟨rfl, rfl, ⟨0, [], [], Storage.empty⟩, rfl⟩

def exampleInserts : List LiveCall :=
  [.addType ⟨stringCtor [97], []⟩,
    exampleApply .insert [] (exampleNode [98] (.int32 1)
      (exampleNode [100] (.int32 3) .null))]

def exampleUpdate : Command :=
  ⟨.update, stringCtor [97], ⟨none, [⟨[], .int32 1, .eq⟩]⟩,
    exampleNode [101] (.int32 5) .null⟩

/-- The file does what the store does, in every run of fair calls. -/
theorem docStoreRun_law {state : StoreState}
    (run : DocStoreRun (fun state call => call.Fair state) state) :
    StoreLaw state := by
  obtain ⟨contents, trees, h⟩ := docStoreRun_inv id run
  exact h.law

theorem docStoreRun_law_nested : ∃ state : StoreState, StoreLaw state ∧
    state.base.live = [8232, 8312] := by
  obtain ⟨state, run, hlive⟩ := Run.exists_of_any storeStep
    (fun state call => call.fairTest state) exampleInserts
    (fun state => state.base.live == [8232, 8312]) id LiveCall.fair_of_test
    (emptyFile_docStoreRun (fun state call => call.Fair state))
    (by decide_cbv)
  exact ⟨state, docStoreRun_law run, by simpa using hlive⟩

/-- An UPDATE comes to its end and replaces each document that its query held
of once; the roots of the others stay, with the same documents. -/
theorem docStoreRun_update {state : StoreState}
    (run : DocStoreRun (fun state call => call.Fair state) state)
    {past : Str → List Byte} {depth rounds : ℕ} {command : Command}
    (hupdate : command.type = .update)
    (hupdates : state.Updates past depth rounds command) :
    ∃ state', userUpdate past depth rounds command.query command.json
        state.base.file = .ok () state'.base.file ∧
      storeStep (.apply past depth rounds command) state = some state' ∧
      StoreLaw state' ∧
      ∀ foff, state.base.file.IsRoot state.base.live foff →
        state.base.file.queryAt past depth command.query foff ≠ some true →
        state'.base.file.IsRoot state'.base.live foff ∧
          ∃ json, state.base.file.Reads foff json ∧
            state'.base.file.Reads foff json := by
  obtain ⟨contents, trees, h⟩ := docStoreRun_inv id run
  obtain ⟨file, contents', trees', hok, hinv, hkept⟩ :=
    h.update hupdate hupdates
  refine ⟨_, hok, ?_, hinv.law, fun foff hroot hquery => ?_⟩
  · rw [storeStep, liveStep, userApply, hupdate]
    dsimp only
    rw [Prog.final_bind_pure, hok, Outcome.final_ok, Store.step,
      Store.apply, hupdate]
    rfl
  · obtain ⟨tree, hmem, rfl⟩ := (h.docTrees.isRoot_iff h.inv).mp hroot
    have hfoff := (h.docTrees.inFile tree hmem).mem_foffs
    obtain ⟨-, slotDocs, htreesInv, -⟩ := h.treesInv hupdates.targets
    have hstoresDoc := htreesInv.searchInv.storesDoc
    obtain ⟨item, hitem, -⟩ := (hstoresDoc tree.foff
      (h.docTrees.mem_live.mpr ⟨tree, hmem, hfoff⟩)).item
    rw [h.inv.queryAt hstoresDoc htreesInv.searchInv.gone hupdates.targets.depth_lt
      (h.inv.holds.mem_slots hitem)] at hquery
    have hself := ((h.docTrees.inFile tree hmem).self_eq h.inv.holds
      (fun foff hin => hstoresDoc foff (h.docTrees.mem_live.mpr ⟨tree, hmem, hin⟩))).1
    have hmem' : tree ∈ trees' := by
      apply hkept tree hmem
      rw [← hself]
      exact beq_eq_false_iff_ne.mpr hquery
    exact ⟨(hinv.docTrees.isRoot_iff hinv.inv).mpr ⟨tree, hmem', rfl⟩,
      tree.doc.json, (h.root hmem).1, (hinv.root hmem').1⟩

/-- The document is replaced, with what was inside it. -/
theorem docStoreRun_update_nested : ∃ state state' : StoreState,
    state.base.live = [8232, 8312] ∧ StoreLaw state' ∧
      storeStep (.apply (fun _ => []) 6 3 exampleUpdate) state =
        some state' := by
  obtain ⟨state, run, hfound⟩ := Run.exists_of_any storeStep
    (fun state call => call.fairTest state) exampleInserts
    (fun state => state.base.live == [8232, 8312] &&
      state.updatesTest (fun _ => []) 6 3 exampleUpdate) id
    LiveCall.fair_of_test
    (emptyFile_docStoreRun (fun state call => call.Fair state))
    (by decide_cbv)
  rw [Bool.and_eq_true, beq_iff_eq] at hfound
  obtain ⟨state', -, hstep, hlaw, -⟩ := docStoreRun_update run rfl
    (StoreState.updates_of_test hfound.2)
  exact ⟨state, state', hfound.1, hlaw, hstep⟩

/-! ## Types of documents -/

/-- An UPDATE whose document applies the types of those it replaces. -/
def LiveCall.Checked (state : StoreState) : LiveCall → Prop
  | .addType _ => True
  | .apply past _ _ command => command.type = .update →
      ∀ doc ∈ state.store.docs,
        doc.self.meets past command.query = true →
        state.store.accepts doc.typeName command.json = true

def LiveCall.checkedTest : LiveCall → Bool
  | .addType _ => true
  | .apply _ _ _ command => command.type != .update

theorem LiveCall.checked_of_test {state : StoreState} {call : LiveCall}
    (htest : call.checkedTest = true) : call.Checked state := by
  cases call with
  | addType type => trivial
  | apply past depth rounds command =>
      exact fun hupdate => absurd hupdate (bne_iff_ne.mp htest)

theorem Store.Conforms.step {state : StoreState} (h : state.store.Conforms)
    {call : LiveCall} (hchecked : call.Checked state) :
    (state.store.step call).Conforms := by
  cases call with
  | addType type => exact h.addType type
  | apply past depth rounds command =>
      obtain ⟨type, typeName, query, json⟩ := command
      cases type with
      | insert => exact h.insert typeName json
      | read => exact h
      | update => exact h.update (hchecked rfl)
      | delete => exact h.delete

theorem Json.Laid.untyped {heap : Heap} {json : Json} {dad foff : ℕ}
    {foffs : List ℕ} (h : json.Laid heap dad 0 foff foffs) {foff' : ℕ}
    (hmem : foff' ∈ foffs) :
    ∃ item, heap foff' item ∧ item.entity.typePtr = 0 := by
  induction json generalizing dad foff foffs with
  | null =>
      rw [h.2] at hmem
      exact absurd hmem List.not_mem_nil
  | node key value bro son ihBro ihSon =>
      obtain ⟨-, item, broFoffs, sonFoffs, hitem, -, -, htype, hbro, hson,
        rfl⟩ := h
      rcases List.mem_cons.mp hmem with rfl | hmem
      · exact ⟨item, hitem, htype⟩
      · rcases List.mem_append.mp hmem with hmem | hmem
        · exact ihBro hbro hmem
        · exact ihSon hson hmem

/-- Where UPDATEs are checked, each entity with a type applies it. -/
theorem docStoreRun_conforms {state : StoreState}
    (run : DocStoreRun (fun state call => call.Fair state ∧
      call.Checked state) state) :
    ∀ foff ∈ state.base.live,
      (state.base.file.entityAt foff).typePtr ≠ 0 →
      ∃ json type file, state.base.file.Reads foff json ∧
        fileReadType (state.base.file.entityAt foff).typePtr
          state.base.file = .ok type file ∧
        jsonIsApplyType json type = true := by
  obtain ⟨contents, trees, h⟩ := docStoreRun_inv And.left run
  have hconforms : state.store.Conforms := by
    apply @Run.invariant _ _ _ _ _ (fun state => state.store.Conforms) _ run
    · rintro state ⟨-, hstore, -⟩
      rw [hstore]
      exact fun doc hmem => absurd hmem (Multiset.notMem_zero doc)
    · rintro state call state' hconforms ⟨-, hchecked⟩ hstep
      rw [storeStep, Option.map_eq_some_iff] at hstep
      obtain ⟨base, -, rfl⟩ := hstep
      exact hconforms.step hchecked
  intro foff hlive htyped
  obtain ⟨tree, hmem, hfoff⟩ := h.docTrees.mem_live.mp hlive
  have hinFile := h.docTrees.inFile tree hmem
  obtain ⟨item, son, sonFoffs, hitem, -, htype, hson, hfoffs⟩ :=
    hinFile.shape
  obtain ⟨entry, hentry, hname⟩ := hinFile.type
  rw [hfoffs, List.mem_cons] at hfoff
  rcases hfoff with rfl | hfoff
  · obtain ⟨file, hread, -⟩ := h.inv.holds.read_type hentry
    refine ⟨tree.doc.json, entry.type, file, (h.root hmem).1, ?_, ?_⟩
    · rw [h.inv.holds.entityAt hitem, htype]
      exact hread
    · rw [← h.accepts_eq hentry, hname]
      apply hconforms
      rw [h.docs]
      exact Multiset.mem_coe.mpr (List.mem_map_of_mem hmem)
  · obtain ⟨item', hitem', hzero⟩ := hson.untyped hfoff
    rw [h.inv.holds.entityAt hitem'] at htyped
    exact absurd hzero htyped

/-- A document with an attribute of its type. -/
theorem docStoreRun_conforms_object : ∃ state : StoreState,
    8232 ∈ state.base.live ∧
      ∃ json type file, state.base.file.Reads 8232 json ∧
        fileReadType (state.base.file.entityAt 8232).typePtr
          state.base.file = .ok type file ∧
        jsonIsApplyType json type = true := by
  obtain ⟨state, run, hfound⟩ := Run.exists_of_any storeStep
    (fun state call => call.fairTest state && call.checkedTest)
    [.addType ⟨stringCtor [97], [⟨stringCtor [98], .int32⟩]⟩,
      exampleApply .insert [] (exampleNode [99] .object
        (exampleNode [98] (.int32 3) .null))]
    (fun state => decide (8232 ∈ state.base.live) &&
      (state.base.file.entityAt 8232).typePtr != 0) id
    (fun htest => by
      rw [Bool.and_eq_true] at htest
      exact ⟨LiveCall.fair_of_test htest.1,
        LiveCall.checked_of_test htest.2⟩)
    (emptyFile_docStoreRun (fun state call => call.Fair state ∧
      call.Checked state))
    (by decide_cbv)
  rw [Bool.and_eq_true, decide_eq_true_eq, bne_iff_ne] at hfound
  exact ⟨state, hfound.1,
    docStoreRun_conforms run 8232 hfound.1 hfound.2⟩

end NosqlDbms
