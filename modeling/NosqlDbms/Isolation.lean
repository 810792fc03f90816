import NosqlDbms.DocStoreRun
import Mathlib

/-!
# Queries for one type

A query that names a type holds of whole documents of that type only.  Two
files with the same documents of the type, whatever else they hold, answer it
alike, and the commands with it leave the other types alone.
-/

namespace NosqlDbms

def Store.ofType (typeName : Str) (store : Store) : Multiset Doc :=
  store.docs.filter (fun doc => doc.typeName = typeName)

section Typed

variable {past : Str → List Byte} {query : Query} {typeName : Str}

theorem Part.typeName_of_meets (htyped : query.typeName = some typeName)
    {part : Part} (hmeets : part.meets past query = true) :
    part.typeName = some typeName :=
  (queryCheckType_iff htyped).mp (queryCheck_type (beq_iff_eq.mp hmeets))

theorem Json.typeName_of_parts {json : Json} {name : Option Str} {part : Part}
    (hmem : part ∈ json.parts name) :
    part.typeName = name ∨ part.typeName = none := by
  induction json generalizing name with
  | null => exact absurd hmem List.not_mem_nil
  | node key value bro son ihBro ihSon =>
      rcases List.mem_cons.mp hmem with rfl | hmem
      · exact Or.inl rfl
      · right
        rcases List.mem_append.mp hmem with hmem | hmem
        · exact (ihBro hmem).elim id id
        · exact (ihSon hmem).elim id id

theorem Doc.typeName_of_meets (htyped : query.typeName = some typeName)
    {doc : Doc} {part : Part} (hmem : part ∈ doc.parts)
    (hmeets : part.meets past query = true) : doc.typeName = typeName := by
  have hname := part.typeName_of_meets htyped hmeets
  rcases Json.typeName_of_parts hmem with hdoc | hnone
  · rw [hdoc] at hname
    exact Option.some.inj hname
  · rw [hnone] at hname
    cases hname

theorem Doc.self_typeName (htyped : query.typeName = some typeName)
    {doc : Doc} (hmeets : doc.self.meets past query = true) :
    doc.typeName = typeName :=
  Option.some.inj (doc.self.typeName_of_meets htyped hmeets)

namespace Store

theorem read_eq_ofType (htyped : query.typeName = some typeName)
    (store : Store) : store.read past query =
      (((store.ofType typeName).bind (fun doc => ↑doc.parts)).filter
        (fun part => part.meets past query)).map Part.json := by
  have hothers : ((store.docs.filter (fun doc =>
      ¬ doc.typeName = typeName)).bind (fun doc =>
        (↑doc.parts : Multiset Part))).filter
          (fun part => part.meets past query) = 0 := by
    rw [Multiset.filter_eq_nil]
    intro part hmem hmeets
    obtain ⟨doc, hdoc, hpart⟩ := Multiset.mem_bind.mp hmem
    exact (Multiset.mem_filter.mp hdoc).2
      (Doc.typeName_of_meets htyped hpart hmeets)
  rw [read, parts, ← Multiset.filter_add_not (fun doc : Doc =>
    doc.typeName = typeName) store.docs, Multiset.add_bind,
    Multiset.filter_add, hothers, add_zero]
  rfl

theorem ofType_delete (name : Str) (store : Store) :
    (store.delete past query).ofType name =
      (store.ofType name).filter (fun doc =>
        doc.self.meets past query = false) :=
  Multiset.filter_comm _ _ _

theorem ofType_update (name : Str) (newJson : Json) (store : Store) :
    (store.update past query newJson).ofType name =
      (store.ofType name).map (fun doc =>
        if doc.self.meets past query then ⟨doc.typeName, newJson⟩
        else doc) := by
  rw [ofType, ofType, update, Multiset.filter_map]
  congr 1
  apply Multiset.filter_congr
  intro doc _
  rw [Function.comp_apply]
  split <;> rfl

theorem ofType_delete_other (htyped : query.typeName = some typeName)
    {other : Str} (hne : other ≠ typeName) (store : Store) :
    (store.delete past query).ofType other = store.ofType other := by
  rw [ofType_delete, Multiset.filter_eq_self]
  intro doc hmem
  rw [← Bool.not_eq_true]
  intro hmeets
  apply hne
  rw [← (Multiset.mem_filter.mp hmem).2]
  exact Doc.self_typeName htyped hmeets

theorem ofType_update_other (htyped : query.typeName = some typeName)
    {other : Str} (hne : other ≠ typeName) (newJson : Json)
    (store : Store) :
    (store.update past query newJson).ofType other = store.ofType other := by
  rw [ofType_update]
  conv_rhs => rw [← Multiset.map_id (store.ofType other)]
  apply Multiset.map_congr rfl
  intro doc hmem
  apply if_neg
  intro hmeets
  apply hne
  rw [← (Multiset.mem_filter.mp hmem).2]
  exact Doc.self_typeName htyped hmeets

end Store

end Typed

/-! ## Two runs -/

/-- An UPDATE or a DELETE with a query for the type. -/
structure Command.Changes (command : Command) (typeName : Str) : Prop where
  typed : command.query.typeName = some typeName
  type : command.type = .update ∨ command.type = .delete

/-- Two states with the same documents of the type answer queries for it alike,
and after a command with such a query they have the same documents of the type
again and all others that they had. -/
structure IsolationLaw (typeName : Str) (state state' : StoreState) :
    Prop where
  reads : ∀ (past : Str → List Byte) (depth rounds : ℕ) (query : Query),
    query.typeName = some typeName → state.Reads past depth rounds query →
    state'.Reads past depth rounds query →
    ∃ found file found' file',
      iterCollect past depth query rounds state.base.file =
        .ok found file ∧
      iterCollect past depth query rounds state'.base.file =
        .ok found' file' ∧
      (found'.map Found.json).Perm (found.map Found.json)
  changes : ∀ (past : Str → List Byte) (depth rounds : ℕ)
    (command : Command), command.Changes typeName →
    (LiveCall.apply past depth rounds command).Fair state →
    (LiveCall.apply past depth rounds command).Fair state' →
    ∃ next next',
      storeStep (.apply past depth rounds command) state = some next ∧
      storeStep (.apply past depth rounds command) state' = some next' ∧
      StoreLaw next ∧ StoreLaw next' ∧
      next'.store.ofType typeName = next.store.ofType typeName ∧
      ∀ other ≠ typeName,
        next.store.ofType other = state.store.ofType other ∧
        next'.store.ofType other = state'.store.ofType other

section Law

variable {state state' : StoreState} {contents contents' : Contents}
  {trees trees' : List DocTree} {typeName : Str}

theorem StoreInv.changes (h : StoreInv state contents trees)
    {past : Str → List Byte} {depth rounds : ℕ} {command : Command}
    (hcommand : command.Changes typeName)
    (hfair : (LiveCall.apply past depth rounds command).Fair state) :
    ∃ next, storeStep (.apply past depth rounds command) state = some next ∧
      StoreLaw next ∧ next.store = state.store.apply past command := by
  have hfinal : ∃ file, (userApply past depth rounds command
      state.base.file).final = some file := by
    rcases hcommand.type with hupdate | hdelete
    · rw [LiveCall.Fair, hupdate] at hfair
      obtain ⟨file, -, -, hok, -⟩ := h.update hupdate hfair
      refine ⟨file, ?_⟩
      rw [userApply, hupdate]
      dsimp only
      rw [Prog.final_bind_pure, hok, Outcome.final_ok]
    · rw [LiveCall.Fair, hdelete] at hfair
      obtain ⟨file, -, -, hok, -⟩ := h.delete hfair
      refine ⟨file, ?_⟩
      rw [userApply, hdelete]
      dsimp only
      rw [Prog.final_bind_pure, hok, Outcome.final_ok]
  obtain ⟨file, hfinal⟩ := hfinal
  have hstep : storeStep (.apply past depth rounds command) state =
      some ⟨⟨file, NodeCalls.note state.base.live
        (commandNodeCalls past depth rounds command state.base.file)⟩,
        state.store.apply past command⟩ := by
    rw [storeStep, liveStep, hfinal]
    rfl
  obtain ⟨contents', trees', h'⟩ := h.step hfair hstep
  exact ⟨_, hstep, h'.law, rfl⟩

theorem Store.ofType_apply {past : Str → List Byte} {command : Command}
    (hcommand : command.Changes typeName) {store store' : Store}
    (hsame : store'.ofType typeName = store.ofType typeName) :
    (store'.apply past command).ofType typeName =
      (store.apply past command).ofType typeName := by
  rcases hcommand.type with htype | htype
  · rw [Store.apply, Store.apply, htype]
    dsimp only
    rw [Store.ofType_update, Store.ofType_update, hsame]
  · rw [Store.apply, Store.apply, htype]
    dsimp only
    rw [Store.ofType_delete, Store.ofType_delete, hsame]

theorem Store.ofType_apply_other {past : Str → List Byte} {command : Command}
    (hcommand : command.Changes typeName) {other : Str}
    (hne : other ≠ typeName) (store : Store) :
    (store.apply past command).ofType other = store.ofType other := by
  rcases hcommand.type with htype | htype
  · rw [Store.apply, htype]
    exact Store.ofType_update_other hcommand.typed hne command.json store
  · rw [Store.apply, htype]
    exact Store.ofType_delete_other hcommand.typed hne store

theorem StoreInv.isolation (h : StoreInv state contents trees)
    (h' : StoreInv state' contents' trees')
    (hsame : state'.store.ofType typeName = state.store.ofType typeName) :
    IsolationLaw typeName state state' where
  reads := by
    intro past depth rounds query htyped hreads hreads'
    obtain ⟨found, file, hcollect, hread⟩ :=
      h.law.reads past depth rounds query hreads
    obtain ⟨found', file', hcollect', hread'⟩ :=
      h'.law.reads past depth rounds query hreads'
    refine ⟨found, file, found', file', hcollect, hcollect', ?_⟩
    rw [← Multiset.coe_eq_coe, hread, hread', Store.read_eq_ofType htyped,
      Store.read_eq_ofType htyped, hsame]
  changes := by
    intro past depth rounds command hcommand hfair hfair'
    obtain ⟨next, hstep, hlaw, hstore⟩ := h.changes hcommand hfair
    obtain ⟨next', hstep', hlaw', hstore'⟩ := h'.changes hcommand hfair'
    refine ⟨next, next', hstep, hstep', hlaw, hlaw', ?_, ?_⟩
    · rw [hstore, hstore']
      exact Store.ofType_apply hcommand hsame
    · intro other hne
      rw [hstore, hstore']
      exact ⟨Store.ofType_apply_other hcommand hne state.store,
        Store.ofType_apply_other hcommand hne state'.store⟩

end Law

/-- Files of two runs that hold the same documents of a type cannot be told
apart by queries for the type, and such queries reach no other documents. -/
theorem docStoreRun_isolation {state state' : StoreState}
    (run : DocStoreRun (fun state call => call.Fair state) state)
    (run' : DocStoreRun (fun state call => call.Fair state) state')
    {typeName : Str}
    (hsame : state'.store.ofType typeName = state.store.ofType typeName) :
    IsolationLaw typeName state state' := by
  obtain ⟨contents, trees, h⟩ := docStoreRun_inv id run
  obtain ⟨contents', trees', h'⟩ := docStoreRun_inv id run'
  exact h.isolation h' hsame

/-- One file holds an object of another type as well. -/
theorem docStoreRun_isolation_other : ∃ state state' : StoreState,
    IsolationLaw (stringCtor [97]) state state' ∧
      state.base.live = [8232] ∧ state'.base.live = [8312, 8232] := by
  have hrun := fun (calls : List LiveCall) (live : List ℕ) =>
    Run.exists_of_any storeStep (fun state call => call.fairTest state) calls
      (fun state => state.base.live == live &&
        decide (state.store.ofType (stringCtor [97]) =
          {⟨stringCtor [97], exampleNode [99] (.int32 3) .null⟩})) id
      LiveCall.fair_of_test
      (emptyFile_docStoreRun (fun state call => call.Fair state))
  obtain ⟨state, run, hfound⟩ := hrun
    [.addType ⟨stringCtor [97], []⟩,
      exampleApply .insert [] (exampleNode [99] (.int32 3) .null)]
    [8232] (by decide_cbv)
  obtain ⟨state', run', hfound'⟩ := hrun
    [.addType ⟨stringCtor [97], []⟩, .addType ⟨stringCtor [98], []⟩,
      .apply (fun _ => []) 2 2 ⟨.insert, stringCtor [98], queryNew,
        exampleNode [99] (.int32 3) .null⟩,
      exampleApply .insert [] (exampleNode [99] (.int32 3) .null)]
    [8312, 8232] (by decide_cbv)
  simp only [Bool.and_eq_true, beq_iff_eq, decide_eq_true_eq] at hfound hfound'
  exact ⟨state, state', docStoreRun_isolation run run'
    (hfound'.2.trans hfound.2.symm), hfound.1, hfound'.1⟩

end NosqlDbms
