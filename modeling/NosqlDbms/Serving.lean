import NosqlDbms.DocStoreRun
import NosqlDbms.Registry
import NosqlDbms.Response
import Mathlib

/-!
# The server is the store

Runs of requests, each through `Driver::execute`.  A request registers its type
and then carries out its command, so the server goes the way of two calls on
the file, and the collection of a response comes from the store.
-/

namespace NosqlDbms

theorem Store.types_apply (past : Str → List Byte) (command : Command)
    (store : Store) : (store.apply past command).types = store.types := by
  rw [Store.apply]
  split
  · exact Store.types_insert command.typeName command.json
  · rfl
  · rfl
  · rfl

/-! ## Booleans -/

theorem Json.BoolsSet.parts {json : Json} (h : json.BoolsSet)
    {typeName : Option Str} {part : Part}
    (hmem : part ∈ json.parts typeName) : part.json.BoolsSet := by
  induction json generalizing typeName with
  | null => exact absurd hmem List.not_mem_nil
  | node key value bro son ihBro ihSon =>
      rw [Json.parts, List.mem_cons, List.mem_append] at hmem
      rcases hmem with rfl | hmem | hmem
      · exact h
      · exact ihBro h.2.1 hmem
      · exact ihSon h.2.2 hmem

def Store.BoolsSet (store : Store) : Prop :=
  ∀ doc ∈ store.docs, doc.json.BoolsSet

theorem Store.BoolsSet.addType {store : Store} (h : store.BoolsSet)
    (type : DocType) : (store.addType type).BoolsSet := by
  unfold Store.BoolsSet
  rw [Store.docs_addType]
  exact h

theorem Store.BoolsSet.apply {store : Store} (h : store.BoolsSet)
    (past : Str → List Byte) {command : Command}
    (hjson : command.json.BoolsSet) :
    (store.apply past command).BoolsSet := by
  rw [Store.apply]
  split
  · rw [Store.insert]
    split
    · exact Multiset.forall_mem_cons.mpr ⟨hjson, h⟩
    · exact h
  · exact h
  · intro doc hmem
    obtain ⟨old, hold, rfl⟩ := Multiset.mem_map.mp hmem
    split
    · exact hjson
    · exact h old hold
  · exact fun doc hmem => h doc (Multiset.mem_filter.mp hmem).1

theorem Store.BoolsSet.read {store : Store} (h : store.BoolsSet)
    (past : Str → List Byte) (query : Query) {json : Json}
    (hmem : json ∈ store.read past query) : json.BoolsSet := by
  obtain ⟨part, hpart, rfl⟩ := Multiset.mem_map.mp hmem
  obtain ⟨doc, hdoc, hpart⟩ :=
    Multiset.mem_bind.mp (Multiset.mem_filter.mp hpart).1
  exact (h doc hdoc).parts hpart

namespace Network

namespace ServerCall

variable (call : ServerCall)

def type : DocType := typeInit call.request.typeName

/-- The calls that a request comes to. -/
def registers : LiveCall := .addType call.type

def applies : LiveCall :=
  .apply call.past call.depth call.rounds call.request.toCommand

/-- The same in the store: what is there when the command is carried out. -/
def registered (store : Store) : Store := store.addType call.type

def onStore (store : Store) : Store :=
  (call.registered store).apply call.past call.request.toCommand

/-- The status of the response. -/
def accepted (store : Store) : Bool :=
  match call.request.type with
  | .insert => (call.registered store).accepts
      (stringCtor call.request.typeName) call.request.json.toJson
  | _ => true

/-- Its collection. -/
def answer (store : Store) : Multiset Json :=
  match call.request.type with
  | .read => (call.registered store).read call.past
      (toQuery call.request.query)
  | _ => 0

end ServerCall

def serveStep (call : ServerCall) (state : StoreState) : Option StoreState :=
  (storeStep call.registers state).bind (fun registered =>
    (storeStep call.applies registered).bind (fun applied =>
      (driverExecute call.past call.depth call.rounds call.request
          state.base.file).final.map
        (fun file => ⟨⟨file, applied.base.live⟩, applied.store⟩)))

/-- The name of the type is a word up to a NUL, and the command is as those on
the file have to be. -/
structure ServerCall.Fair (state : StoreState) (call : ServerCall) :
    Prop where
  named : call.type.Named
  applies : ∀ registered, storeStep call.registers state = some registered →
    call.applies.Fair registered

/-- A READ has room. -/
def ServerCall.Room (state : StoreState) (call : ServerCall) : Prop :=
  call.request.type = .read → ∀ registered,
    storeStep call.registers state = some registered →
      registered.Reads call.past call.depth call.rounds
        (toQuery call.request.query)

/-- What `Driver::execute` does with the outcome of the command. -/
def driverCollect (past : Str → List Byte) (depth rounds : ℕ) :
    Option (Option Iter) → Prog File (Bool × List Found)
  | none => pure (false, [])
  | some none => pure (true, [])
  | some (some iter) => do
      let collection ← collectFrom past depth rounds iter
      return (true, collection)

section Driver

variable {past : Str → List Byte} {depth rounds : ℕ} {request : Request}
  {file file₁ file₂ file₃ : File}

theorem driverExecute_bind
    (hadd : (userAddType (typeInit request.typeName) file).final =
      some file₁) :
    driverExecute past depth rounds request file =
      ((userApply past depth rounds request.toCommand).status >>=
        driverCollect past depth rounds) file₁ := by
  rw [driverExecute]
  cases hcall : userAddType (typeInit request.typeName) file with
  | ok value file' =>
      rw [hcall, Outcome.final_ok, Option.some.injEq] at hadd
      rw [Prog.bind_of_ok (Prog.status_of_ok hcall), hadd]
      rfl
  | failed file' =>
      rw [hcall, Outcome.final_failed, Option.some.injEq] at hadd
      rw [Prog.bind_of_ok (Prog.status_of_failed hcall), hadd]
      rfl
  | stuck =>
      rw [hcall] at hadd
      cases hadd

theorem driverExecute_failed
    (hadd : (userAddType (typeInit request.typeName) file).final =
      some file₁)
    (happly : userApply past depth rounds request.toCommand file₁ =
      .failed file₂) :
    driverExecute past depth rounds request file =
      .ok (false, []) file₂ := by
  rw [driverExecute_bind hadd, Prog.bind_of_ok (Prog.status_of_failed happly)]
  rfl

theorem driverExecute_none
    (hadd : (userAddType (typeInit request.typeName) file).final =
      some file₁)
    (happly : userApply past depth rounds request.toCommand file₁ =
      .ok none file₂) :
    driverExecute past depth rounds request file = .ok (true, []) file₂ := by
  rw [driverExecute_bind hadd, Prog.bind_of_ok (Prog.status_of_ok happly)]
  rfl

theorem driverExecute_some
    (hadd : (userAddType (typeInit request.typeName) file).final =
      some file₁) {iter : Iter}
    (happly : userApply past depth rounds request.toCommand file₁ =
      .ok (some iter) file₂) :
    driverExecute past depth rounds request file =
      (collectFrom past depth rounds iter >>= fun collection =>
        pure (true, collection)) file₂ := by
  rw [driverExecute_bind hadd, Prog.bind_of_ok (Prog.status_of_ok happly)]
  rfl

theorem driverExecute_sameAs {contents : Contents}
    (hadd : (userAddType (typeInit request.typeName) file).final =
      some file₁)
    (happly : (userApply past depth rounds request.toCommand file₁).final =
      some file₂) (hholds : file₂.Holds contents.Spelled)
    (hfinal : (driverExecute past depth rounds request file).final =
      some file₃) : file₂.SameAs contents file₃ := by
  cases hcall : userApply past depth rounds request.toCommand file₁ with
  | ok value file' =>
      rw [hcall, Outcome.final_ok, Option.some.injEq] at happly
      rw [happly] at hcall
      cases value with
      | none =>
          rw [driverExecute_none hadd hcall, Outcome.final_ok,
            Option.some.injEq] at hfinal
          exact hfinal ▸ .refl hholds
      | some iter =>
          rw [driverExecute_some hadd hcall, Prog.final_bind_pure] at hfinal
          have hholding : KeptBySearch.Holding iter.query (fun _ => True)
              iter := ⟨rfl, fun _ _ => trivial⟩
          exact ((keptBySearch_sameAs.collectFrom past depth
            (fun _ _ => trivial) rounds hholding).final (.refl hholds)
              hfinal).1
  | failed file' =>
      rw [hcall, Outcome.final_failed, Option.some.injEq] at happly
      rw [happly] at hcall
      rw [driverExecute_failed hadd hcall, Outcome.final_ok,
        Option.some.injEq] at hfinal
      exact hfinal ▸ .refl hholds
  | stuck =>
      rw [hcall] at happly
      cases happly

end Driver

/-! ## A request is two calls -/

/-- The file holds what the store holds, no type has attributes, and what came
over the wire has its booleans set. -/
structure ServeInv (state : StoreState) (contents : Contents)
    (trees : List DocTree) : Prop extends StoreInv state contents trees where
  plain : ∀ type ∈ state.store.types, type.attrList = []
  bools : state.store.BoolsSet

section Serve

variable {state : StoreState} {contents : Contents} {trees : List DocTree}
  {call : ServerCall}

theorem ServeInv.fair (h : ServeInv state contents trees)
    (hnamed : call.type.Named) : call.registers.Fair state := by
  refine ⟨hnamed, fun known hmem hname => ?_⟩
  have hplain := h.plain known hmem
  obtain ⟨name, attrList⟩ := known
  have hname : name = call.type.name := hname
  have hplain : attrList = [] := hplain
  rw [hname, hplain]
  rfl

theorem ServeInv.registered (h : ServeInv state contents trees)
    (hnamed : call.type.Named) :
    ∃ file₁ contents₁,
      (userAddType call.type state.base.file).final = some file₁ ∧
      storeStep call.registers state =
        some ⟨⟨file₁, state.base.live⟩, call.registered state.store⟩ ∧
      StoreInv ⟨⟨file₁, state.base.live⟩, call.registered state.store⟩
        contents₁ trees := by
  have hsome : ∃ file₁,
      (userAddType call.type state.base.file).final = some file₁ := by
    rcases h.inv.holds.add_type hnamed with
      ⟨-, foff, file', contents', entry, hadd, -⟩ |
      ⟨-, file', contents', hadd, -⟩
    · exact ⟨file', by rw [userAddType, Prog.bind_of_ok hadd]; rfl⟩
    · exact ⟨file', by rw [userAddType, Prog.bind_of_failed hadd]; rfl⟩
  obtain ⟨file₁, hfinal⟩ := hsome
  obtain ⟨contents₁, h₁⟩ := h.toStoreInv.addType hnamed
    (h.fair hnamed).2 hfinal
  refine ⟨file₁, contents₁, hfinal, ?_, h₁⟩
  rw [storeStep, ServerCall.registers, liveStep, hfinal]
  rfl

theorem ServeInv.plain_onStore (h : ServeInv state contents trees) :
    ∀ type ∈ (call.onStore state.store).types, type.attrList = [] := by
  intro type hmem
  rw [ServerCall.onStore, Store.types_apply, ServerCall.registered,
    Store.mem_types_addType] at hmem
  rcases hmem with ⟨rfl, -⟩ | hold
  · rfl
  · exact h.plain type hold

theorem ServeInv.bools_onStore (h : ServeInv state contents trees) :
    (call.onStore state.store).BoolsSet :=
  (h.bools.addType call.type).apply call.past
    call.request.json.boolsSet_toJson

theorem ServeInv.bools_answer (h : ServeInv state contents trees) :
    ∀ json ∈ call.answer state.store, json.BoolsSet := by
  intro json hmem
  rw [ServerCall.answer] at hmem
  split at hmem
  · exact (h.bools.addType call.type).read call.past _ hmem
  · exact absurd hmem (Multiset.notMem_zero json)

theorem ServeInv.step (h : ServeInv state contents trees)
    (hfair : call.Fair state) {state' : StoreState}
    (hstep : serveStep call state = some state') :
    ∃ contents' trees', ServeInv state' contents' trees' := by
  obtain ⟨file₁, contents₁, hadd, hregisters, h₁⟩ := h.registered hfair.named
  rw [serveStep, hregisters, Option.bind_some,
    Option.bind_eq_some_iff] at hstep
  obtain ⟨applied, happlies, hstep⟩ := hstep
  rw [Option.map_eq_some_iff] at hstep
  obtain ⟨file, hfinal, rfl⟩ := hstep
  obtain ⟨contents', trees', h'⟩ :=
    h₁.step (hfair.applies _ hregisters) happlies
  rw [storeStep, Option.map_eq_some_iff] at happlies
  obtain ⟨base, hbase, rfl⟩ := happlies
  rw [ServerCall.applies, liveStep, Option.map_eq_some_iff] at hbase
  obtain ⟨file₂, happly, rfl⟩ := hbase
  have hsameAs := driverExecute_sameAs hadd happly h'.inv.holds hfinal
  exact ⟨contents', trees', h'.sameAs hsameAs, h.plain_onStore,
    h.bools_onStore⟩

/-- The response to a request, and the store behind it. -/
def ServerCall.Served (call : ServerCall) (state : StoreState) : Prop :=
  ∃ found state',
    driverExecute call.past call.depth call.rounds call.request
        state.base.file =
      .ok (call.accepted state.store, found) state'.base.file ∧
    serveStep call state = some state' ∧
    state'.store = call.onStore state.store ∧
    ∀ unset, Multiset.Rel Agrees
      ↑(answered unset (call.accepted state.store) found).collection
      (call.answer state.store)

theorem serveStep_eq {file₁ file₂ file : File}
    (hregisters : storeStep call.registers state =
      some ⟨⟨file₁, state.base.live⟩, call.registered state.store⟩)
    (happly : (userApply call.past call.depth call.rounds
      call.request.toCommand file₁).final = some file₂)
    (hdriver : (driverExecute call.past call.depth call.rounds call.request
      state.base.file).final = some file) :
    serveStep call state = some ⟨⟨file, NodeCalls.note state.base.live
        (commandNodeCalls call.past call.depth call.rounds
          call.request.toCommand file₁)⟩, call.onStore state.store⟩ := by
  rw [serveStep, hregisters, Option.bind_some, storeStep,
    ServerCall.applies, liveStep, happly, Option.map_some, Option.map_some,
    Option.bind_some, hdriver, Option.map_some]
  rfl

theorem driverExecute_answers {file₁ : File}
    (hadd : (userAddType call.type state.base.file).final = some file₁)
    (h₁ : StoreInv ⟨⟨file₁, state.base.live⟩, call.registered state.store⟩
      contents trees)
    (happlies : call.applies.Fair
      ⟨⟨file₁, state.base.live⟩, call.registered state.store⟩)
    (hroom : call.request.type = .read → StoreState.Reads
      ⟨⟨file₁, state.base.live⟩, call.registered state.store⟩
      call.past call.depth call.rounds (toQuery call.request.query)) :
    ∃ found file₂ file,
      (userApply call.past call.depth call.rounds call.request.toCommand
        file₁).final = some file₂ ∧
      driverExecute call.past call.depth call.rounds call.request
        state.base.file = .ok (call.accepted state.store, found) file ∧
      (↑(found.map Found.json) : Multiset Json) =
        call.answer state.store := by
  obtain ⟨⟨type, typeName, query, json, hjson⟩, past, depth, rounds⟩ := call
  cases type with
  | insert =>
      obtain ⟨file₂, -, -, -, houtcome⟩ := @StoreInv.insert _ _ _ h₁
        (Request.toCommand ⟨.insert, typeName, query, json, hjson⟩) happlies
      rcases houtcome with ⟨haccepts, foff, hwrite⟩ | ⟨haccepts, hwrite⟩
      · have happly : userApply past depth rounds
            (Request.toCommand ⟨.insert, typeName, query, json, hjson⟩)
            file₁ = .ok none file₂ := Prog.bind_of_ok hwrite
        refine ⟨[], file₂, file₂, by rw [happly]; rfl, ?_, rfl⟩
        rw [driverExecute_none hadd happly]
        exact congrArg (fun accepted => Outcome.ok (accepted, []) file₂)
          haccepts.symm
      · have happly : userApply past depth rounds
            (Request.toCommand ⟨.insert, typeName, query, json, hjson⟩)
            file₁ = .failed file₂ := Prog.bind_of_failed hwrite
        refine ⟨[], file₂, file₂, by rw [happly]; rfl, ?_, rfl⟩
        rw [driverExecute_failed hadd happly]
        exact congrArg (fun accepted => Outcome.ok (accepted, []) file₂)
          haccepts.symm
  | read =>
      obtain ⟨found, file, hcollect, hread⟩ :=
        h₁.law.reads past depth rounds (toQuery query) (hroom rfl)
      obtain ⟨iter, file₂, hctor, hcollect⟩ := Prog.bind_eq_ok hcollect
      have happly : userApply past depth rounds
          (Request.toCommand ⟨.read, typeName, query, json, hjson⟩)
          file₁ = .ok (some iter) file₂ := Prog.bind_of_ok hctor
      refine ⟨found, file₂, file, by rw [happly]; rfl, ?_, hread⟩
      rw [driverExecute_some hadd happly, Prog.bind_of_ok hcollect]
      rfl
  | update =>
      obtain ⟨file₂, -, -, hupdate, -⟩ := @StoreInv.update _ _ _
        past depth rounds h₁
        (Request.toCommand ⟨.update, typeName, query, json, hjson⟩) rfl
        happlies
      have happly : userApply past depth rounds
          (Request.toCommand ⟨.update, typeName, query, json, hjson⟩)
          file₁ = .ok none file₂ := Prog.bind_of_ok hupdate
      refine ⟨[], file₂, file₂, by rw [happly]; rfl, ?_, rfl⟩
      exact driverExecute_none hadd happly
  | delete =>
      obtain ⟨file₂, -, -, hdelete, -⟩ := h₁.delete happlies
      have happly : userApply past depth rounds
          (Request.toCommand ⟨.delete, typeName, query, json, hjson⟩)
          file₁ = .ok none file₂ := Prog.bind_of_ok hdelete
      refine ⟨[], file₂, file₂, by rw [happly]; rfl, ?_, rfl⟩
      exact driverExecute_none hadd happly

/-- What the client gets agrees with what was found. -/
theorem rel_answered (unset : ℕ → List Bool → Unset) (status : Bool)
    {found : List Found} (h : ∀ object ∈ found, object.json.BoolsSet) :
    Multiset.Rel Agrees ↑(answered unset status found).collection
      ↑(found.map Found.json) := by
  rw [collection_answered, ← Multiset.map_coe, ← Multiset.map_coe,
    Multiset.rel_map]
  exact Multiset.rel_refl_of_refl_on (fun object hmem =>
    (agrees_answeredJson_iff (unset object.foff) object.json).mpr
      (h object hmem))

theorem ServeInv.served (h : ServeInv state contents trees)
    (hfair : call.Fair state) (hroom : call.Room state) :
    call.Served state := by
  obtain ⟨file₁, contents₁, hadd, hregisters, h₁⟩ := h.registered hfair.named
  obtain ⟨found, file₂, file, happly, hdriver, hanswer⟩ :=
    driverExecute_answers hadd h₁ (hfair.applies _ hregisters)
      (fun hread => hroom hread _ hregisters)
  have hstep := serveStep_eq hregisters happly
    (hdriver ▸ Outcome.final_ok _ _)
  have hbools : ∀ object ∈ found, object.json.BoolsSet := fun object hmem =>
    h.bools_answer object.json
      (hanswer ▸ Multiset.mem_coe.mpr (List.mem_map_of_mem hmem))
  refine ⟨found, _, hdriver, hstep, rfl, fun unset => ?_⟩
  rw [← hanswer]
  exact rel_answered unset _ hbools

end Serve

/-! ## Whole runs -/

def ServerCall.fairTest (state : StoreState) (call : ServerCall) : Bool :=
  decide call.type.Named && (storeStep call.registers state).all
    (fun registered => call.applies.fairTest registered)

theorem ServerCall.fair_of_test {state : StoreState} {call : ServerCall}
    (htest : call.fairTest state = true) : call.Fair state := by
  rw [fairTest, Bool.and_eq_true, decide_eq_true_eq] at htest
  refine ⟨htest.1, fun registered hregisters => ?_⟩
  have hfair := htest.2
  rw [hregisters] at hfair
  exact LiveCall.fair_of_test hfair

end Network

end NosqlDbms
