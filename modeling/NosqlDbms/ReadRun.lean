import NosqlDbms.NodeCalls
import NosqlDbms.ObjectsRun
import Mathlib

/-!
# What a READ yields

Runs of `user_add_type` and of commands that insert objects, read them and
delete whole ones.  A READ goes through all slots in use: it yields the live
entities the query holds of, and every cleared slot with them, unless the
query is false of what a cleared slot is read as.
-/

namespace NosqlDbms

structure LiveState where
  file : File
  /-- Where entities were written and not deleted since. -/
  live : List ℕ

inductive LiveCall where
  | addType (type : DocType)
  | apply (past : Str → List Byte) (depth rounds : ℕ) (command : Command)

def liveStep (call : LiveCall) (state : LiveState) : Option LiveState :=
  match call with
  | .addType type => (userAddType type state.file).final.map
      (fun file => ⟨file, state.live⟩)
  | .apply past depth rounds command =>
      (userApply past depth rounds command state.file).final.map
        (fun file => ⟨file, NodeCalls.note state.live
          (commandNodeCalls past depth rounds command state.file)⟩)

/-- Names are words, an INSERT is of such a document, a DELETE deletes such
entities, and nothing is updated. -/
def LiveCall.Allowed (inserts : Json → Prop)
    (hits : List ℕ → File → NodeCall → Prop) (state : LiveState) :
    LiveCall → Prop
  | .addType type => type.Named
  | .apply past depth rounds command =>
      match command.type with
      | .insert => inserts command.json
      | .read => True
      | .update => False
      | .delete => NodeCalls.All hits state.live
          (commandNodeCalls past depth rounds command state.file)

/-- A document is not a NULL pointer, and what is deleted are roots. -/
def LiveCall.Valid (state : LiveState) (call : LiveCall) : Prop :=
  call.Allowed (fun json => json.isNull = false) NodeCall.HitsRoot state

/-- The deletions keep the lowest records. -/
def LiveCall.Keeps (state : LiveState) : LiveCall → Prop
  | .addType _ => True
  | .apply past depth rounds command =>
      NodeCalls.All (fun _ file nodeCall => nodeCall.KeepsBorders file) state.live
        (commandNodeCalls past depth rounds command state.file)

/-- The states reached from `file_ctor`. -/
abbrev LiveRun : (LiveState → LiveCall → Prop) → LiveState → Prop :=
  Run (fun state => state.live = [] ∧ ∃ file₀,
      fileCtor file₀ = .ok () state.file)
    (fun call state state' => liveStep call state = some state')

/-- A READ comes to its end, and it yields the live entities that the query
holds of, each of them once, in the order of the sections and slots, with the
documents that are read there. -/
def LiveState.ReadsLive (state : LiveState) (past : Str → List Byte)
    (depth : ℕ) (query : Query) (rounds : ℕ) : Prop :=
  ∃ found file, iterCollect past depth query rounds state.file =
      .ok found file ∧
    found.map Found.foff = state.file.slots.filter (fun foff =>
      decide (foff ∈ state.live) &&
        state.file.queryAt past depth query foff == some true) ∧
    ∀ object ∈ found, state.file.Reads object.foff object.json

/-- What a READ comes to, given room for the recursion and for the rounds of
its loop. -/
structure ReadLaw (state : LiveState) : Prop where
  nodup : state.file.slots.Nodup
  live : ∀ foff ∈ state.live, foff ∈ state.file.slots ∧
    ∃ json, state.file.Reads foff json
  yields : ∀ (past : Str → List Byte) (depth : ℕ) (query : Query)
    (rounds : ℕ), state.live.length < depth →
    state.file.slots.length < rounds →
    (state.ReadsLive past depth query rounds ↔
      (∀ foff ∈ state.live,
        state.file.queryAt past depth query foff ≠ none) ∧
      ((∀ foff ∈ state.file.slots, foff ∈ state.live) ∨
        queryCheck past query clearedJson none = some false))

section Inv

variable {state : LiveState} {contents : Contents}

theorem LiveInv.law (h : LiveInv state.file state.live contents) :
    ReadLaw state where
  nodup := h.holds.slots_nodup
  live := by
    intro foff hmem
    obtain ⟨item, hitem⟩ := (h.live foff).mpr hmem
    obtain ⟨json, hnull, hstored⟩ := h.sound.stored hitem
    exact ⟨h.holds.mem_slots hitem, json, h.holds.reads hstored hnull⟩
  yields := by
    intro past depth query rounds hdepth hrounds
    obtain ⟨slotDocs, hstoresDoc, hgone⟩ := h.exists_slotDocs
    have hreadsSlot := h.readsSlot hstoresDoc hgone hdepth.le (by omega)
    have hquery : ∀ foff ∈ state.file.slots,
        state.file.queryAt past depth query foff =
          (slotDocs foff).check past query :=
      fun foff hslot => (hreadsSlot foff hslot).queryAt (.refl h.holds) past query
    have hlive : ∀ foff ∈ state.live, foff ∈ state.file.slots := by
      intro foff hmem
      obtain ⟨item, hitem⟩ := (h.live foff).mpr hmem
      exact h.holds.mem_slots hitem
    have hcleared : ∀ foff ∉ state.live, (slotDocs foff).check past query =
        queryCheck past query clearedJson none := by
      intro foff hnot
      rw [hgone foff hnot]
      rfl
    have hfilter : state.file.slots.filter (fun foff =>
        decide (foff ∈ state.live) &&
          state.file.queryAt past depth query foff == some true) =
        (picks past query slotDocs state.file.slots).filter
          (fun foff => decide (foff ∈ state.live)) := by
      rw [picks, List.filter_filter]
      exact List.filter_congr (fun foff hslot => by rw [hquery foff hslot])
    have hfoffs : ∀ foffs : List ℕ,
        (foffs.map (pickFound slotDocs)).map Found.foff = foffs := by
      intro foffs
      rw [List.map_map]
      exact List.map_id _
    have hfinds : FindsIn past query slotDocs state.file contents
        state.file.slots (iterCollect past depth query rounds state.file) :=
      iterCollect_spec hreadsSlot (fun hitem => h.sound.spelled hitem) h.holds
        hrounds
    rcases hfinds with
      ⟨hall, file, hcollect, -⟩ | ⟨hstuck, foff, hslot, hnone⟩
    · have hexact : state.ReadsLive past depth query rounds ↔
          ∀ foff ∈ picks past query slotDocs state.file.slots,
            foff ∈ state.live := by
        constructor
        · rintro ⟨found, file', hcollect', hfound, -⟩
          rw [hcollect] at hcollect'
          injection hcollect' with heq _
          rw [← heq, hfoffs, hfilter, eq_comm, List.filter_eq_self] at hfound
          exact fun foff hmem => of_decide_eq_true (hfound foff hmem)
        · intro hpicks
          refine ⟨_, file, hcollect, ?_, ?_⟩
          · rw [hfoffs, hfilter, eq_comm, List.filter_eq_self]
            exact fun foff hmem => decide_eq_true (hpicks foff hmem)
          · intro object hmem
            obtain ⟨foff, hpick, rfl⟩ := List.mem_map.mp hmem
            have hslotDoc := hstoresDoc foff (hpicks foff hpick)
            exact h.holds.reads hslotDoc.stored hslotDoc.not_null
      rw [hexact]
      constructor
      · intro hlaw
        refine ⟨fun foff hmem => ?_, ?_⟩
        · rw [hquery foff (hlive foff hmem)]
          exact hall foff (hlive foff hmem)
        · rw [or_iff_not_imp_left]
          intro hnot
          push Not at hnot
          obtain ⟨foff, hslot, hnot⟩ := hnot
          rw [← hcleared foff hnot]
          cases hcheck : (slotDocs foff).check past query with
          | none => exact absurd hcheck (hall foff hslot)
          | some met =>
              cases met with
              | true =>
                  exact absurd (hlaw foff (mem_picks.mpr ⟨hslot, hcheck⟩))
                    hnot
              | false => rfl
      · rintro ⟨-, hcond⟩ foff hpick
        obtain ⟨hslot, hcheck⟩ := mem_picks.mp hpick
        by_contra hnot
        rcases hcond with hfull | hfalse
        · exact hnot (hfull foff hslot)
        · rw [hcleared foff hnot, hfalse] at hcheck
          cases hcheck
    · constructor
      · rintro ⟨found, file, hcollect, -⟩
        rw [hstuck] at hcollect
        cases hcollect
      · rintro ⟨hdefined, hcond⟩
        exfalso
        have hnot : foff ∉ state.live := by
          intro hmem
          apply hdefined foff hmem
          rw [hquery foff hslot, hnone]
        rcases hcond with hfull | hfalse
        · exact hnot (hfull foff hslot)
        · rw [hcleared foff hnot, hfalse] at hnone
          cases hnone

/-- A call keeps what its node calls keep. -/
theorem KeptByNodeCalls.step {inv : File → List ℕ → Contents → Prop}
    {inserts : Json → Prop} {hits : List ℕ → File → NodeCall → Prop}
    (h : KeptByNodeCalls inv inserts hits)
    (hinv : inv state.file state.live contents) {call : LiveCall}
    (hallowed : call.Allowed inserts hits state) (hkeeps : call.Keeps state)
    {state' : LiveState} (hstep : liveStep call state = some state') :
    ∃ contents', inv state'.file state'.live contents' := by
  cases call with
  | addType type =>
      rw [liveStep, Option.map_eq_some_iff] at hstep
      obtain ⟨file, hfinal, rfl⟩ := hstep
      exact h.addType hinv hallowed hfinal
  | apply past depth rounds command =>
      rw [liveStep, Option.map_eq_some_iff] at hstep
      obtain ⟨file, hfinal, rfl⟩ := hstep
      obtain ⟨type, typeName, query, json⟩ := command
      cases type with
      | insert =>
          rw [userApply, Prog.final_bind_pure] at hfinal
          exact h.insert hinv hallowed hfinal
      | read =>
          rw [userApply, Prog.final_bind_pure] at hfinal
          exact (((h.search state.live).iterCtor past depth
            (fun _ _ => trivial)).final ⟨contents, hinv⟩ hfinal).1
      | update => exact absurd hallowed id
      | delete =>
          rw [userApply, Prog.final_bind_pure] at hfinal
          have hdoes : ∀ hdelete, (userDelete past depth rounds query).Does
              (fun file live => ∃ contents, inv file live contents)
              (fun live file nodeCall => hits live file nodeCall ∧
                nodeCall.KeepsBorders file) (fun _ => True) _ :=
            fun hdelete => userDelete_does h.search hdelete rounds query
          have hnodeCalls : NodeCalls.All hits state.live _ := hallowed
          apply (hdoes ?_).final ⟨contents, hinv⟩ (hnodeCalls.and hkeeps) hfinal
          rintro file file' live foff ⟨contents, hinv⟩ ⟨hhits, hborders⟩ hfinal
          obtain ⟨file₁, contents', hdelete, hinv'⟩ :=
            h.delete hinv hhits hborders
          rw [hdelete, Outcome.final_ok, Option.some.injEq] at hfinal
          exact ⟨contents', hfinal ▸ hinv'⟩

end Inv

/-! ## Whole runs -/

theorem liveRun_inv {state : LiveState}
    (run : LiveRun (fun state call => call.Valid state ∧ call.Keeps state)
      state) : ∃ contents, LiveInv state.file state.live contents := by
  apply run.invariant
  · rintro state ⟨hlive, file₀, hctor⟩
    rw [hlive]
    exact ⟨_, LiveInv.init hctor⟩
  · rintro state call state' ⟨contents, hinv⟩ ⟨hvalid, hkeeps⟩ hstep
    exact LiveInv.kept.step hinv hvalid hkeeps hstep

/-- Where no deletion leaves a lowest record behind that begins with a zero
byte, a READ yields the live entities that the query holds of, and nothing
else exactly when no slot in use is cleared or the query is false of a cleared
one. -/
theorem liveRun_law {state : LiveState}
    (run : LiveRun (fun state call => call.Valid state ∧ call.Keeps state)
      state) : ReadLaw state := by
  obtain ⟨contents, hinv⟩ := liveRun_inv run
  exact hinv.law

theorem emptyFile_liveRun (allowed : LiveState → LiveCall → Prop) :
    LiveRun allowed ⟨emptyFile, []⟩ :=
  .init ⟨rfl, ⟨0, [], [], Storage.empty⟩, rfl⟩

def NodeCall.bordersTest (file : File) : NodeCall → Bool
  | .write _ _ _ => true
  | .delete depth foff =>
      file.bordersTest [] (file.nodeFoffs depth true foff)

theorem NodeCall.keepsBorders_of_test {file : File} {nodeCall : NodeCall}
    (htest : nodeCall.bordersTest file = true) : nodeCall.KeepsBorders file := by
  cases nodeCall with
  | write json dadFileoff typeFoff => trivial
  | delete depth foff =>
      intro before foff' after hsplit index sect hsect hlow hhigh
      exact File.bordersKept_of_test htest hsplit hsect hlow hhigh

def LiveCall.allowedTest (inserts : Json → Bool)
    (hits : List ℕ → File → NodeCall → Bool) (state : LiveState) :
    LiveCall → Bool
  | .addType type => decide type.Named
  | .apply past depth rounds command =>
      match command.type with
      | .insert => inserts command.json
      | .read => true
      | .update => false
      | .delete => (commandNodeCalls past depth rounds command state.file).passes
          hits state.live

def LiveCall.validTest (state : LiveState) (call : LiveCall) : Bool :=
  call.allowedTest (fun json => !json.isNull) NodeCall.rootTest state

def LiveCall.keepsTest (state : LiveState) : LiveCall → Bool
  | .addType _ => true
  | .apply past depth rounds command =>
      (commandNodeCalls past depth rounds command state.file).passes
        (fun _ file nodeCall => nodeCall.bordersTest file) state.live

theorem LiveCall.allowed_of_test {inserts : Json → Prop}
    {hits : List ℕ → File → NodeCall → Prop} {insertsTest : Json → Bool}
    {hitsTest : List ℕ → File → NodeCall → Bool}
    (hinserts : ∀ {json}, insertsTest json = true → inserts json)
    (hhits : ∀ {live file nodeCall}, hitsTest live file nodeCall = true →
      hits live file nodeCall) {state : LiveState} {call : LiveCall}
    (htest : call.allowedTest insertsTest hitsTest state = true) :
    call.Allowed inserts hits state := by
  cases call with
  | addType type => exact (of_decide_eq_true htest : type.Named)
  | apply past depth rounds command =>
      obtain ⟨type, typeName, query, json⟩ := command
      cases type with
      | insert => exact hinserts htest
      | read => trivial
      | update => cases htest
      | delete => exact NodeCalls.all_of_passes htest hhits

theorem LiveCall.valid_of_test {state : LiveState} {call : LiveCall}
    (htest : call.validTest state = true) : call.Valid state :=
  LiveCall.allowed_of_test (fun hnull => by rwa [Bool.not_eq_true'] at hnull)
    NodeCall.hitsRoot_of_test htest

theorem LiveCall.keeps_of_test {state : LiveState} {call : LiveCall}
    (htest : call.keepsTest state = true) : call.Keeps state := by
  cases call with
  | addType type => trivial
  | apply past depth rounds command =>
      exact NodeCalls.all_of_passes htest NodeCall.keepsBorders_of_test

def exampleApply (type : CommandType) (items : List QueryItem)
    (json : Json) : LiveCall :=
  .apply (fun _ => []) 2 2 ⟨type, stringCtor [97], ⟨none, items⟩, json⟩

def exampleCalls : List LiveCall :=
  [.addType ⟨stringCtor [97], []⟩,
    exampleApply .insert [] (exampleNode [98] (.int32 1) .null),
    exampleApply .insert [] (exampleNode [99] (.int32 2) .null),
    exampleApply .delete [⟨[], .int32 1, .eq⟩] .null]

theorem liveRun_law_two : ∃ state : LiveState, ReadLaw state ∧
    state.live = [8312] := by
  obtain ⟨state, run, hlive⟩ := Run.exists_of_any liveStep
    (fun state call => call.validTest state && call.keepsTest state)
    exampleCalls (fun state => state.live == [8312]) id
    (fun htest => by
      rw [Bool.and_eq_true] at htest
      exact ⟨LiveCall.valid_of_test htest.1, LiveCall.keeps_of_test htest.2⟩)
    (emptyFile_liveRun (fun state call => call.Valid state ∧
      call.Keeps state))
    (by decide_cbv)
  exact ⟨state, liveRun_law run, by simpa using hlive⟩

theorem liveRun_law_fails : ¬ ∀ state : LiveState,
    LiveRun (fun state call => call.Valid state) state →
    ∀ (past : Str → List Byte) (depth : ℕ) (query : Query) (rounds : ℕ),
    state.live.length < depth → state.file.slots.length < rounds →
    (∀ foff ∈ state.live,
      state.file.queryAt past depth query foff ≠ none) →
    state.ReadsLive past depth query rounds := by
  intro hlaw
  obtain ⟨state, run, hfound⟩ := Run.exists_of_any liveStep
    (fun state call => call.validTest state) exampleCalls
    (fun state => state.live == [8312] &&
      state.file.slots == [8232, 8312] &&
      state.live.all (fun foff =>
        state.file.queryAt (fun _ => []) 3 ⟨none, []⟩ foff == some true) &&
      (iterCollect (fun _ => []) 3 ⟨none, []⟩ 5 state.file).holds
        (fun found _ => found.map Found.foff == [8232, 8312]))
    id LiveCall.valid_of_test
    (emptyFile_liveRun (fun state call => call.Valid state))
    (by decide_cbv)
  simp only [Bool.and_eq_true, beq_iff_eq] at hfound
  obtain ⟨⟨⟨hlive, hslots⟩, hall⟩, hread⟩ := hfound
  obtain ⟨found, file, hcollect, hfound⟩ := Outcome.exists_of_holds hread
  rw [beq_iff_eq] at hfound
  obtain ⟨found', file', hcollect', hfound', -⟩ := hlaw state run (fun _ => [])
    3 ⟨none, []⟩ 5 (by rw [hlive]; decide) (by rw [hslots]; decide)
    (fun foff hmem hnone => by
      have hsome := List.all_eq_true.mp hall foff hmem
      rw [hnone] at hsome
      cases hsome)
  rw [hcollect] at hcollect'
  injection hcollect' with heq _
  have hmem : 8232 ∈ found.map Found.foff := by
    rw [hfound]
    exact List.mem_cons_self
  rw [heq, hfound', List.mem_filter, Bool.and_eq_true, decide_eq_true_eq,
    hlive] at hmem
  exact absurd hmem.2.1 (by decide)

end NosqlDbms
