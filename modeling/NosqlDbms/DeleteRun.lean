import NosqlDbms.ReadRun
import NosqlDbms.UserDelete
import Mathlib.Tactic

/-!
# What is left after a DELETE

The command deletes while it still searches.  Where its query holds of roots
only, their trees are gone in the end, every other entity reads as before and
keeps its place among the others, and the query holds of nothing any more.
-/

namespace NosqlDbms

/-- The slots that the query holds of. -/
def LiveState.hits (state : LiveState) (past : Str → List Byte) (depth : ℕ)
    (query : Query) : List ℕ :=
  state.file.slots.filter (fun foff =>
    state.file.queryAt past depth query foff == some true)

/-- The query has a result for every entity, is false of a cleared slot and
holds of roots only; there is room for the recursion and for the rounds of the
loop, and no lowest record is left behind that begins with a zero byte. -/
structure LiveState.Deletable (state : LiveState) (past : Str → List Byte)
    (depth rounds : ℕ) (query : Query) : Prop where
  depth_lt : state.live.length < depth
  rounds_lt : (state.hits past depth query).length < rounds
  defined : ∀ foff ∈ state.live,
    state.file.queryAt past depth query foff ≠ none
  cleared : queryCheck past query clearedJson none = some false
  roots : ∀ foff ∈ state.hits past depth query,
    state.file.IsRoot state.live foff
  borders : state.file.BordersKept
    (state.file.treeFoffs depth (state.hits past depth query))

/-- The entities outside of the trees of the hits. -/
def LiveState.left (state : LiveState) (past : Str → List Byte) (depth : ℕ)
    (query : Query) : List ℕ :=
  leftLive state.live
    (state.file.treeFoffs depth (state.hits past depth query))

/-- The state in which exactly these entities are left. -/
structure DeleteLaw (state state' : LiveState) (past : Str → List Byte)
    (depth : ℕ) (query : Query) : Prop where
  live : state'.live = state.left past depth query
  law : ReadLaw state'
  order : state'.file.slots.filter (fun foff => foff ∈ state'.live) =
    state.file.slots.filter (fun foff => foff ∈ state'.live)
  entities : ∀ foff ∈ state'.live,
    state'.file.entityAt foff = state.file.entityAt foff
  reads : ∀ foff ∈ state'.live, ∃ json, state.file.Reads foff json ∧
    state'.file.Reads foff json
  checks : ∀ foff ∈ state'.live, ∀ (past' : Str → List Byte)
    (depth' : ℕ) (query' : Query), state.live.length < depth' →
    state'.file.queryAt past' depth' query' foff =
      state.file.queryAt past' depth' query' foff
  none_left : ∀ rounds', state'.file.slots.length < rounds' →
    ∃ file, iterCollect past depth query rounds' state'.file = .ok [] file

section Law

variable {state : LiveState} {contents : Contents} {past : Str → List Byte}
  {depth rounds : ℕ} {query : Query} {slotDocs : ℕ → SlotDoc}

theorem LiveInv.queryAt (h : LiveInv state.file state.live contents)
    (hstoresDoc : ∀ foff ∈ state.live,
      state.file.StoresDoc contents foff (slotDocs foff))
    (hgone : ∀ foff ∉ state.live, slotDocs foff = clearedDoc)
    (hdepth : state.live.length < depth) {foff : ℕ}
    (hslot : foff ∈ state.file.slots) :
    state.file.queryAt past depth query foff =
      (slotDocs foff).check past query :=
  (h.readsSlot hstoresDoc hgone hdepth.le (by omega) foff hslot).queryAt
    (.refl h.holds) past query

theorem LiveInv.searchInv (h : LiveInv state.file state.live contents)
    (hdeletable : state.Deletable past depth rounds query) :
    ∃ slotDocs, SearchInv past query state.file state.live contents slotDocs ∧
      state.hits past depth query =
        picks past query slotDocs state.file.slots := by
  obtain ⟨slotDocs, hstoresDoc, hgone⟩ := h.exists_slotDocs
  refine ⟨slotDocs, ⟨h, hstoresDoc, hgone, fun foff => ?_, hdeletable.cleared⟩,
    List.filter_congr (fun foff hslot => ?_)⟩
  · by_cases hmem : foff ∈ state.live
    · obtain ⟨item, hitem⟩ := (h.live foff).mpr hmem
      rw [← h.queryAt hstoresDoc hgone hdeletable.depth_lt
        (h.holds.mem_slots hitem)]
      exact hdeletable.defined foff hmem
    · rw [hgone foff hmem]
      have hcleared : clearedDoc.check past query = some false :=
        hdeletable.cleared
      rw [hcleared]
      exact Option.some_ne_none false
  · rw [h.queryAt hstoresDoc hgone hdeletable.depth_lt hslot]

theorem LiveInv.deletes (h : LiveInv state.file state.live contents)
    (hdeletable : state.Deletable past depth rounds query)
    (typeName : Str) (json : Json) :
    ∃ state', userDelete past depth rounds query state.file =
        .ok () state'.file ∧
      liveStep (.apply past depth rounds ⟨.delete, typeName, query, json⟩)
        state = some state' ∧
      DeleteLaw state state' past depth query := by
  obtain ⟨slotDocs, hsearchInv, hhits⟩ := h.searchInv hdeletable
  have hroots := hdeletable.roots
  have hborders := hdeletable.borders
  have hrounds := hdeletable.rounds_lt
  have hlive : state.left past depth query = leftLive state.live
      (state.file.treeFoffs depth
        (picks past query slotDocs state.file.slots)) := by
    rw [LiveState.left, hhits]
  rw [hhits] at hroots hborders hrounds
  obtain ⟨file', contents', hdelete, hnote, herases, hsearchInv'⟩ :=
    hsearchInv.userDelete hdeletable.depth_lt.le
      (Nat.zero_lt_of_lt hdeletable.depth_lt) hroots
      (hborders.safe h.holds) hrounds
  rw [← hlive] at hnote hsearchInv'
  have hle : (state.left past depth query).length ≤ state.live.length :=
    List.length_filter_le _ _
  have hleft : ∀ foff ∈ state.left past depth query,
      leftDocs (state.left past depth query) slotDocs foff = slotDocs foff :=
    fun foff hmem => if_pos hmem
  have hslot : ∀ foff ∈ state.left past depth query,
      foff ∈ state.file.slots ∧ foff ∈ file'.slots := by
    intro foff hmem
    obtain ⟨item, hitem, -⟩ := (hsearchInv'.storesDoc foff hmem).item
    exact ⟨h.holds.mem_slots (herases.stores_iff.mp hitem).2,
      hsearchInv'.inv.holds.mem_slots hitem⟩
  have hchecks : ∀ foff ∈ state.left past depth query,
      ∀ (past' : Str → List Byte) (depth' : ℕ) (query' : Query),
      state.live.length < depth' →
      file'.queryAt past' depth' query' foff =
        state.file.queryAt past' depth' query' foff := by
    intro foff hmem past' depth' query' hdepth'
    obtain ⟨hslot, hslot'⟩ := hslot foff hmem
    have hquery := @LiveInv.queryAt ⟨file', state.left past depth query⟩ _
      past' depth' query' _ hsearchInv'.inv hsearchInv'.storesDoc hsearchInv'.gone
      (hle.trans_lt hdepth') foff hslot'
    rw [hleft foff hmem] at hquery
    exact hquery.trans (h.queryAt hsearchInv.storesDoc hsearchInv.gone hdepth'
      hslot).symm
  refine ⟨⟨file', state.left past depth query⟩, hdelete, ?_, rfl,
    @LiveInv.law ⟨file', state.left past depth query⟩ _ hsearchInv'.inv, ?_,
    ?_, ?_, hchecks, ?_⟩
  · rw [liveStep, userApply, Prog.final_bind_pure, hdelete,
      Outcome.final_ok, commandNodeCalls]
    dsimp only
    rw [hnote]
    rfl
  · have hkeeps := h.keeps_erased herases
    rw [← hlive] at hkeeps
    exact hkeeps.filter_slotsFrom
      (fun _ _ htest => of_decide_eq_true htest)
      (fun _ htest => of_decide_eq_true htest) (fun _ _ => rfl)
  · intro foff hmem
    obtain ⟨item, hitem, -⟩ := (hsearchInv'.storesDoc foff hmem).item
    rw [hsearchInv'.inv.holds.entityAt hitem,
      h.holds.entityAt (herases.stores_iff.mp hitem).2]
  · intro foff hmem
    have hafter := hsearchInv'.storesDoc foff hmem
    have hbefore := hsearchInv.storesDoc foff (List.mem_filter.mp hmem).1
    rw [hleft foff hmem] at hafter
    exact ⟨_, h.holds.reads hbefore.stored hbefore.not_null,
      hsearchInv'.inv.holds.reads hafter.stored hafter.not_null⟩
  · intro rounds' hrounds'
    have hreadsSlot := hsearchInv'.readsSlot (hle.trans hdeletable.depth_lt.le)
      (Nat.zero_lt_of_lt hdeletable.depth_lt)
    have hfinds : FindsIn past query _ file' contents' file'.slots
        (iterCollect past depth query rounds' file') :=
      iterCollect_spec hreadsSlot
        (fun hitem => hsearchInv'.inv.sound.spelled hitem)
        hsearchInv'.inv.holds hrounds'
    obtain ⟨file'', hcollect, -⟩ :=
      hfinds.ok (fun foff _ => hsearchInv'.check foff)
    have hpicks : picks past query
        (leftDocs (state.left past depth query) slotDocs) file'.slots =
          [] := by
      rw [List.eq_nil_iff_forall_not_mem]
      intro foff hpick
      obtain ⟨-, hcheck⟩ := mem_picks.mp hpick
      by_cases hmem : foff ∈ state.left past depth query
      · rw [hleft foff hmem] at hcheck
        have hhit := mem_picks.mpr ⟨(hslot foff hmem).1, hcheck⟩
        rw [hlive] at hmem
        apply (mem_leftLive.mp hmem).2
        exact List.mem_flatMap.mpr ⟨foff, hhit, (h.unlinkedTree
          hdeletable.depth_lt.le (hroots foff hhit)).first⟩
      · rw [hsearchInv'.gone foff hmem, hsearchInv'.cleared] at hcheck
        cases hcheck
    rw [hpicks] at hcollect
    exact ⟨file'', hcollect⟩

end Law

/-! ## Whole runs -/

/-- A DELETE whose query holds of roots only comes to its end and takes away
the trees of what the query held of, and nothing else: all other entities have
the same pointers, the same documents and the same place as before, and the
query holds of none of them. -/
theorem liveRun_delete {state : LiveState}
    (run : LiveRun (fun state call => call.Valid state ∧ call.Keeps state)
      state) {past : Str → List Byte} {depth rounds : ℕ} {query : Query}
    (hdeletable : state.Deletable past depth rounds query)
    (typeName : Str) (json : Json) :
    ∃ state', userDelete past depth rounds query state.file =
        .ok () state'.file ∧
      liveStep (.apply past depth rounds ⟨.delete, typeName, query, json⟩)
        state = some state' ∧
      DeleteLaw state state' past depth query := by
  obtain ⟨contents, hinv⟩ := liveRun_inv run
  exact hinv.deletes hdeletable typeName json

def LiveState.deletableTest (state : LiveState) (past : Str → List Byte)
    (depth rounds : ℕ) (query : Query) : Bool :=
  let hits := state.hits past depth query
  decide (state.live.length < depth) && decide (hits.length < rounds) &&
    state.live.all (fun foff =>
      (state.file.queryAt past depth query foff).isSome) &&
    queryCheck past query clearedJson none == some false &&
    hits.all (fun foff =>
      (NodeCall.delete depth foff).rootTest state.live state.file) &&
    state.file.bordersTest [] (state.file.treeFoffs depth hits)

theorem LiveState.deletable_of_test {state : LiveState}
    {past : Str → List Byte} {depth rounds : ℕ} {query : Query}
    (htest : state.deletableTest past depth rounds query = true) :
    state.Deletable past depth rounds query := by
  simp only [deletableTest, Bool.and_eq_true, decide_eq_true_eq,
    List.all_eq_true, beq_iff_eq] at htest
  obtain ⟨⟨⟨⟨⟨hdepth, hrounds⟩, hdefined⟩, hcleared⟩, hroots⟩,
    hborders⟩ := htest
  refine ⟨hdepth, hrounds, fun foff hmem => ?_, hcleared,
    fun foff hmem => (NodeCall.hitsRoot_of_test (hroots foff hmem)).1, ?_⟩
  · exact Option.isSome_iff_ne_none.mp (hdefined foff hmem)
  · intro before foff after hsplit index sect hsect hlow hhigh
    exact File.bordersKept_of_test hborders hsplit hsect hlow hhigh

/-- An object with a nested one goes, the object written after it stays. -/
theorem liveRun_delete_nested : ∃ state state' : LiveState,
    state.live = [8392, 8232, 8312] ∧ state'.live = [8392] ∧
      DeleteLaw state state' (fun _ => []) 4
        ⟨none, [⟨[], .int32 1, .eq⟩]⟩ := by
  obtain ⟨state, run, hfound⟩ := Run.exists_of_any liveStep
    (fun state call => call.validTest state && call.keepsTest state)
    [.addType ⟨stringCtor [97], []⟩,
      exampleApply .insert [] (exampleNode [98] (.int32 1)
        (exampleNode [100] (.int32 3) .null)),
      exampleApply .insert [] (exampleNode [99] (.int32 2) .null)]
    (fun state => state.live == [8392, 8232, 8312] &&
      state.left (fun _ => []) 4 ⟨none, [⟨[], .int32 1, .eq⟩]⟩ == [8392] &&
      state.deletableTest (fun _ => []) 4 2
        ⟨none, [⟨[], .int32 1, .eq⟩]⟩) id
    (fun htest => by
      rw [Bool.and_eq_true] at htest
      exact ⟨LiveCall.valid_of_test htest.1, LiveCall.keeps_of_test htest.2⟩)
    (emptyFile_liveRun (fun state call => call.Valid state ∧
      call.Keeps state))
    (by decide_cbv)
  simp only [Bool.and_eq_true, beq_iff_eq] at hfound
  obtain ⟨⟨hlive, hleft⟩, htest⟩ := hfound
  obtain ⟨state', -, -, hlaw⟩ := liveRun_delete run
    (LiveState.deletable_of_test htest) (stringCtor [97]) .null
  exact ⟨state, state', hlive, hlaw.live.trans hleft, hlaw⟩

end NosqlDbms
