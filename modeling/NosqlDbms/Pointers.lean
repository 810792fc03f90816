import NosqlDbms.DocStoreRun
import Mathlib

/-!
# The pointers of the live entities

Runs of the commands whose deletions and updates hit whole documents.  What the
file stores as pointers to brothers and sons leads from live entities to live
ones, to each by one way and never back, and an entity with a dad is once in
the chain of its dad's sons.
-/

namespace NosqlDbms

def Entity.kinPtr (entity : Entity) : Kin → ℕ
  | .bro => entity.famAddr.broPtr
  | .son => entity.famAddr.sonPtr

/-- From brother to brother. -/
def File.broChain (file : File) : ℕ → ℕ → List ℕ
  | 0, _ => []
  | fuel + 1, foff =>
      if foff = 0 then []
      else foff :: file.broChain fuel (file.entityAt foff).famAddr.broPtr

/-- A pointer that is not 0, in a live entity. -/
def LiveState.Points (state : LiveState) (foff : ℕ) (kin : Kin) (ptr : ℕ) :
    Prop :=
  foff ∈ state.live ∧ ptr ≠ 0 ∧ (state.file.entityAt foff).kinPtr kin = ptr

/-- Pointers lead to live entities, one to each at most. -/
structure ForestLaw (state : LiveState) : Prop where
  forest : LinkForest (· ∈ state.live) state.Points
  no_return : ∀ foff,
    ¬ Relation.TransGen (LinkStep state.Points) foff foff
  dads : ∀ foff ∈ state.live,
    (state.file.entityAt foff).famAddr.dadPtr ≠ 0 →
    (state.file.entityAt foff).famAddr.dadPtr ∈ state.live ∧
      ∀ fuel ≥ state.live.length, (state.file.broChain fuel
        (state.file.entityAt (state.file.entityAt foff).famAddr.dadPtr
          ).famAddr.sonPtr).count foff = 1

section Chains

variable {file : File} {contents : Contents} {live : List ℕ}

theorem File.broChain_zero (fuel : ℕ) : file.broChain fuel 0 = [] := by
  cases fuel with
  | zero => rfl
  | succ fuel => exact if_pos rfl

theorem File.broChain_node (h : file.Holds contents.Spelled) {foff : ℕ}
    {item : Item} (hitem : file.Stores contents foff item) (hne : foff ≠ 0)
    (fuel : ℕ) : file.broChain (fuel + 1) foff =
      foff :: file.broChain fuel item.entity.famAddr.broPtr := by
  rw [File.broChain, if_neg hne, h.entityAt hitem]

theorem Json.Laid.mem_broChain {json : Json} {dad typePtr foff : ℕ}
    {foffs : List ℕ} (h : file.Holds contents.Spelled)
    (hlaid : json.Laid (file.Stores contents) dad typePtr foff foffs)
    {fuel slot : ℕ} (hmem : slot ∈ file.broChain fuel foff) :
    slot ∈ foffs := by
  induction json generalizing dad typePtr foff foffs fuel with
  | null =>
      rw [hlaid.1, File.broChain_zero] at hmem
      exact absurd hmem List.not_mem_nil
  | node key value bro son ihBro ihSon =>
      obtain ⟨hne, item, broFoffs, sonFoffs, hitem, -, -, -, hbro, -,
        rfl⟩ := hlaid
      cases fuel with
      | zero => exact absurd hmem List.not_mem_nil
      | succ fuel =>
          rw [File.broChain_node h hitem hne] at hmem
          rcases List.mem_cons.mp hmem with rfl | hmem
          · exact List.mem_cons_self
          · exact List.mem_cons_of_mem _
              (List.mem_append_left _ (ihBro hbro hmem))

/-- A slot of a tree is in the chain that starts the tree, or in the chain of
the sons of another slot.  The induction is on the tree. -/
theorem Json.Laid.broChain {json : Json} {dad typePtr foff : ℕ}
    {foffs : List ℕ} (h : file.Holds contents.Spelled)
    (hlaid : json.Laid (file.Stores contents) dad typePtr foff foffs)
    (hnodup : foffs.Nodup) {slot : ℕ} (hmem : slot ∈ foffs) :
    ((file.entityAt slot).famAddr.dadPtr = dad ∧
      ∀ fuel ≥ foffs.length, (file.broChain fuel foff).count slot = 1) ∨
    ((file.entityAt slot).famAddr.dadPtr ∈ foffs ∧
      ∀ fuel ≥ foffs.length, (file.broChain fuel (file.entityAt
        (file.entityAt slot).famAddr.dadPtr).famAddr.sonPtr).count slot =
        1) := by
  induction json generalizing dad typePtr foff foffs with
  | null =>
      rw [hlaid.2] at hmem
      exact absurd hmem List.not_mem_nil
  | node key value bro son ihBro ihSon =>
      obtain ⟨hne, item, broFoffs, sonFoffs, hitem, -, hdad, -, hbro, hson,
        rfl⟩ := hlaid
      rw [List.nodup_cons, List.nodup_append] at hnodup
      obtain ⟨hfirst, hbros, hsons, -⟩ := hnodup
      have hchain : ∀ fuel ≥ (foff :: (broFoffs ++ sonFoffs)).length,
          ∃ fuel' ≥ broFoffs.length, file.broChain fuel foff =
            foff :: file.broChain fuel' item.entity.famAddr.broPtr := by
        intro fuel hfuel
        rw [List.length_cons, List.length_append] at hfuel
        refine ⟨fuel - 1, by omega, ?_⟩
        rw [← File.broChain_node h hitem hne, Nat.sub_add_cancel (by omega)]
      rcases List.mem_cons.mp hmem with rfl | hmem
      · left
        refine ⟨by rw [h.entityAt hitem, hdad], fun fuel hfuel => ?_⟩
        obtain ⟨fuel', -, hfoff⟩ := hchain fuel hfuel
        rw [hfoff, List.count_cons_self, List.count_eq_zero_of_not_mem]
        exact fun hmem => hfirst
          (List.mem_append_left _ (hbro.mem_broChain h hmem))
      · rcases List.mem_append.mp hmem with hmem | hmem
        · rcases ihBro hbro hbros hmem with
            ⟨hdad', hcount⟩ | ⟨hdad', hcount⟩
          · left
            refine ⟨hdad', fun fuel hfuel => ?_⟩
            obtain ⟨fuel', hfuel', hfoff⟩ := hchain fuel hfuel
            rw [hfoff, List.count_cons_of_ne, hcount fuel' hfuel']
            rintro rfl
            exact hfirst (List.mem_append_left _ hmem)
          · right
            refine ⟨List.mem_cons_of_mem _ (List.mem_append_left _ hdad'),
              fun fuel hfuel => hcount fuel ?_⟩
            rw [List.length_cons, List.length_append] at hfuel
            omega
        · have hshort : ∀ fuel ≥ (foff :: (broFoffs ++ sonFoffs)).length,
              fuel ≥ sonFoffs.length := by
            intro fuel hfuel
            rw [List.length_cons, List.length_append] at hfuel
            omega
          right
          rcases ihSon hson hsons hmem with
            ⟨hdad', hcount⟩ | ⟨hdad', hcount⟩
          · rw [hdad', h.entityAt hitem]
            exact ⟨List.mem_cons_self,
              fun fuel hfuel => hcount fuel (hshort fuel hfuel)⟩
          · exact ⟨List.mem_cons_of_mem _ (List.mem_append_right _ hdad'),
              fun fuel hfuel => hcount fuel (hshort fuel hfuel)⟩

end Chains

section Forest

variable {state : LiveState} {contents : Contents} {trees : List DocTree}

theorem LiveInv.points_iff (h : LiveInv state.file state.live contents)
    {foff ptr : ℕ} {kin : Kin} : state.Points foff kin ptr ↔
      Heap.Linked (state.file.Stores contents) foff kin ptr := by
  constructor
  · rintro ⟨hlive, hne, hptr⟩
    obtain ⟨item, hitem⟩ := (h.live foff).mpr hlive
    rw [h.holds.entityAt hitem] at hptr
    refine ⟨hne, item, hitem, ?_⟩
    cases kin <;> exact hptr
  · rintro ⟨hne, item, hitem, hptr⟩
    refine ⟨(h.live foff).mp ⟨item, hitem⟩, hne, ?_⟩
    rw [h.holds.entityAt hitem]
    cases kin <;> exact hptr

theorem LiveInv.forest (h : LiveInv state.file state.live contents) :
    LinkForest (· ∈ state.live) state.Points :=
  h.sound.forest.congr (fun foff => (h.live foff).symm)
    (fun _ _ _ => h.points_iff)

theorem DocTrees.forestLaw (hdocTrees : DocTrees state.file state.live contents trees)
    (h : LiveInv state.file state.live contents) : ForestLaw state where
  forest := h.forest
  no_return := h.forest.no_return
  dads := by
    intro foff hlive hdad
    obtain ⟨tree, hmem, hfoff⟩ := hdocTrees.mem_live.mp hlive
    have hlaid := (hdocTrees.inFile tree hmem).laid
    have hnodup := h.sound.nodup hlaid
    have hlength := h.length_le hnodup (fun _ hmem => hlaid.live hmem)
    rcases hlaid.broChain h.holds hnodup hfoff with
      ⟨hzero, -⟩ | ⟨hdad', hcount⟩
    · exact absurd hzero hdad
    · exact ⟨hdocTrees.mem_live.mpr ⟨tree, hmem, hdad'⟩,
        fun fuel hfuel => hcount fuel (hlength.trans hfuel)⟩

end Forest

/-- Along every run of fair calls the pointers form a forest. -/
theorem docStoreRun_forest {state : StoreState}
    (run : DocStoreRun (fun state call => call.Fair state) state) :
    ForestLaw state.base := by
  obtain ⟨contents, trees, h⟩ := docStoreRun_inv id run
  exact h.docTrees.forestLaw h.inv

/-- An object with two sons. -/
theorem docStoreRun_forest_sons : ∃ state : StoreState,
    ForestLaw state.base ∧ state.base.live = [8232, 8312, 8392] := by
  obtain ⟨state, run, hfound⟩ := Run.exists_of_any storeStep
    (fun state call => call.fairTest state)
    [.addType ⟨stringCtor [97], []⟩,
      exampleApply .insert [] (exampleNode [98] .object
        (.node (stringCtor [99]) (.int32 3)
          (exampleNode [100] (.int32 4) .null) .null))]
    (fun state => state.base.live == [8232, 8312, 8392]) id
    LiveCall.fair_of_test
    (emptyFile_docStoreRun (fun state call => call.Fair state))
    (by decide_cbv)
  exact ⟨state, docStoreRun_forest run, by simpa using hfound⟩

end NosqlDbms
