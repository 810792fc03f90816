import NosqlDbms.FileForest
import Mathlib.Tactic

/-!
# Deleting a son

`file_delete` writes the offset of the next brother over the pointer of the
dad.  For a first son that leads the one pointer to it past it: its tree is
gone, and all other trees are as before but for the son that is missing.
-/

namespace NosqlDbms

namespace Json.Laid

variable {heap : Heap} {json : Json} {dad typePtr foff : ℕ}
  {foffs : List ℕ}

theorem closed (hheap : heap.Functional)
    (h : json.Laid heap dad typePtr foff foffs) {node next : ℕ} {kin : Kin}
    (hlinked : heap.Linked node kin next) (hmem : node ∈ foffs) :
    next ∈ foffs := by
  induction json generalizing dad typePtr foff foffs with
  | null =>
      rw [h.2] at hmem
      exact absurd hmem List.not_mem_nil
  | node key value bro son ihBro ihSon =>
      obtain ⟨-, item, broFoffs, sonFoffs, hitem, -, -, -, hbro, hson,
        rfl⟩ := h
      apply List.mem_cons_of_mem
      rw [List.mem_append]
      rcases List.mem_cons.mp hmem with rfl | hmem
      · obtain ⟨hne, item', hitem', rfl⟩ := hlinked
        rw [hheap node item item' hitem hitem'] at hne ⊢
        cases kin with
        | bro => exact Or.inl (hbro.mem_of_ne_zero hne)
        | son => exact Or.inr (hson.mem_of_ne_zero hne)
      · rcases List.mem_append.mp hmem with hmem | hmem
        · exact Or.inl (ihBro hbro hmem)
        · exact Or.inr (ihSon hson hmem)

theorem reach_mem (hheap : heap.Functional)
    (h : json.Laid heap dad typePtr foff foffs) {node next : ℕ}
    (hreach : Relation.ReflTransGen (LinkStep heap.Linked) next node)
    (hmem : node ∈ foffs) : next ∈ foffs := by
  induction hreach using Relation.ReflTransGen.head_induction_on with
  | refl => exact hmem
  | head hstep _ ih =>
      obtain ⟨kin, hlinked⟩ := hstep
      exact h.closed hheap hlinked ih

theorem subset {json' : Json} {dad' typePtr' foff' : ℕ} {foffs' : List ℕ}
    (h : json.Laid heap dad typePtr foff foffs)
    (hheap : heap.Functional)
    (h' : json'.Laid heap dad' typePtr' foff' foffs')
    (hfirst : foff' ≠ 0 → foff' ∈ foffs) : foffs' ⊆ foffs := by
  induction json' generalizing dad' typePtr' foff' foffs' with
  | null =>
      rw [h'.2]
      exact List.nil_subset foffs
  | node key value bro son ihBro ihSon =>
      obtain ⟨hne, item, broFoffs, sonFoffs, hitem, -, -, -, hbro, hson,
        rfl⟩ := h'
      have hfoff := hfirst hne
      rw [List.cons_subset, List.append_subset]
      exact ⟨hfoff,
        ihBro hbro (fun hne => h.closed hheap
          (@Heap.Linked.of_item heap foff' item hitem .bro hne) hfoff),
        ihSon hson (fun hne => h.closed hheap
          (@Heap.Linked.of_item heap foff' item hitem .son hne) hfoff)⟩

end Json.Laid

namespace Heap

variable {heap heap' : Heap} {dad out foff : ℕ} {dadItem item : Item}
  {gone : List ℕ}

/-- What nothing leads to has no dad. -/
def RootsDadless (heap : Heap) : Prop :=
  ∀ foff item, heap foff item → Unlinked heap.Linked foff →
    item.entity.famAddr.dadPtr = 0

theorem Sound.relatives (h : heap.Sound) (hitem : heap out item) :
    ∃ (bro son : Json) (broFoffs sonFoffs : List ℕ),
      bro.Laid heap item.entity.famAddr.dadPtr 0
        item.entity.famAddr.broPtr broFoffs ∧
      son.Laid heap out 0 item.entity.famAddr.sonPtr sonFoffs ∧
      (out :: (broFoffs ++ sonFoffs)).Nodup := by
  obtain ⟨json, hnull, hstored⟩ := h.stored hitem
  obtain ⟨foffs, hlaid⟩ := hstored.laid
  have hnodup := h.nodup hlaid
  cases json with
  | null => cases hnull
  | node key value bro son =>
      obtain ⟨-, item', broFoffs, sonFoffs, hitem', -, -, -, hbro, hson,
        rfl⟩ := hlaid
      rw [h.functional out item item' hitem hitem'] at hbro hson
      exact ⟨bro, son, broFoffs, sonFoffs, hbro, hson, hnodup⟩

/-- An item, and the slots of its own and of all below. -/
structure Subtree (heap : Heap) (out : ℕ) (item : Item) (gone : List ℕ) :
    Prop where
  atOut : heap out item
  below : ∃ (json : Json) (foffs : List ℕ),
    json.Laid heap out 0 item.entity.famAddr.sonPtr foffs ∧
      gone = out :: foffs

namespace Subtree

variable (hsubtree : heap.Subtree out item gone)
include hsubtree

theorem out_mem : out ∈ gone := by
  obtain ⟨json, foffs, -, rfl⟩ := hsubtree.below
  exact List.mem_cons_self

theorem nodup (h : heap.Sound) : gone.Nodup := by
  obtain ⟨json, foffs, hlaid, rfl⟩ := hsubtree.below
  obtain ⟨bro, son, broFoffs, sonFoffs, -, hson, hnodup⟩ :=
    h.relatives hsubtree.atOut
  rw [← hson.unique h.functional hlaid] at hnodup
  exact hnodup.sublist
    ((List.sublist_append_right broFoffs foffs).cons_cons out)

theorem linked_out (h : heap.Sound) {node next : ℕ} {kin : Kin}
    (hlinked : heap.Linked node kin next) (hmem : node ∈ gone) :
    next ∈ gone ∨ (node = out ∧ kin = .bro) := by
  obtain ⟨json, foffs, hlaid, rfl⟩ := hsubtree.below
  rcases List.mem_cons.mp hmem with rfl | hmem
  · cases kin with
    | bro => exact Or.inr ⟨rfl, rfl⟩
    | son =>
        obtain ⟨hne, item', hitem', rfl⟩ := hlinked
        rw [h.functional node item item' hsubtree.atOut hitem'] at hne ⊢
        exact Or.inl (List.mem_cons_of_mem _ (hlaid.mem_of_ne_zero hne))
  · exact Or.inl (List.mem_cons_of_mem _
      (hlaid.closed h.functional hlinked hmem))

theorem linked_into (h : heap.Sound) {node next : ℕ} {kin : Kin}
    (hlinked : heap.Linked node kin next) (hmem : next ∈ gone) :
    node ∈ gone ∨ next = out := by
  obtain ⟨json, foffs, hlaid, rfl⟩ := hsubtree.below
  rcases List.mem_cons.mp hmem with rfl | hmem
  · exact Or.inr rfl
  · left
    rcases h.linked_into hlaid hlinked hmem with rfl | hinside
    · obtain ⟨hnode, -⟩ := h.forest.single
        (@Linked.of_item heap out item hsubtree.atOut .son hlinked.1) hlinked
      rw [hnode]
      exact List.mem_cons_self
    · exact List.mem_cons_of_mem _ hinside

theorem bro_not_mem (h : heap.Sound) : item.entity.famAddr.broPtr ∉ gone := by
  obtain ⟨json, foffs, hlaid, rfl⟩ := hsubtree.below
  obtain ⟨bro, son, broFoffs, sonFoffs, hbro, hson, hnodup⟩ :=
    h.relatives hsubtree.atOut
  obtain rfl := hson.unique h.functional hlaid
  rw [List.nodup_cons, List.nodup_append] at hnodup
  obtain ⟨hfirst, -, -, hapart⟩ := hnodup
  intro hmem
  have hne : item.entity.famAddr.broPtr ≠ 0 := by
    rcases List.mem_cons.mp hmem with heq | hmem
    · rw [heq]
      exact h.ne_zero hsubtree.atOut
    · exact hlaid.ne_zero hmem
  have hbroMem := hbro.mem_of_ne_zero hne
  rcases List.mem_cons.mp hmem with heq | hmem
  · rw [heq] at hbroMem
    exact hfirst (List.mem_append_left _ hbroMem)
  · exact hapart _ hbroMem _ hmem rfl

theorem subset (h : heap.Sound) {json : Json} {dad' typePtr foff' : ℕ}
    {foffs : List ℕ} (hlaid : json.Laid heap dad' typePtr foff' foffs)
    (hmem : out ∈ foffs) : gone ⊆ foffs := by
  obtain ⟨json', foffs', hbelow, rfl⟩ := hsubtree.below
  rw [List.cons_subset]
  exact ⟨hmem, hlaid.subset h.functional hbelow (fun hne =>
    hlaid.closed h.functional
      (@Linked.of_item heap out item hsubtree.atOut .son hne) hmem)⟩

end Subtree

def BroStep (heap : Heap) (next node : ℕ) : Prop := heap.Linked node .bro next

structure Son (heap : Heap) (dad : ℕ) (dadItem : Item) (out : ℕ)
    (item : Item) (gone : List ℕ) : Prop extends
    heap.Subtree out item gone where
  atDad : heap dad dadItem
  dadPtr : item.entity.famAddr.dadPtr = dad
  chain : Relation.ReflTransGen heap.BroStep out
    dadItem.entity.famAddr.sonPtr
  sons : dadItem.entity.famAddr.sonPtr ≠ 0

theorem Sound.son_of_dad (h : heap.Sound) (hrootsDadless : heap.RootsDadless)
    (hfinite : {foff | heap.Live foff}.Finite)
    (hsubtree : heap.Subtree out item gone)
    (hne : item.entity.famAddr.dadPtr ≠ 0) :
    ∃ dadItem, heap.Son item.entity.famAddr.dadPtr dadItem out item gone := by
  have hchain : ∃ dadItem, heap item.entity.famAddr.dadPtr dadItem ∧
      Relation.ReflTransGen heap.BroStep out
        dadItem.entity.famAddr.sonPtr ∧
      dadItem.entity.famAddr.sonPtr ≠ 0 := by
    have hitem := hsubtree.atOut
    obtain ⟨root, hroot, hreach⟩ :=
      h.forest.exists_root hfinite ⟨item, hitem⟩
    clear hsubtree
    induction hreach using Relation.ReflTransGen.head_induction_on
      generalizing item with
    | refl => exact absurd (hrootsDadless root item hitem hroot) hne
    | @head next node hstep _ ih =>
        obtain ⟨kin, hlinked⟩ := hstep
        obtain ⟨hnext, nodeItem, hnode, rfl⟩ := hlinked
        have hfamily := (h.family hnode hnext hitem).1
        rw [hfamily] at hne ⊢
        cases kin with
        | bro =>
            obtain ⟨dadItem, hdad, hrest, hsons⟩ := ih hne hnode
            exact ⟨dadItem, hdad,
              .head (@Linked.of_item heap node nodeItem hnode .bro hnext)
                hrest, hsons⟩
        | son => exact ⟨nodeItem, hnode, .refl, hnext⟩
  obtain ⟨dadItem, hdad, hrest, hsons⟩ := hchain
  exact ⟨dadItem, hsubtree, hdad, rfl, hrest, hsons⟩

/-- The items once the son is gone. -/
def Bypassed (heap : Heap) (dad : ℕ) (dadItem item : Item) (gone : List ℕ) :
    Heap := fun foff item' =>
  (foff = dad ∧ item' = dadItem.link dadItem.entity.famAddr.broPtr
    item.entity.famAddr.broPtr) ∨
  (foff ≠ dad ∧ foff ∉ gone ∧ heap foff item')

namespace Son

section

variable (hson : heap.Son dad dadItem out item gone)
include hson

theorem linked_first : heap.Linked dad .son dadItem.entity.famAddr.sonPtr :=
  @Linked.of_item heap dad dadItem hson.atDad .son hson.sons

theorem reach : Relation.TransGen (LinkStep heap.Linked) out dad := by
  apply Relation.TransGen.tail' _ ⟨.son, hson.linked_first⟩
  have hle : heap.BroStep ≤ LinkStep heap.Linked :=
    fun _ _ hstep => ⟨.bro, hstep⟩
  exact Relation.ReflTransGen.mono hle _ _ hson.chain

theorem dad_not_mem (h : heap.Sound) : dad ∉ gone := by
  intro hmem
  have hnodup := hson.nodup h
  have hreach := hson.reach
  obtain ⟨json, foffs, hlaid, rfl⟩ := hson.below
  rcases List.mem_cons.mp hmem with rfl | hmem
  · exact h.forest.no_return dad hreach
  · exact (List.nodup_cons.mp hnodup).1
      (hlaid.reach_mem h.functional hreach.to_reflTransGen hmem)

end

section Bypassed

variable (hson : heap.Son dad dadItem out item gone)
  (hheap : ∀ foff item', heap' foff item' ↔
    heap.Bypassed dad dadItem item gone foff item')
include hson hheap

theorem of_bypassed {item' : Item} (h : heap.Sound) (hitem : heap' foff item') :
    foff ∉ gone ∧ ∃ item₀, heap foff item₀ ∧
      item'.entity.famAddr.dadPtr = item₀.entity.famAddr.dadPtr ∧
      item'.entity.typePtr = item₀.entity.typePtr ∧
      (∀ key value, item₀.Spells key value → item'.Spells key value) := by
  rcases (hheap foff item').mp hitem with ⟨rfl, rfl⟩ | ⟨-, hleft, hold⟩
  · exact ⟨hson.dad_not_mem h, dadItem, hson.atDad, rfl, rfl,
      fun _ _ hspells => hspells⟩
  · exact ⟨hleft, item', hold, rfl, rfl, fun _ _ hspells => hspells⟩

theorem live_iff (h : heap.Sound) :
    heap'.Live foff ↔ heap.Live foff ∧ foff ∉ gone := by
  constructor
  · rintro ⟨item', hitem'⟩
    obtain ⟨hleft, item₀, hold, -⟩ := hson.of_bypassed hheap h hitem'
    exact ⟨⟨item₀, hold⟩, hleft⟩
  · rintro ⟨⟨item₀, hold⟩, hleft⟩
    by_cases heq : foff = dad
    · exact ⟨_, (hheap _ _).mpr (Or.inl ⟨heq, rfl⟩)⟩
    · exact ⟨item₀, (hheap _ _).mpr (Or.inr ⟨heq, hleft, hold⟩)⟩

end Bypassed

end Son

structure FirstSon (heap : Heap) (dad : ℕ) (dadItem : Item) (out : ℕ)
    (item : Item) (gone : List ℕ) : Prop extends
    heap.Son dad dadItem out item gone where
  sonPtr : dadItem.entity.famAddr.sonPtr = out

namespace FirstSon

section

variable (hfirst : heap.FirstSon dad dadItem out item gone)
include hfirst

theorem linked (h : heap.Sound) : heap.Linked dad .son out :=
  ⟨h.ne_zero hfirst.atOut, dadItem, hfirst.atDad, hfirst.sonPtr⟩

theorem linked_into (h : heap.Sound) {node next : ℕ} {kin : Kin}
    (hlinked : heap.Linked node kin next) (hmem : next ∈ gone) :
    node ∈ gone ∨ (node = dad ∧ kin = .son ∧ next = out) := by
  rcases hfirst.toSubtree.linked_into h hlinked hmem with hinside | rfl
  · exact Or.inl hinside
  · obtain ⟨hnode, hkin⟩ := h.forest.single (hfirst.linked h) hlinked
    exact Or.inr ⟨hnode, hkin, rfl⟩

end

section Bypassed

variable (hfirst : heap.FirstSon dad dadItem out item gone)
  (hheap : ∀ foff item', heap' foff item' ↔
    heap.Bypassed dad dadItem item gone foff item')
include hfirst hheap

theorem linked_iff (h : heap.Sound) {node next : ℕ} {kin : Kin} :
    heap'.Linked node kin next ↔
      (node ∉ gone ∧ next ∉ gone ∧ heap.Linked node kin next) ∨
        (node = dad ∧ kin = .son ∧ next ∉ gone ∧
          heap.Linked out .bro next) := by
  have hdad := hfirst.dad_not_mem h
  constructor
  · rintro ⟨hne, item', hitem', hptr⟩
    rcases (hheap node item').mp hitem' with ⟨rfl, rfl⟩ | ⟨hnode, hleft, hold⟩
    · cases kin with
      | bro =>
          have hold : heap.Linked node .bro next :=
            ⟨hne, dadItem, hfirst.atDad, hptr⟩
          refine Or.inl ⟨hdad, fun hmem => ?_, hold⟩
          rcases hfirst.linked_into h hold hmem with hinside | ⟨-, hkin, -⟩
          · exact hdad hinside
          · cases hkin
      | son =>
          have hbro : item.entity.famAddr.broPtr = next := hptr
          refine Or.inr ⟨rfl, rfl, ?_, hne, item, hfirst.atOut, hbro⟩
          rw [← hbro]
          exact hfirst.bro_not_mem h
    · have hlinked : heap.Linked node kin next := ⟨hne, item', hold, hptr⟩
      refine Or.inl ⟨hleft, fun hmem => ?_, hlinked⟩
      rcases hfirst.linked_into h hlinked hmem with hinside | ⟨heq, -⟩
      · exact hleft hinside
      · exact hnode heq
  · rintro (⟨hleft, hnext, hne, item', hold, hptr⟩ |
      ⟨rfl, rfl, -, hne, item', hold, hptr⟩)
    · by_cases heq : node = dad
      · refine ⟨hne, _, (hheap _ _).mpr (Or.inl ⟨heq, rfl⟩), ?_⟩
        rw [heq] at hold
        rw [h.functional dad dadItem item' hfirst.atDad hold] at hptr
        cases kin with
        | bro => exact hptr
        | son =>
            have hout : out = next := hfirst.sonPtr.symm.trans hptr
            rw [← hout] at hnext
            exact absurd hfirst.out_mem hnext
      · exact ⟨hne, item', (hheap _ _).mpr (Or.inr ⟨heq, hleft, hold⟩), hptr⟩
    · refine ⟨hne, _, (hheap _ _).mpr (Or.inl ⟨rfl, rfl⟩), ?_⟩
      rw [h.functional out item item' hfirst.atOut hold] at hptr
      exact hptr

theorem sound (h : heap.Sound) : heap'.Sound where
  functional := by
    intro foff item₁ item₂ hitem₁ hitem₂
    rcases (hheap _ _).mp hitem₁ with ⟨rfl, rfl⟩ | ⟨hne, -, hold₁⟩
    · rcases (hheap _ _).mp hitem₂ with ⟨-, rfl⟩ | ⟨hne, -⟩
      · rfl
      · exact absurd rfl hne
    · rcases (hheap _ _).mp hitem₂ with ⟨heq, -⟩ | ⟨-, -, hold₂⟩
      · exact absurd heq hne
      · exact h.functional foff item₁ item₂ hold₁ hold₂
  ne_zero := by
    intro foff item' hitem'
    obtain ⟨-, item₀, hold, -⟩ := hfirst.of_bypassed hheap h hitem'
    exact h.ne_zero hold
  spelled := by
    intro foff item' hitem'
    obtain ⟨-, item₀, hold, -, -, hspells⟩ := hfirst.of_bypassed hheap h hitem'
    obtain ⟨key, value, hold⟩ := h.spelled hold
    exact ⟨key, value, hspells key value hold⟩
  forest := by
    apply (h.forest.bypass (hfirst.linked h) (hfirst.dad_not_mem h)
      hfirst.out_mem (fun hlink => (hfirst.linked_iff hheap h).mp hlink)).congr
    · intro foff
      rw [hfirst.live_iff hheap h]
    · exact fun _ _ _ => Iff.rfl
  family := by
    intro foff item₁ kin item₂ hitem₁ hne hitem₂
    obtain ⟨-, item₀, hold₂, hdad₂, htype₂, -⟩ :=
      hfirst.of_bypassed hheap h hitem₂
    rw [hdad₂, htype₂]
    rcases (hheap _ _).mp hitem₁ with ⟨rfl, rfl⟩ | ⟨-, -, hold₁⟩
    · cases kin with
      | bro =>
          have hptr : dadItem.kinPtr .bro ≠ 0 := hne
          have hfamily := h.family hfirst.atDad hptr hold₂
          exact hfamily
      | son =>
          have hptr : item.kinPtr .bro ≠ 0 := hne
          obtain ⟨hdad, htype⟩ := h.family hfirst.atOut hptr hold₂
          exact ⟨hdad.trans hfirst.dadPtr, htype⟩
    · exact h.family hold₁ hne hold₂

theorem rootsDadless (h : heap.Sound) (hrootsDadless : heap.RootsDadless) :
    heap'.RootsDadless := by
  intro foff item' hitem' hroot
  obtain ⟨hleft, item₀, hold, hdad, -⟩ := hfirst.of_bypassed hheap h hitem'
  rw [hdad]
  apply hrootsDadless foff item₀ hold
  intro node kin hlinked
  apply hroot node kin
  by_cases hnode : node ∈ gone
  · rcases hfirst.linked_out h hlinked hnode with hinside | ⟨rfl, rfl⟩
    · exact absurd hinside hleft
    · exact absurd ((hfirst.linked_iff hheap h).mpr
        (Or.inr ⟨rfl, rfl, hleft, hlinked⟩)) (hroot dad .son)
  · exact (hfirst.linked_iff hheap h).mpr
      (Or.inl ⟨hnode, hleft, hlinked⟩)

end Bypassed

end FirstSon

end Heap

/-! ## The documents that are left -/

def Json.nextBro : Json → Json
  | .null => .null
  | .node _ _ bro _ => bro

/-- The first son is left out at the end of the path. -/
def Json.dropFirst : List Kin → Json → Json
  | _, .null => .null
  | [], .node key value bro son => .node key value bro son.nextBro
  | .bro :: path, .node key value bro son =>
      .node key value (bro.dropFirst path) son
  | .son :: path, .node key value bro son =>
      .node key value bro (son.dropFirst path)

/-- Pointers lead from slot to slot. -/
def Heap.Leads (heap : Heap) : List Kin → ℕ → ℕ → Prop
  | [], foff, slot => foff = slot
  | kin :: path, foff, slot =>
      ∃ next, heap.Linked foff kin next ∧ heap.Leads path next slot

namespace Heap

section Left

variable {heap heap' : Heap} {json : Json} {dad typePtr out foff slot : ℕ}
  {dadItem item : Item} {gone foffs : List ℕ} {path : List Kin}

theorem Leads.reach (h : heap.Leads path foff slot) :
    Relation.ReflTransGen (LinkStep heap.Linked) slot foff := by
  induction path generalizing foff with
  | nil =>
      have heq : foff = slot := h
      rw [heq]
  | cons kin path ih =>
      obtain ⟨next, hlinked, hrest⟩ := h
      exact (ih hrest).tail ⟨kin, hlinked⟩

theorem leads_of_mem (hlaid : json.Laid heap dad typePtr foff foffs)
    (hmem : slot ∈ foffs) : ∃ path, heap.Leads path foff slot := by
  induction json generalizing dad typePtr foff foffs with
  | null =>
      rw [hlaid.2] at hmem
      exact absurd hmem List.not_mem_nil
  | node key value bro son ihBro ihSon =>
      obtain ⟨-, item, broFoffs, sonFoffs, hitem, -, -, -, hbro, hson,
        rfl⟩ := hlaid
      rcases List.mem_cons.mp hmem with rfl | hmem
      · exact ⟨[], rfl⟩
      · rcases List.mem_append.mp hmem with hmem | hmem
        · obtain ⟨path, hleads⟩ := ihBro hbro hmem
          exact ⟨.bro :: path, _, @Linked.of_item heap foff item hitem .bro
            (hbro.first_ne_zero hmem), hleads⟩
        · obtain ⟨path, hleads⟩ := ihSon hson hmem
          exact ⟨.son :: path, _, @Linked.of_item heap foff item hitem .son
            (hson.first_ne_zero hmem), hleads⟩

theorem Son.kept (hson : heap.Son dad dadItem out item gone)
    (hheap : ∀ foff item', heap' foff item' ↔
      heap.Bypassed dad dadItem item gone foff item') {dad' : ℕ}
    (hlaid : json.Laid heap dad' typePtr foff foffs) (hdad : dad ∉ foffs)
    (hgone : ∀ slot ∈ gone, slot ∉ foffs) :
    json.Laid heap' dad' typePtr foff foffs := by
  apply hlaid.congr
  intro slot hmem item' hitem'
  refine (hheap slot item').mpr (Or.inr ⟨?_, fun hslot => ?_, hitem'⟩)
  · rintro rfl
    exact hdad hmem
  · exact hgone slot hslot hmem

theorem FirstSon.apart (hfirst : heap.FirstSon dad dadItem out item gone)
    (h : heap.Sound) {dad' : ℕ}
    (hlaid : json.Laid heap dad' typePtr foff foffs) (hdad : dad ∉ foffs)
    (hleft : foff ∉ gone) : ∀ slot ∈ gone, slot ∉ foffs := by
  have hout : out ∉ foffs := by
    intro hmem
    rcases h.linked_into hlaid (hfirst.linked h) hmem with heq | hinside
    · rw [← heq] at hleft
      exact hleft hfirst.out_mem
    · exact hdad hinside
  obtain ⟨json', foffs', hbelow, rfl⟩ := hfirst.below
  intro slot hslot
  rcases List.mem_cons.mp hslot with rfl | hslot
  · exact hout
  · rw [List.mem_cons, not_or] at hleft
    refine h.apart hbelow hlaid (fun hmem => ?_) hleft.2 slot hslot
    have hne := hlaid.ne_zero hmem
    rcases h.linked_into hlaid
      (@Linked.of_item heap out item hfirst.atOut .son hne) hmem with
      heq | hinside
    · apply hleft.2
      rw [← heq]
      exact hbelow.mem_of_ne_zero hne
    · exact hout hinside

/-- A tree with the dad in it is left without the first son.  The induction is
on the path to the dad. -/
theorem FirstSon.dropped (hfirst : heap.FirstSon dad dadItem out item gone)
    (hheap : ∀ foff item', heap' foff item' ↔
      heap.Bypassed dad dadItem item gone foff item')
    (h : heap.Sound) {dad' : ℕ}
    (hlaid : json.Laid heap dad' typePtr foff foffs)
    (hleads : heap.Leads path foff dad) (hleft : foff ∉ gone) :
    (json.dropFirst path).Stored heap' dad' typePtr foff := by
  have hone := h.ne_zero hfirst.atOut
  induction path generalizing json dad' typePtr foff foffs with
  | nil =>
      obtain rfl : foff = dad := hleads
      have hnodup := h.nodup hlaid
      cases json with
      | null => exact absurd hlaid.1 (h.ne_zero hfirst.atDad)
      | node key value bro son =>
          obtain ⟨hne, item', broFoffs, sonFoffs, hitem', hspells, hdad',
            htype, hbro, hson, rfl⟩ := hlaid
          rw [h.functional foff dadItem item' hfirst.atDad hitem'] at *
          rw [hfirst.sonPtr] at hson
          rw [List.nodup_cons, List.mem_append, not_or,
            List.nodup_append] at hnodup
          obtain ⟨⟨hdadBro, hdadSon⟩, -, hnodupSon, hapart⟩ := hnodup
          have hgone := hfirst.subset h hson
            (hson.mem_of_ne_zero hone)
          have hbro' := hfirst.kept hheap hbro hdadBro (fun slot hslot hmem =>
            hapart slot hmem slot (hgone hslot) rfl)
          cases son with
          | null => exact absurd hson.1 hone
          | node key' value' sons son' =>
              obtain ⟨-, item'', sonsFoffs, belowFoffs, hitem'', -, -, -,
                hsons, hbelow, rfl⟩ := hson
              have hsame := h.functional out item item'' hfirst.atOut hitem''
              rw [hsame] at hsons hbelow
              rw [List.nodup_cons, List.mem_append, not_or,
                List.nodup_append] at hnodupSon
              obtain ⟨⟨hfirstSons, -⟩, -, -, hapart'⟩ := hnodupSon
              rw [List.mem_cons, List.mem_append, not_or,
                not_or] at hdadSon
              have hsons' := hfirst.kept hheap hsons hdadSon.2.1
                (fun slot hslot hmem => by
                  obtain ⟨json', foffs', hbelow', rfl⟩ := hfirst.below
                  obtain rfl := hbelow.unique h.functional hbelow'
                  rcases List.mem_cons.mp hslot with rfl | hslot
                  · exact hfirstSons hmem
                  · exact hapart' slot hmem slot hslot rfl)
              exact ⟨hne, _, (hheap _ _).mpr (Or.inl ⟨rfl, rfl⟩), hspells,
                hdad', htype, hbro'.stored, hsons'.stored⟩
  | cons kin path ih =>
      obtain ⟨next, hlinked, hrest⟩ := hleads
      have hother : foff ≠ dad := by
        rintro rfl
        exact h.forest.no_return foff
          (Relation.TransGen.tail' hrest.reach ⟨kin, hlinked⟩)
      have hnext : next ∉ gone := by
        intro hmem
        rcases hfirst.linked_into h hlinked hmem with hinside | ⟨heq, -⟩
        · exact hleft hinside
        · exact hother heq
      have hnodup := h.nodup hlaid
      obtain ⟨hne, item', hitem', rfl⟩ := hlinked
      cases json with
      | null => exact absurd hlaid.1 (h.ne_zero hitem')
      | node key value bro son =>
          obtain ⟨hfoff, item'', broFoffs, sonFoffs, hitem'', hspells, hdad',
            htype, hbro, hson, rfl⟩ := hlaid
          obtain rfl := h.functional foff item' item'' hitem' hitem''
          have hnew := (hheap foff item'').mpr (Or.inr ⟨hother, hleft, hitem'⟩)
          rw [List.nodup_cons, List.nodup_append] at hnodup
          obtain ⟨-, -, -, hapart⟩ := hnodup
          cases kin with
          | bro =>
              have hdad := hbro.reach_mem h.functional hrest.reach
                (hbro.mem_of_ne_zero hne)
              have hgone := hfirst.subset h hbro
                (hbro.closed h.functional (hfirst.linked h) hdad)
              have hson' := hfirst.kept hheap hson
                (fun hmem => hapart dad hdad dad hmem rfl)
                (fun slot hslot hmem => hapart slot (hgone hslot) slot hmem rfl)
              exact ⟨hfoff, item'', hnew, hspells, hdad', htype,
                ih hbro hrest hnext, hson'.stored⟩
          | son =>
              have hdad := hson.reach_mem h.functional hrest.reach
                (hson.mem_of_ne_zero hne)
              have hgone := hfirst.subset h hson
                (hson.closed h.functional (hfirst.linked h) hdad)
              have hbro' := hfirst.kept hheap hbro
                (fun hmem => hapart dad hmem dad hdad rfl)
                (fun slot hslot hmem => hapart slot hmem slot (hgone hslot) rfl)
              exact ⟨hfoff, item'', hnew, hspells, hdad', htype,
                hbro'.stored, ih hson hrest hnext⟩

theorem Leads.linked (h : heap.Leads path foff slot) :
    slot = foff ∨ ∃ node kin, heap.Linked node kin slot := by
  induction path generalizing foff with
  | nil =>
      have heq : foff = slot := h
      exact Or.inl heq.symm
  | cons kin path ih =>
      obtain ⟨next, hlinked, hrest⟩ := h
      right
      rcases ih hrest with rfl | hnode
      · exact ⟨foff, kin, hlinked⟩
      · exact hnode

theorem GrowsBy.rootsDadless {written : List ℕ}
    (h : heap.GrowsBy heap' written) (hrootsDadless : heap.RootsDadless)
    (hlaid : json.Laid heap' 0 typePtr foff written) : heap'.RootsDadless := by
  intro slot item' hitem' hroot
  rcases (h.live slot).mp ⟨item', hitem'⟩ with ⟨item₀, hold⟩ | hmem
  · rw [h.sound.functional slot item₀ item' (h.kept hold) hitem']
    apply hrootsDadless slot item₀ hold
    rintro node kin ⟨hne, nodeItem, hnode, hptr⟩
    exact hroot node kin ⟨hne, nodeItem, h.kept hnode, hptr⟩
  · obtain ⟨path, hleads⟩ := leads_of_mem hlaid hmem
    rcases hleads.linked with rfl | ⟨node, kin, hlinked⟩
    · cases json with
      | null => exact absurd hlaid.1 (h.sound.ne_zero hitem')
      | node key value bro son =>
          obtain ⟨-, item, -, -, hitem, -, hdad, -⟩ := hlaid
          rw [h.sound.functional slot item item' hitem hitem', hdad]
    · exact absurd hlinked (hroot node kin)

theorem Subtree.rootsDadless (hsubtree : heap.Subtree out item gone) (h : heap.Sound)
    (hrootsDadless : heap.RootsDadless) (hdad : item.entity.famAddr.dadPtr = 0)
    (hheap : ∀ foff item', heap' foff item' ↔
      foff ∉ gone ∧ heap foff item') : heap'.RootsDadless := by
  intro slot item' hitem' hroot
  obtain ⟨hleft, hold⟩ := (hheap slot item').mp hitem'
  by_cases hbefore : Unlinked heap.Linked slot
  · exact hrootsDadless slot item' hold hbefore
  · simp only [Unlinked, not_forall, not_not] at hbefore
    obtain ⟨node, kin, hlinked⟩ := hbefore
    by_cases hnode : node ∈ gone
    · rcases hsubtree.linked_out h hlinked hnode with hinside | ⟨rfl, rfl⟩
      · exact absurd hinside hleft
      · obtain ⟨hne, item₀, hitem₀, rfl⟩ := hlinked
        rw [h.functional node item item₀ hsubtree.atOut hitem₀] at hne hold
        rw [(h.family hsubtree.atOut hne hold).1]
        exact hdad
    · obtain ⟨hne, nodeItem, hitem, hptr⟩ := hlinked
      exact absurd ⟨hne, nodeItem, (hheap _ _).mpr ⟨hnode, hitem⟩, hptr⟩
        (hroot node kin)

end Left

end Heap

end NosqlDbms
