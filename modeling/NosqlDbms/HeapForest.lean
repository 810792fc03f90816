import NosqlDbms.FileWrite
import NosqlDbms.Forest
import NosqlDbms.LinkForest
import Mathlib.Tactic

/-!
# The heap as a forest

The pointers of the items to brothers and sons are links between slots.  A
heap whose links form a forest has a tree in each of its slots, whatever other
slots point to it.
-/

namespace NosqlDbms

inductive Kin where
  | bro
  | son
  deriving DecidableEq

def Item.kinPtr (item : Item) : Kin → ℕ
  | .bro => item.entity.famAddr.broPtr
  | .son => item.entity.famAddr.sonPtr

def Item.kinDad (item : Item) (foff : ℕ) : Kin → ℕ
  | .bro => item.entity.famAddr.dadPtr
  | .son => foff

namespace Heap

def Live (heap : Heap) : ℕ → Prop := fun foff => ∃ item, heap foff item

def Linked (heap : Heap) : ℕ → Kin → ℕ → Prop := fun foff kin ptr =>
  ptr ≠ 0 ∧ ∃ item, heap foff item ∧ item.kinPtr kin = ptr

structure Sound (heap : Heap) : Prop where
  functional : heap.Functional
  ne_zero : ∀ {foff item}, heap foff item → foff ≠ 0
  spelled : ∀ {foff item}, heap foff item →
    ∃ key value, item.Spells key value
  forest : LinkForest heap.Live heap.Linked
  family : ∀ {foff item kin item'}, heap foff item →
    item.kinPtr kin ≠ 0 → heap (item.kinPtr kin) item' →
    item'.entity.famAddr.dadPtr = item.kinDad foff kin ∧
      item'.entity.typePtr = 0

end Heap

namespace Json.Laid

variable {heap : Heap} {json : Json} {dad typePtr foff : ℕ}
  {foffs : List ℕ}

theorem first_ne_zero (h : json.Laid heap dad typePtr foff foffs)
    {slot : ℕ} (hmem : slot ∈ foffs) : foff ≠ 0 := by
  cases json with
  | null =>
      rw [h.2] at hmem
      exact absurd hmem List.not_mem_nil
  | node key value bro son => exact h.1

theorem mem_of_ne_zero (h : json.Laid heap dad typePtr foff foffs)
    (hne : foff ≠ 0) : foff ∈ foffs := by
  cases json with
  | null => exact absurd h.1 hne
  | node key value bro son =>
      obtain ⟨-, item, broFoffs, sonFoffs, -, -, -, -, -, -, rfl⟩ := h
      exact List.mem_cons_self

theorem first_mem (h : json.Laid heap dad typePtr foff foffs)
    {slot : ℕ} (hmem : slot ∈ foffs) : foff ∈ foffs :=
  h.mem_of_ne_zero (h.first_ne_zero hmem)

theorem live (h : json.Laid heap dad typePtr foff foffs) {foff' : ℕ}
    (hmem : foff' ∈ foffs) : heap.Live foff' := by
  obtain ⟨item, hitem, -⟩ := h.dads hmem
  exact ⟨item, hitem⟩

theorem linked (h : json.Laid heap dad typePtr foff foffs) {foff' : ℕ}
    (hmem : foff' ∈ foffs) :
    foff' = foff ∨ ∃ node kin, heap.Linked node kin foff' := by
  induction json generalizing dad typePtr foff foffs with
  | null =>
      rw [h.2] at hmem
      exact absurd hmem List.not_mem_nil
  | node key value bro son ihBro ihSon =>
      obtain ⟨-, item, broFoffs, sonFoffs, hitem, -, -, -, hbro, hson,
        rfl⟩ := h
      rcases List.mem_cons.mp hmem with heq | hmem
      · exact Or.inl heq
      · right
        rcases List.mem_append.mp hmem with hmem | hmem
        · rcases ihBro hbro hmem with rfl | hlinked
          · exact ⟨foff, .bro, hbro.ne_zero hmem, item, hitem, rfl⟩
          · exact hlinked
        · rcases ihSon hson hmem with rfl | hlinked
          · exact ⟨foff, .son, hson.ne_zero hmem, item, hitem, rfl⟩
          · exact hlinked

theorem outside {gone : List ℕ}
    (hclosed : ∀ {node kin next}, heap.Linked node kin next →
      next ∈ gone → node ∈ gone)
    (h : json.Laid heap dad typePtr foff foffs) (hfirst : foff ∉ gone) :
    ∀ slot ∈ foffs, slot ∉ gone := by
  induction json generalizing dad typePtr foff foffs with
  | null =>
      rw [h.2]
      exact fun slot hmem => absurd hmem List.not_mem_nil
  | node key value bro son ihBro ihSon =>
      obtain ⟨-, item, broFoffs, sonFoffs, hitem, -, -, -, hbro, hson,
        rfl⟩ := h
      have hrelative : ∀ kin, item.kinPtr kin ≠ 0 →
          item.kinPtr kin ∉ gone := fun kin hne hmem =>
        hfirst (hclosed ⟨hne, item, hitem, rfl⟩ hmem)
      intro slot hmem
      rcases List.mem_cons.mp hmem with rfl | hmem
      · exact hfirst
      · rcases List.mem_append.mp hmem with hmem | hmem
        · exact ihBro hbro (hrelative .bro (hbro.first_ne_zero hmem)) slot
            hmem
        · exact ihSon hson (hrelative .son (hson.first_ne_zero hmem)) slot
            hmem

end Json.Laid

namespace Heap

variable {heap heap' : Heap} {foff : ℕ} {item : Item}

theorem Linked.of_item (hitem : heap foff item) {kin : Kin}
    (hne : item.kinPtr kin ≠ 0) : heap.Linked foff kin (item.kinPtr kin) :=
  ⟨hne, item, hitem, rfl⟩

namespace Sound

theorem of_empty (hempty : ∀ foff item, ¬ heap foff item) : heap.Sound where
  functional := fun foff item _ hitem => absurd hitem (hempty foff item)
  ne_zero := fun hitem => absurd hitem (hempty _ _)
  spelled := fun hitem => absurd hitem (hempty _ _)
  forest := by
    apply LinkForest.empty.congr
    · exact fun foff => ⟨fun ⟨item, hitem⟩ => hempty foff item hitem,
        False.elim⟩
    · exact fun foff kin ptr => ⟨fun ⟨_, item, hitem, _⟩ =>
        hempty foff item hitem, False.elim⟩
  family := fun hitem => absurd hitem (hempty _ _)

theorem congr (h : heap.Sound)
    (hheap : ∀ foff item, heap' foff item ↔ heap foff item) :
    heap'.Sound := by
  have heq : heap' = heap := by
    funext foff item
    exact propext (hheap foff item)
  rw [heq]
  exact h

/-- In each slot a tree begins.  The induction follows the links. -/
theorem stored (h : heap.Sound) (hitem : heap foff item) :
    ∃ json : Json, json.isNull = false ∧
      json.Stored heap item.entity.famAddr.dadPtr item.entity.typePtr
        foff := by
  induction foff using h.forest.founded.induction generalizing item with
  | _ foff ih =>
      have hrelative : ∀ kin, ∃ json : Json,
          json.Stored heap (item.kinDad foff kin) 0 (item.kinPtr kin) := by
        intro kin
        by_cases hzero : item.kinPtr kin = 0
        · exact ⟨.null, hzero⟩
        · have hlinked := Linked.of_item hitem hzero
          obtain ⟨-, item', hitem'⟩ := h.forest.closed hlinked
          obtain ⟨json, -, hjson⟩ := ih _ ⟨kin, hlinked⟩ hitem'
          obtain ⟨hdad, htype⟩ := h.family hitem hzero hitem'
          rw [hdad, htype] at hjson
          exact ⟨json, hjson⟩
      obtain ⟨key, value, hspells⟩ := h.spelled hitem
      obtain ⟨bro, hbro⟩ := hrelative .bro
      obtain ⟨son, hson⟩ := hrelative .son
      exact ⟨.node key value bro son, rfl, h.ne_zero hitem, item, hitem,
        hspells, rfl, rfl, hbro, hson⟩

/-! ## Taking a tree out -/

theorem linked_into (h : heap.Sound) {json : Json}
    {dad typePtr foff : ℕ} {foffs : List ℕ}
    (hlaid : json.Laid heap dad typePtr foff foffs) {origin next : ℕ}
    {kin : Kin} (hlinked : heap.Linked origin kin next)
    (hmem : next ∈ foffs) : next = foff ∨ origin ∈ foffs := by
  induction json generalizing dad typePtr foff foffs with
  | null =>
      rw [hlaid.2] at hmem
      exact absurd hmem List.not_mem_nil
  | node key value bro son ihBro ihSon =>
      obtain ⟨-, item, broFoffs, sonFoffs, hitem, -, -, -, hbro, hson,
        rfl⟩ := hlaid
      have hfirst : ∀ kin, next = item.kinPtr kin →
          origin ∈ foff :: (broFoffs ++ sonFoffs) := by
        intro kin heq
        rw [heq] at hlinked
        obtain ⟨hsame, -⟩ := h.forest.single
          (Linked.of_item hitem hlinked.1) hlinked
        rw [hsame]
        exact List.mem_cons_self
      rcases List.mem_cons.mp hmem with heq | hmem
      · exact Or.inl heq
      · right
        rcases List.mem_append.mp hmem with hmem | hmem
        · rcases ihBro hbro hmem with heq | hinside
          · exact hfirst .bro heq
          · exact List.mem_cons_of_mem _ (List.mem_append_left _ hinside)
        · rcases ihSon hson hmem with heq | hinside
          · exact hfirst .son heq
          · exact List.mem_cons_of_mem _ (List.mem_append_right _ hinside)

theorem apart (h : heap.Sound) {json json' : Json}
    {dad dad' typePtr typePtr' foff foff' : ℕ} {foffs foffs' : List ℕ}
    (hlaid : json.Laid heap dad typePtr foff foffs)
    (hlaid' : json'.Laid heap dad' typePtr' foff' foffs')
    (hfirst : foff ∉ foffs') (hfirst' : foff' ∉ foffs) :
    ∀ slot ∈ foffs, slot ∉ foffs' := by
  induction json generalizing dad typePtr foff foffs with
  | null =>
      rw [hlaid.2]
      exact fun slot hmem => absurd hmem List.not_mem_nil
  | node key value bro son ihBro ihSon =>
      obtain ⟨-, item, broFoffs, sonFoffs, hitem, -, -, -, hbro, hson,
        rfl⟩ := hlaid
      rw [List.mem_cons, List.mem_append, not_or, not_or] at hfirst'
      have hrelative : ∀ kin, item.kinPtr kin ≠ 0 →
          item.kinPtr kin ≠ foff' → item.kinPtr kin ∉ foffs' := by
        intro kin hne hother hmem
        rcases h.linked_into hlaid' (Linked.of_item hitem hne) hmem with
          heq | hinside
        · exact hother heq
        · exact hfirst hinside
      intro slot hmem
      rcases List.mem_cons.mp hmem with rfl | hmem
      · exact hfirst
      · rcases List.mem_append.mp hmem with hmem | hmem
        · exact ihBro hbro (hrelative .bro (hbro.first_ne_zero hmem)
            (fun heq => hfirst'.2.1 (heq ▸ hbro.first_mem hmem)))
            hfirst'.2.1 slot hmem
        · exact ihSon hson (hrelative .son (hson.first_ne_zero hmem)
            (fun heq => hfirst'.2.2 (heq ▸ hson.first_mem hmem)))
            hfirst'.2.2 slot hmem

theorem nodup (h : heap.Sound) {json : Json} {dad typePtr foff : ℕ}
    {foffs : List ℕ} (hlaid : json.Laid heap dad typePtr foff foffs) :
    foffs.Nodup := by
  induction json generalizing dad typePtr foff foffs with
  | null =>
      rw [hlaid.2]
      exact .nil
  | node key value bro son ihBro ihSon =>
      have hself := hlaid
      obtain ⟨-, item, broFoffs, sonFoffs, hitem, -, -, -, hbro, hson,
        rfl⟩ := hlaid
      have hfirst := hself.first_not_mem h.functional
      have hnot := hfirst
      rw [List.mem_append, not_or] at hnot
      rw [List.nodup_cons, List.nodup_append]
      refine ⟨hfirst, ihBro hbro, ihSon hson, ?_⟩
      rintro slot hmem slot' hmem' rfl
      have hkin : item.kinPtr .bro ≠ item.kinPtr .son := by
        intro heq
        have hlinked := Linked.of_item hitem
          (show item.kinPtr .bro ≠ 0 from hbro.first_ne_zero hmem)
        have hlinked' := Linked.of_item hitem
          (show item.kinPtr .son ≠ 0 from hson.first_ne_zero hmem')
        rw [heq] at hlinked
        cases (h.forest.single hlinked hlinked').2
      refine h.apart hbro hson (fun hmem' => ?_) (fun hmem => ?_) slot hmem
        hmem'
      · rcases h.linked_into hson (Linked.of_item hitem
          (show item.kinPtr .bro ≠ 0 from hbro.first_ne_zero hmem)) hmem' with
          heq | hinside
        · exact hkin heq
        · exact hnot.2 hinside
      · rcases h.linked_into hbro (Linked.of_item hitem
          (show item.kinPtr .son ≠ 0 from hson.first_ne_zero hmem')) hmem with
          heq | hinside
        · exact hkin heq.symm
        · exact hnot.1 hinside

theorem erase {gone : List ℕ} (h : heap.Sound)
    (hclosed : ∀ {node kin next}, heap.Linked node kin next →
      next ∈ gone → node ∈ gone)
    (hheap : ∀ foff item, heap' foff item ↔ foff ∉ gone ∧ heap foff item) :
    heap'.Sound where
  functional := fun foff item item' hitem hitem' =>
    h.functional foff item item' ((hheap _ _).mp hitem).2
      ((hheap _ _).mp hitem').2
  ne_zero := fun hitem => h.ne_zero ((hheap _ _).mp hitem).2
  spelled := fun hitem => h.spelled ((hheap _ _).mp hitem).2
  forest := by
    apply (h.forest.remove hclosed).congr
    · intro foff
      constructor
      · rintro ⟨item, hitem⟩
        obtain ⟨hleft, hitem⟩ := (hheap foff item).mp hitem
        exact ⟨⟨item, hitem⟩, hleft⟩
      · rintro ⟨⟨item, hitem⟩, hleft⟩
        exact ⟨item, (hheap foff item).mpr ⟨hleft, hitem⟩⟩
    · intro foff kin ptr
      constructor
      · rintro ⟨hne, item, hitem, hptr⟩
        obtain ⟨hleft, hitem⟩ := (hheap foff item).mp hitem
        exact ⟨hleft, hne, item, hitem, hptr⟩
      · rintro ⟨hleft, hne, item, hitem, hptr⟩
        exact ⟨hne, item, (hheap foff item).mpr ⟨hleft, hitem⟩, hptr⟩
  family := fun hitem hne hitem' => h.family ((hheap _ _).mp hitem).2 hne
    ((hheap _ _).mp hitem').2

theorem closed_root (h : heap.Sound) {son : Json} {foffs : List ℕ}
    (hitem : heap foff item) (hroot : Unlinked heap.Linked foff)
    (hson : son.Laid heap foff 0 item.entity.famAddr.sonPtr foffs)
    {node next : ℕ} {kin : Kin} (hlinked : heap.Linked node kin next)
    (hmem : next ∈ foff :: foffs) : node ∈ foff :: foffs := by
  rcases List.mem_cons.mp hmem with rfl | hmem
  · exact absurd hlinked (hroot node kin)
  · rcases h.linked_into hson hlinked hmem with rfl | hinside
    · obtain ⟨hsame, -⟩ := h.forest.single
        (@Linked.of_item heap foff item hitem .son hlinked.1) hlinked
      rw [hsame]
      exact List.mem_cons_self
    · exact List.mem_cons_of_mem _ hinside

/-! ## Putting a tree in -/

theorem add (h : heap.Sound) (hfresh : ¬ heap.Live foff) (hne : foff ≠ 0)
    {key : Str} {value : JsonValue} (hspells : item.Spells key value)
    (hptr : ∀ kin, item.kinPtr kin = 0)
    (hheap : ∀ foff' item', heap' foff' item' ↔
      (foff' = foff ∧ item' = item) ∨ heap foff' item') :
    heap'.Sound ∧ ∀ node kin next, heap'.Linked node kin next ↔
      heap.Linked node kin next := by
  have hlinked : ∀ node kin next, heap'.Linked node kin next ↔
      heap.Linked node kin next := by
    intro node kin next
    constructor
    · rintro ⟨hnext, item', hitem', rfl⟩
      rcases (hheap _ _).mp hitem' with ⟨-, rfl⟩ | hold
      · exact absurd (hptr kin) hnext
      · exact .of_item hold hnext
    · rintro ⟨hnext, item', hitem', rfl⟩
      exact .of_item ((hheap _ _).mpr (Or.inr hitem')) hnext
  have hnot : ∀ {item'}, ¬ heap foff item' :=
    fun hitem => hfresh ⟨_, hitem⟩
  refine ⟨⟨?_, ?_, ?_, ?_, ?_⟩, hlinked⟩
  · intro foff' item₁ item₂ hitem₁ hitem₂
    rcases (hheap _ _).mp hitem₁ with ⟨rfl, rfl⟩ | hold₁
    · rcases (hheap _ _).mp hitem₂ with ⟨-, rfl⟩ | hold₂
      · rfl
      · exact absurd hold₂ hnot
    · rcases (hheap _ _).mp hitem₂ with ⟨rfl, rfl⟩ | hold₂
      · exact absurd hold₁ hnot
      · exact h.functional foff' item₁ item₂ hold₁ hold₂
  · intro foff' item' hitem'
    rcases (hheap _ _).mp hitem' with ⟨rfl, -⟩ | hold
    · exact hne
    · exact h.ne_zero hold
  · intro foff' item' hitem'
    rcases (hheap _ _).mp hitem' with ⟨-, rfl⟩ | hold
    · exact ⟨key, value, hspells⟩
    · exact h.spelled hold
  · apply (h.forest.add foff).congr _ hlinked
    intro foff'
    constructor
    · rintro ⟨item', hitem'⟩
      rcases (hheap _ _).mp hitem' with ⟨heq, -⟩ | hold
      · exact Or.inl heq
      · exact Or.inr ⟨item', hold⟩
    · rintro (rfl | ⟨item', hold⟩)
      · exact ⟨item, (hheap _ _).mpr (Or.inl ⟨rfl, rfl⟩)⟩
      · exact ⟨item', (hheap _ _).mpr (Or.inr hold)⟩
  · intro foff' item₁ kin item₂ hitem₁ hptr₁ hitem₂
    rcases (hheap _ _).mp hitem₁ with ⟨-, rfl⟩ | hold₁
    · exact absurd (hptr kin) hptr₁
    · rcases (hheap _ _).mp hitem₂ with ⟨heq, -⟩ | hold₂
      · have hlive := (h.forest.closed (Linked.of_item hold₁ hptr₁)).2
        rw [heq] at hlive
        exact absurd hlive hfresh
      · exact h.family hold₁ hptr₁ hold₂

end Sound

/-- The slots of a tree that nothing leads to: all that lead there are among
them, and all but the first one are led to. -/
structure UnlinkedTree (heap : Heap) (foff : ℕ) (foffs : List ℕ) : Prop where
  first : foff ∈ foffs
  closed : ∀ {node kin next}, heap.Linked node kin next → next ∈ foffs →
    node ∈ foffs
  linked : ∀ slot ∈ foffs, slot = foff ∨
    ∃ node kin, heap.Linked node kin slot

structure Rooted (heap : Heap) (dad typePtr foff : ℕ) : Prop where
  unlinked : Unlinked heap.Linked foff
  item : ∃ item, heap foff item ∧ item.entity.famAddr.dadPtr = dad ∧
    item.entity.typePtr = typePtr

/-- An item that nothing leads to gets its brothers and sons. -/
theorem Sound.link (h : heap.Sound) (hitem : heap foff item)
    (hroot : Unlinked heap.Linked foff) {bro son : ℕ}
    (hbro : bro ≠ 0 → bro ≠ foff ∧
      heap.Rooted item.entity.famAddr.dadPtr 0 bro)
    (hson : son ≠ 0 → son ≠ foff ∧ heap.Rooted foff 0 son)
    (hapart : bro = son → bro = 0)
    (hheap : ∀ foff' item', heap' foff' item' ↔
      (foff' = foff ∧ item' = item.link bro son) ∨
        (foff' ≠ foff ∧ heap foff' item')) : heap'.Sound := by
  have hkin : ∀ kin, (item.link bro son).kinPtr kin ≠ 0 →
      (item.link bro son).kinPtr kin ≠ foff ∧
        heap.Rooted (item.kinDad foff kin) 0
          ((item.link bro son).kinPtr kin) := by
    intro kin hne
    cases kin with
    | bro => exact hbro hne
    | son => exact hson hne
  have hlinked : ∀ {node kin next}, heap'.Linked node kin next →
      (node = foff ∧ next ≠ 0 ∧ (item.link bro son).kinPtr kin = next) ∨
        (node ≠ foff ∧ heap.Linked node kin next) := by
    rintro node kin next ⟨hne, item', hitem', hptr⟩
    rcases (hheap _ _).mp hitem' with ⟨rfl, rfl⟩ | ⟨hnode, hold⟩
    · exact Or.inl ⟨rfl, hne, hptr⟩
    · exact Or.inr ⟨hnode, hne, item', hold, hptr⟩
  have hlive : ∀ foff', heap'.Live foff' ↔ heap.Live foff' := by
    intro foff'
    constructor
    · rintro ⟨item', hitem'⟩
      rcases (hheap _ _).mp hitem' with ⟨rfl, -⟩ | ⟨-, hold⟩
      · exact ⟨item, hitem⟩
      · exact ⟨item', hold⟩
    · rintro ⟨item', hitem'⟩
      by_cases heq : foff' = foff
      · exact ⟨_, (hheap _ _).mpr (Or.inl ⟨heq, rfl⟩)⟩
      · exact ⟨item', (hheap _ _).mpr (Or.inr ⟨heq, hitem'⟩)⟩
  constructor
  · intro foff' item₁ item₂ hitem₁ hitem₂
    rcases (hheap _ _).mp hitem₁ with ⟨rfl, rfl⟩ | ⟨hne, hold₁⟩
    · rcases (hheap _ _).mp hitem₂ with ⟨-, rfl⟩ | ⟨hne, -⟩
      · rfl
      · exact absurd rfl hne
    · rcases (hheap _ _).mp hitem₂ with ⟨heq, -⟩ | ⟨-, hold₂⟩
      · exact absurd heq hne
      · exact h.functional foff' item₁ item₂ hold₁ hold₂
  · intro foff' item' hitem'
    obtain ⟨item₀, hitem₀⟩ := (hlive foff').mp ⟨item', hitem'⟩
    exact h.ne_zero hitem₀
  · intro foff' item' hitem'
    rcases (hheap _ _).mp hitem' with ⟨-, rfl⟩ | ⟨-, hold⟩
    · obtain ⟨key, value, hspells⟩ := h.spelled hitem
      exact ⟨key, value, hspells⟩
    · exact h.spelled hold
  · have hforest : LinkForest heap.Live heap'.Linked := by
      refine h.forest.relink ⟨item, hitem⟩ hroot ?_ ?_ hlinked
      · rintro kin next ⟨hne, rfl⟩
        obtain ⟨hfoff, hrooted⟩ := hkin kin hne
        obtain ⟨item', hitem', -⟩ := hrooted.item
        exact ⟨⟨item', hitem'⟩, hfoff, hrooted.unlinked⟩
      · rintro kin kin' next ⟨hne, hptr⟩ ⟨-, hptr'⟩
        cases kin with
        | bro =>
            cases kin' with
            | bro => rfl
            | son => exact absurd (hptr.symm.trans
                (hapart (hptr.trans hptr'.symm))) hne
        | son =>
            cases kin' with
            | bro => exact absurd (hptr'.symm.trans
                (hapart (hptr'.trans hptr.symm))) hne
            | son => rfl
    exact hforest.congr hlive (fun _ _ _ => Iff.rfl)
  · intro foff' item₁ kin item₂ hitem₁ hne hitem₂
    rcases (hheap _ _).mp hitem₁ with ⟨rfl, rfl⟩ | ⟨hfoff, hold₁⟩
    · obtain ⟨hother, hrooted⟩ := hkin kin hne
      obtain ⟨item', hitem', hdad, htype⟩ := hrooted.item
      rcases (hheap _ _).mp hitem₂ with ⟨heq, -⟩ | ⟨-, hold₂⟩
      · exact absurd heq hother
      · rw [h.functional _ item' item₂ hitem' hold₂]
        refine ⟨?_, htype⟩
        rw [hdad]
        cases kin <;> rfl
    · rcases (hheap _ _).mp hitem₂ with ⟨heq, -⟩ | ⟨-, hold₂⟩
      · have hbefore := Linked.of_item hold₁ hne
        rw [heq] at hbefore
        exact absurd hbefore (hroot foff' kin)
      · exact h.family hold₁ hne hold₂

end Heap

end NosqlDbms
