import NosqlDbms.Chain
import NosqlDbms.Runs
import NosqlDbms.SectionHead
import Mathlib.Tactic

/-!
# The generic list

`LIST_DEFINE` of `utils/list.h`: a singly linked list with its first node, its
last node and the number of nodes.  `CMP_FUNC` compares the values of two
nodes.  `DTOR_FUNC` is given a node, which is not to be accessed any more.

The list stands for its history: its members in the order of their addition,
what was added and what was removed.
-/

namespace NosqlDbms

structure ListNode (α : Type) where
  value : α
  next : ℕ

/-- `List_TYPE`; a NULL pointer is 0. -/
structure ListCol where
  head : ℕ
  tail : ℕ
  count : ℕ

/-- A list, the nodes in memory and those that were given to `DTOR_FUNC`. -/
structure ListMem (α : Type) where
  col : ListCol
  nodes : ℕ → Option (ListNode α)
  destroyed : List ℕ

/-- `list_TYPE_new`, with `calloc`. -/
def listNew : ListCol := ⟨0, 0, 0⟩

section Operations

variable {α : Type}

def ListMem.withCol (mem : ListMem α) (col : ListCol) : ListMem α :=
  { mem with col := col }

def ListMem.setNode (mem : ListMem α) (ptr : ℕ) (node : ListNode α) :
    ListMem α :=
  { mem with nodes := Function.update mem.nodes ptr (some node) }

@[simp] theorem ListMem.nodes_setNode_self (mem : ListMem α) (ptr : ℕ)
    (node : ListNode α) : (mem.setNode ptr node).nodes ptr = some node :=
  Function.update_self ..

theorem ListMem.nodes_setNode_of_ne (mem : ListMem α) {ptr other : ℕ}
    (node : ListNode α) (hne : other ≠ ptr) :
    (mem.setNode ptr node).nodes other = mem.nodes other :=
  Function.update_of_ne hne ..

def nodeAt (ptr : ℕ) : Prog (ListMem α) (ListNode α) := fun mem =>
  match mem.nodes ptr with
  | none => .stuck
  | some node => .ok node mem

def setNext (ptr next : ℕ) : Prog (ListMem α) Unit := do
  let node ← nodeAt ptr
  Prog.modify (fun mem => mem.setNode ptr { node with next := next })

def setCol (change : ListCol → ListCol) : Prog (ListMem α) Unit :=
  Prog.modify (fun mem => mem.withCol (change mem.col))

/-- `DTOR_FUNC`. -/
def destroy (ptr : ℕ) : Prog (ListMem α) Unit := do
  let _ ← nodeAt ptr
  Prog.modify (fun mem =>
    { mem with
      nodes := Function.update mem.nodes ptr none
      destroyed := mem.destroyed ++ [ptr] })

/-- `list_TYPE_add`. -/
def listAdd (ent : ℕ) : Prog (ListMem α) Unit := do
  let mem ← Prog.get
  (if mem.col.head = 0 then
    setCol (fun col => { col with head := ent, tail := ent })
  else do
    setNext mem.col.tail ent
    setCol (fun col => { col with tail := ent }))
  setCol (fun col => { col with count := sizeAdd col.count 1 })

/-- `list_TYPE_del_fst`. -/
def listDelFst : Prog (ListMem α) Unit := do
  let mem ← Prog.get
  if 1 < mem.col.count then do
    let first ← nodeAt mem.col.head
    destroy mem.col.head
    setCol (fun col =>
      { col with head := first.next, count := sizeSub col.count 1 })
  else if mem.col.count = 1 then do
    destroy mem.col.head
    setCol (fun col => ⟨0, 0, sizeSub col.count 1⟩)
  else pure ()

/-- `list_TYPE_del_nxt`. -/
def listDelNxt (ent : ℕ) : Prog (ListMem α) Unit := do
  let node ← nodeAt ent
  let mem ← Prog.get
  (if mem.col.tail = node.next then
    setCol (fun col => { col with tail := ent })
  else pure ())
  if node.next ≠ 0 then do
    let nxt ← nodeAt node.next
    setNext ent nxt.next
    destroy node.next
    setCol (fun col => { col with count := sizeSub col.count 1 })
  else pure ()

variable (cmp : α → α → ℤ)

/-- The loop of `list_TYPE_add_lk_set`: whether it returns.  `fuel` bounds the
rounds. -/
def lkSetFrom (ent : ℕ) : ℕ → ℕ → Prog (ListMem α) Bool
  | 0, _ => Prog.stuck
  | fuel + 1, cur => do
      if cur ≠ 0 then do
        let curNode ← nodeAt cur
        let entNode ← nodeAt ent
        if cmp curNode.value entNode.value = 0 then return true
        else lkSetFrom ent fuel curNode.next
      else return false

/-- `list_TYPE_add_lk_set`.  One round more than there are nodes. -/
def listAddLkSet (ent : ℕ) : Prog (ListMem α) Bool := do
  let mem ← Prog.get
  if mem.col.head = 0 then do
    setCol (fun col => { col with head := ent, tail := ent })
    setCol (fun col => { col with count := sizeAdd col.count 1 })
    return true
  else if ← lkSetFrom cmp ent (mem.col.count + 1) mem.col.head then
    return false
  else do
    setNext mem.col.tail ent
    setCol (fun col => { col with tail := ent })
    setCol (fun col => { col with count := sizeAdd col.count 1 })
    return true

end Operations

/-- `fileoff_itm_cmp`, for the offsets. -/
def fileoffItmCmp (first second : ℕ) : ℤ := if first ≠ second then 1 else 0

/-! ## The history -/

structure ListHistory (α : Type) where
  /-- Nodes and values, in the order of their addition. -/
  members : List (ℕ × α)
  added : List ℕ
  removed : List ℕ

section ListHistory

variable {α : Type}

namespace ListHistory

def ptrs (history : ListHistory α) : List ℕ := history.members.map Prod.fst

def add (history : ListHistory α) (ent : ℕ) (value : α) : ListHistory α where
  members := history.members ++ [(ent, value)]
  added := history.added ++ [ent]
  removed := history.removed

def remove (history : ListHistory α) (gone : ℕ) : ListHistory α where
  members := history.members.filter (fun member => member.1 != gone)
  added := history.added
  removed := history.removed ++ [gone]

def behind (history : ListHistory α) (ent : ℕ) : Option ℕ :=
  (history.ptrs.dropWhile (fun ptr => ptr != ent))[1]?

def Has (history : ListHistory α) (cmp : α → α → ℤ) (value : α) : Prop :=
  ∃ member ∈ history.members, cmp member.2 value = 0

instance instDecidableListHistoryHas (history : ListHistory α) (cmp : α → α → ℤ) (value : α) :
    Decidable (history.Has cmp value) :=
  inferInstanceAs (Decidable (∃ member ∈ history.members, _))

end ListHistory

inductive ListCall (α : Type) where
  | add (ent : ℕ) (value : α)
  | addLkSet (ent : ℕ) (value : α)
  | delFst
  | delNxt (ent : ℕ)

/-- A node to be added is fresh, and a node is removed behind a member. -/
def ListCall.Valid (history : ListHistory α) : ListCall α → Prop
  | .add ent _ => 0 < ent ∧ ent < 2 ^ 64 ∧ ent ∉ history.ptrs
  | .addLkSet ent _ => 0 < ent ∧ ent < 2 ^ 64 ∧ ent ∉ history.ptrs
  | .delFst => True
  | .delNxt ent => ent ∈ history.ptrs

instance instDecidableListValid (history : ListHistory α) (call : ListCall α) :
    Decidable (call.Valid history) :=
  match call with
  | .add _ _ => inferInstanceAs (Decidable (_ ∧ _ ∧ _))
  | .addLkSet _ _ => inferInstanceAs (Decidable (_ ∧ _ ∧ _))
  | .delFst => inferInstanceAs (Decidable True)
  | .delNxt _ => inferInstanceAs (Decidable (_ ∈ _))

/-- What a call is for. -/
def ListHistory.after (history : ListHistory α) (cmp : α → α → ℤ) : ListCall α → ListHistory α
  | .add ent value => history.add ent value
  | .addLkSet ent value =>
      if history.Has cmp value then history else history.add ent value
  | .delFst =>
      match history.ptrs.head? with
      | none => history
      | some first => history.remove first
  | .delNxt ent =>
      match history.behind ent with
      | none => history
      | some nxt => history.remove nxt

end ListHistory

/-! ## Runs -/

structure ListState (α : Type) where
  mem : ListMem α
  history : ListHistory α

section Runs

variable {α : Type} (cmp : α → α → ℤ)

/-- The call, with what it returns; a node to be added is made first, with its
`next` NULL. -/
def listCall : ListCall α → Prog (ListMem α) (Option Bool)
  | .add ent value => do
      Prog.modify (fun mem => mem.setNode ent ⟨value, 0⟩)
      listAdd ent
      return none
  | .addLkSet ent value => do
      Prog.modify (fun mem => mem.setNode ent ⟨value, 0⟩)
      let isAdded ← listAddLkSet cmp ent
      return some isAdded
  | .delFst => do
      listDelFst
      return none
  | .delNxt ent => do
      listDelNxt ent
      return none

def listStep (call : ListCall α) (state : ListState α) :
    Option (ListState α) :=
  match listCall cmp call state.mem with
  | .ok _ mem => some ⟨mem, state.history.after cmp call⟩
  | .failed _ => none
  | .stuck => none

/-- The states reached from `list_TYPE_new`, with any nodes in memory. -/
abbrev ListRun : ListState α → Prop :=
  Run (fun state => state.mem.col = listNew ∧ state.mem.destroyed = [] ∧
      state.history = ⟨[], [], []⟩)
    (fun call state state' => listStep cmp call state = some state')
    (fun state call => call.Valid state.history)

/-- The node points to the next one. -/
def ListMem.Links (mem : ListMem α) (ptr next : ℕ) : Prop :=
  ∃ value, mem.nodes ptr = some ⟨value, next⟩

structure ListLaw (state : ListState α) : Prop where
  returns : ∀ call : ListCall α, call.Valid state.history →
    ∃ state', listStep cmp call state = some state'
  chain : Chain state.mem.Links state.mem.col.head state.history.ptrs 0
  count : state.mem.col.count = state.history.members.length
  tail : state.mem.col.tail = state.history.ptrs.getLast?.getD 0
  values : ∀ member ∈ state.history.members, ∃ next,
    state.mem.nodes member.1 = some ⟨member.2, next⟩
  order : state.history.ptrs.Sublist state.history.added
  destroyed : state.mem.destroyed = state.history.removed
  once : (state.history.ptrs ++ state.mem.destroyed).Perm state.history.added
  addLkSet : ∀ ent value, (ListCall.addLkSet ent value).Valid state.history →
    ∃ isAdded mem,
      listCall cmp (.addLkSet ent value) state.mem = .ok (some isAdded) mem ∧
      (isAdded = false ↔ state.history.Has cmp value) ∧
      (isAdded = false → mem = state.mem.setNode ent ⟨value, 0⟩)

end Runs

/-! ## What the list in memory stands for -/

structure ListMem.Represents {α : Type} (mem : ListMem α) (history : ListHistory α) :
    Prop where
  chain : Chain mem.Links mem.col.head history.ptrs 0
  tail : mem.col.tail = history.ptrs.getLast?.getD 0
  count : mem.col.count = history.members.length
  nodup : history.ptrs.Nodup
  address : ∀ ptr ∈ history.ptrs, 0 < ptr ∧ ptr < 2 ^ 64
  values : ∀ member ∈ history.members, ∃ next,
    mem.nodes member.1 = some ⟨member.2, next⟩
  order : history.ptrs.Sublist history.added
  destroyed : mem.destroyed = history.removed
  once : (history.ptrs ++ history.removed).Perm history.added

section Represents

variable {α : Type} {mem mem' : ListMem α} {history : ListHistory α} {ent : ℕ}
  {value : α} {node : ListNode α} {cmp : α → α → ℤ}

theorem ListMem.links_iff (hnode : mem.nodes ent = some node) {next : ℕ} :
    mem.Links ent next ↔ next = node.next := by
  rw [Links, hnode]
  constructor
  · rintro ⟨value, heq⟩
    rw [Option.some.inj heq]
  · rintro rfl
    exact ⟨node.value, rfl⟩

theorem length_lt_of_addresses {ptrs : List ℕ} (hnodup : ptrs.Nodup)
    (haddress : ∀ ptr ∈ ptrs, 0 < ptr ∧ ptr < 2 ^ 64) :
    ptrs.length < 2 ^ 64 := by
  have hsub : ptrs.toFinset ⊆ Finset.Ioo 0 (2 ^ 64) := by
    intro ptr hmem
    rw [Finset.mem_Ioo]
    exact haddress ptr (List.mem_toFinset.mp hmem)
  have hcard := Finset.card_le_card hsub
  rw [List.toFinset_card_of_nodup hnodup, Nat.card_Ioo] at hcard
  omega

theorem ListHistory.length_ptrs : history.ptrs.length = history.members.length :=
  List.length_map _

theorem ListHistory.ptrs_add : (history.add ent value).ptrs = history.ptrs ++ [ent] := by
  rw [ptrs, add, List.map_append]
  rfl

theorem ListMem.value_setNext (mem : ListMem α) {ptr other next : ℕ}
    (hnode : mem.nodes ptr = some node) (next' : ℕ)
    (hother : mem.nodes other = some ⟨value, next⟩) :
    ∃ after, (mem.setNode ptr { node with next := next' }).nodes other =
      some ⟨value, after⟩ := by
  by_cases heq : other = ptr
  · subst heq
    rw [hnode, Option.some.injEq] at hother
    refine ⟨next', ?_⟩
    rw [mem.nodes_setNode_self, hother]
  · exact ⟨next, (mem.nodes_setNode_of_ne _ heq).trans hother⟩

namespace ListMem.Represents

theorem setNode (h : mem.Represents history) (hfresh : ent ∉ history.ptrs) :
    (mem.setNode ent node).Represents history where
  chain := by
    apply h.chain.congr
    rintro ptr hmem next ⟨value, hnode⟩
    have hne : ptr ≠ ent := fun heq => hfresh (heq ▸ hmem)
    exact ⟨value, by rw [mem.nodes_setNode_of_ne node hne, hnode]⟩
  tail := h.tail
  count := h.count
  nodup := h.nodup
  address := h.address
  values := by
    intro member hmem
    obtain ⟨next, hnode⟩ := h.values member hmem
    have hptr : member.1 ∈ history.ptrs := List.mem_map_of_mem hmem
    have hne : member.1 ≠ ent := fun heq => hfresh (heq ▸ hptr)
    exact ⟨next, by rw [mem.nodes_setNode_of_ne node hne, hnode]⟩
  order := h.order
  destroyed := h.destroyed
  once := h.once

theorem head_eq_zero_iff (h : mem.Represents history) :
    mem.col.head = 0 ↔ history.members = [] := by
  have hchain := h.chain
  cases hmembers : history.members with
  | nil =>
      rw [ListHistory.ptrs, hmembers] at hchain
      exact ⟨fun _ => rfl, fun _ => hchain⟩
  | cons first rest =>
      rw [ListHistory.ptrs, hmembers, List.map_cons] at hchain
      have haddress := h.address first.1
        (by rw [ListHistory.ptrs, hmembers]; exact List.mem_cons_self)
      have hhead := hchain.start_eq
      constructor
      · intro hzero
        omega
      · intro hnil
        cases hnil

end ListMem.Represents

/-! ## Adding a node -/

theorem listAdd_nil (hhead : mem.col.head = 0) (ent : ℕ) :
    listAdd ent mem =
      .ok () (mem.withCol ⟨ent, ent, sizeAdd mem.col.count 1⟩) := by
  rw [listAdd, Prog.bind_of_ok (Prog.get_apply mem), if_pos hhead]
  rfl

theorem listAdd_linked (hhead : mem.col.head ≠ 0)
    (hnode : mem.nodes mem.col.tail = some node) (ent : ℕ) :
    listAdd ent mem = .ok () ((mem.setNode mem.col.tail
      { node with next := ent }).withCol
        ⟨mem.col.head, ent, sizeAdd mem.col.count 1⟩) := by
  have hlink : setNext mem.col.tail ent mem =
      .ok () (mem.setNode mem.col.tail { node with next := ent }) := by
    have hat : nodeAt mem.col.tail mem = .ok node mem := by
      rw [nodeAt, hnode]
    exact Prog.bind_of_ok hat
  have hlast : (do
      setNext mem.col.tail ent
      setCol (fun col => { col with tail := ent })) mem =
        .ok () ((mem.setNode mem.col.tail
          { node with next := ent }).withCol
            { mem.col with tail := ent }) := Prog.bind_of_ok hlink
  rw [listAdd, Prog.bind_of_ok (Prog.get_apply mem), if_neg hhead]
  exact Prog.bind_of_ok hlast

theorem ListMem.Represents.linked (h : mem.Represents history)
    (hpos : 0 < ent) (hlt : ent < 2 ^ 64) (hfresh : ent ∉ history.ptrs)
    (hchain : Chain mem'.Links mem'.col.head (history.ptrs ++ [ent]) 0)
    (htail : mem'.col.tail = ent)
    (hcount : mem'.col.count = sizeAdd mem.col.count 1)
    (hvalues : ∀ member ∈ history.members ++ [(ent, value)],
      ∃ next, mem'.nodes member.1 = some ⟨member.2, next⟩)
    (hdestroyed : mem'.destroyed = mem.destroyed) :
    mem'.Represents (history.add ent value) := by
  have hnodup : (history.add ent value).ptrs.Nodup := by
    rw [ListHistory.ptrs_add]
    exact List.nodup_append.mpr ⟨h.nodup, List.nodup_singleton ent,
      fun ptr hmem other hother => by
        rw [List.mem_singleton.mp hother]
        exact fun heq => hfresh (heq ▸ hmem)⟩
  have haddress : ∀ ptr ∈ (history.add ent value).ptrs,
      0 < ptr ∧ ptr < 2 ^ 64 := by
    intro ptr hmem
    rw [ListHistory.ptrs_add, List.mem_append, List.mem_singleton] at hmem
    rcases hmem with hmem | rfl
    · exact h.address ptr hmem
    · exact ⟨hpos, hlt⟩
  constructor
  · rw [ListHistory.ptrs_add]
    exact hchain
  · rw [ListHistory.ptrs_add, List.getLast?_concat, htail]
    rfl
  · have hlength := length_lt_of_addresses hnodup haddress
    rw [ListHistory.length_ptrs, ListHistory.add, List.length_append,
      List.length_singleton] at hlength
    rw [hcount, h.count, sizeAdd_of_lt hlength, ListHistory.add,
      List.length_append, List.length_singleton]
  · exact hnodup
  · exact haddress
  · exact hvalues
  · rw [ListHistory.ptrs_add]
    exact h.order.append (List.Sublist.refl [ent])
  · rw [hdestroyed, h.destroyed]
    rfl
  · have hswap : (history.ptrs ++ [ent] ++ history.removed).Perm
        (history.ptrs ++ history.removed ++ [ent]) := by
      rw [List.append_assoc, List.append_assoc]
      exact List.perm_append_comm.append_left history.ptrs
    rw [ListHistory.ptrs_add]
    exact hswap.trans (h.once.append_right [ent])

theorem ListMem.Represents.add (h : mem.Represents history)
    (hnode : mem.nodes ent = some ⟨value, 0⟩) (hpos : 0 < ent)
    (hlt : ent < 2 ^ 64) (hfresh : ent ∉ history.ptrs) :
    ∃ mem', listAdd ent mem = .ok () mem' ∧
      mem'.Represents (history.add ent value) := by
  rcases List.eq_nil_or_concat' history.members with hnil | ⟨front, last, hlast⟩
  · refine ⟨_, listAdd_nil (h.head_eq_zero_iff.mpr hnil) ent,
      h.linked hpos hlt hfresh ?_ rfl rfl ?_ rfl⟩
    · rw [ListHistory.ptrs, hnil]
      exact ⟨rfl, 0, ⟨value, hnode⟩, rfl⟩
    · rw [hnil]
      intro member hmem
      rw [List.nil_append, List.mem_singleton] at hmem
      exact ⟨0, hmem ▸ hnode⟩
  · have hptrs : history.ptrs = front.map Prod.fst ++ [last.1] := by
      rw [ListHistory.ptrs, hlast, List.map_append, List.map_singleton]
    have htail : mem.col.tail = last.1 := by
      rw [h.tail, hptrs, List.getLast?_concat]
      rfl
    have hmem : last ∈ history.members := by
      rw [hlast]
      exact List.mem_append_right front (List.mem_singleton_self last)
    have hhead : mem.col.head ≠ 0 := by
      rw [Ne, h.head_eq_zero_iff, hlast]
      exact List.append_ne_nil_of_right_ne_nil _ (List.cons_ne_nil _ _)
    obtain ⟨next, hlastNode⟩ := h.values last hmem
    have hlastPtr : last.1 ∈ history.ptrs := List.mem_map_of_mem hmem
    have hne : ent ≠ last.1 := fun heq => hfresh (heq ▸ hlastPtr)
    have hnodup := h.nodup
    rw [← htail] at hlastNode
    refine ⟨_, listAdd_linked hhead hlastNode ent,
      h.linked hpos hlt hfresh ?_ rfl rfl ?_ rfl⟩
    · have hchain := h.chain
      rw [hptrs] at hchain hnodup ⊢
      refine hchain.extend ?_ ⟨last.2, ?_⟩ ⟨value, ?_⟩
      · rintro ptr hmem next' ⟨value', hnode'⟩
        have hne' : ptr ≠ mem.col.tail := by
          rw [htail]
          rintro rfl
          exact (List.nodup_append.mp hnodup).2.2 _ hmem _
            (List.mem_singleton_self _) rfl
        exact ⟨value', (mem.nodes_setNode_of_ne _ hne').trans hnode'⟩
      · rw [← htail]
        exact mem.nodes_setNode_self _ _
      · exact (mem.nodes_setNode_of_ne _ (htail ▸ hne)).trans hnode
    · intro member hmem'
      rw [List.mem_append, List.mem_singleton] at hmem'
      rcases hmem' with hold | rfl
      · obtain ⟨next', hnode'⟩ := h.values member hold
        exact mem.value_setNext hlastNode ent hnode'
      · exact ⟨0, (mem.nodes_setNode_of_ne _ (htail ▸ hne)).trans hnode⟩

/-! ## Removing a node -/

theorem ListHistory.ne_of_mem {front rest : List (ℕ × α)} {gone : ℕ}
    (hmembers : history.members = front ++ (gone, value) :: rest)
    (hnodup : history.ptrs.Nodup) :
    ∀ ptr ∈ (front ++ rest).map Prod.fst, ptr ≠ gone := by
  rw [ListHistory.ptrs, hmembers, List.map_append, List.map_cons,
    List.nodup_middle, List.nodup_cons, ← List.map_append] at hnodup
  rintro ptr hmem rfl
  exact hnodup.1 hmem

theorem ListHistory.members_remove {front rest : List (ℕ × α)} {gone : ℕ}
    (hmembers : history.members = front ++ (gone, value) :: rest)
    (hnodup : history.ptrs.Nodup) :
    (history.remove gone).members = front ++ rest := by
  have hother : ∀ member ∈ front ++ rest, (member.1 != gone) = true := by
    intro member hmem
    exact bne_iff_ne.mpr (ListHistory.ne_of_mem hmembers hnodup member.1
      (List.mem_map_of_mem hmem))
  rw [ListHistory.remove, hmembers, List.filter_append, List.filter_cons_of_neg
    (by simp), ← List.filter_append, List.filter_eq_self.mpr hother]

theorem ListMem.Represents.remove (h : mem.Represents history)
    {front rest : List (ℕ × α)} {gone : ℕ}
    (hmembers : history.members = front ++ (gone, value) :: rest)
    (hchain : Chain mem'.Links mem'.col.head ((front ++ rest).map Prod.fst)
      0)
    (htail : mem'.col.tail =
      ((front ++ rest).map Prod.fst).getLast?.getD 0)
    (hcount : mem'.col.count = sizeSub mem.col.count 1)
    (hvalues : ∀ member ∈ front ++ rest, ∀ next,
      mem.nodes member.1 = some ⟨member.2, next⟩ →
      ∃ next', mem'.nodes member.1 = some ⟨member.2, next'⟩)
    (hdestroyed : mem'.destroyed = mem.destroyed ++ [gone]) :
    mem'.Represents (history.remove gone) := by
  have hold : history.ptrs =
      front.map Prod.fst ++ gone :: rest.map Prod.fst := by
    rw [ListHistory.ptrs, hmembers, List.map_append, List.map_cons]
  have hnew := ListHistory.members_remove hmembers h.nodup
  have hptrs : (history.remove gone).ptrs = (front ++ rest).map Prod.fst := by
    rw [ListHistory.ptrs, hnew]
  have hsub : (history.remove gone).ptrs.Sublist history.ptrs := by
    rw [hptrs, hold, List.map_append]
    exact (List.Sublist.refl _).append (List.sublist_cons_self _ _)
  have hlength := length_lt_of_addresses h.nodup h.address
  rw [ListHistory.length_ptrs] at hlength
  constructor
  · rw [hptrs]
    exact hchain
  · rw [hptrs]
    exact htail
  · rw [hcount, h.count, hnew, hmembers]
    rw [hmembers] at hlength
    simp only [List.length_append, List.length_cons] at hlength ⊢
    rw [sizeSub_of_le (by omega) hlength]
    omega
  · exact h.nodup.sublist hsub
  · intro ptr hmem
    exact h.address ptr (hsub.subset hmem)
  · rw [hnew]
    intro member hmem
    have hmem' : member ∈ history.members := by
      rw [hmembers]
      rw [List.mem_append] at hmem ⊢
      exact hmem.imp id (List.mem_cons_of_mem _)
    obtain ⟨next, hnode⟩ := h.values member hmem'
    exact hvalues member hmem next hnode
  · exact hsub.trans h.order
  · rw [hdestroyed, h.destroyed]
    rfl
  · have honce := h.once
    rw [hold] at honce
    rw [hptrs, List.map_append]
    refine .trans ?_ honce
    change (_ ++ (history.removed ++ [gone])).Perm _
    rw [← List.append_assoc]
    refine List.perm_append_comm.trans ?_
    rw [List.singleton_append, List.append_assoc]
    exact List.perm_middle.symm.trans (by simp)

def ListMem.free (mem : ListMem α) (ptr : ℕ) : ListMem α :=
  { mem with
    nodes := Function.update mem.nodes ptr none
    destroyed := mem.destroyed ++ [ptr] }

theorem ListMem.nodes_free_of_ne (mem : ListMem α) {ptr other : ℕ}
    (hne : other ≠ ptr) : (mem.free ptr).nodes other = mem.nodes other :=
  Function.update_of_ne hne ..

theorem destroy_apply (hnode : mem.nodes ent = some node) :
    destroy ent mem = .ok () (mem.free ent) := by
  have hat : nodeAt ent mem = .ok node mem := by
    rw [nodeAt, hnode]
  exact Prog.bind_of_ok hat

theorem listDelFst_apply (hpos : 0 < mem.col.count)
    (hnode : mem.nodes mem.col.head = some node) :
    listDelFst mem = .ok () ((mem.free mem.col.head).withCol
      (if 1 < mem.col.count then
        ⟨node.next, mem.col.tail, sizeSub mem.col.count 1⟩
      else ⟨0, 0, sizeSub mem.col.count 1⟩)) := by
  have hat : nodeAt mem.col.head mem = .ok node mem := by
    rw [nodeAt, hnode]
  have hdestroy := destroy_apply hnode
  rw [listDelFst, Prog.bind_of_ok (Prog.get_apply mem)]
  by_cases hmore : 1 < mem.col.count
  · rw [if_pos hmore, if_pos hmore, Prog.bind_of_ok hat]
    exact Prog.bind_of_ok hdestroy
  · rw [if_neg hmore, if_neg hmore, if_pos (by omega)]
    exact Prog.bind_of_ok hdestroy

theorem ListMem.Represents.delFst (h : mem.Represents history)
    (cmp : α → α → ℤ) :
    ∃ mem', listDelFst mem = .ok () mem' ∧
      mem'.Represents (history.after cmp .delFst) := by
  have hcount := h.count
  cases hmembers : history.members with
  | nil =>
      have hzero : mem.col.count = 0 := by
        rw [hcount, hmembers, List.length_nil]
      refine ⟨mem, ?_, ?_⟩
      · rw [listDelFst, Prog.bind_of_ok (Prog.get_apply mem),
          if_neg (by omega), if_neg (by omega)]
        rfl
      · rw [ListHistory.after, ListHistory.ptrs, hmembers]
        exact h
  | cons first rest =>
      have hafter : history.after cmp .delFst = history.remove first.1 := by
        rw [ListHistory.after, ListHistory.ptrs, hmembers]
        rfl
      have hptrs : history.ptrs = first.1 :: rest.map Prod.fst := by
        rw [ListHistory.ptrs, hmembers, List.map_cons]
      obtain ⟨next, hnode⟩ := h.values first
        (by rw [hmembers]; exact List.mem_cons_self)
      have hne := @ListHistory.ne_of_mem α history first.2 [] rest first.1 hmembers
        h.nodup
      have hchain := h.chain
      rw [hptrs] at hchain
      obtain ⟨hhead, after, hlinks, hrest⟩ := hchain
      have hafterNext : after = next := (ListMem.links_iff hnode).mp hlinks
      rw [hafterNext] at hrest
      rw [← hhead] at hnode
      rw [hmembers, List.length_cons] at hcount
      have hcol : (if 1 < mem.col.count then
            ⟨next, mem.col.tail, sizeSub mem.col.count 1⟩
          else ⟨0, 0, sizeSub mem.col.count 1⟩ : ListCol) =
          ⟨next, (rest.map Prod.fst).getLast?.getD 0,
            sizeSub mem.col.count 1⟩ := by
        cases rest with
        | nil =>
            have hend : next = 0 := hrest
            rw [List.length_nil] at hcount
            rw [if_neg (by omega), hend]
            rfl
        | cons second rest =>
            rw [List.length_cons] at hcount
            rw [if_pos (by omega), h.tail, hptrs, List.map_cons,
              List.getLast?_cons_cons]
      refine ⟨_, listDelFst_apply (by omega) hnode, ?_⟩
      rw [hafter, hcol]
      apply @ListMem.Represents.remove α mem _ history first.2 h [] rest
        first.1 hmembers
      · apply hrest.congr
        rintro ptr hmem next' ⟨value', hold⟩
        refine ⟨value', ?_⟩
        rw [← hhead] at hne
        exact (mem.nodes_free_of_ne (hne ptr hmem)).trans hold
      · rfl
      · rfl
      · intro member hmem next' hold
        refine ⟨next', ?_⟩
        rw [← hhead] at hne
        exact (mem.nodes_free_of_ne
          (hne member.1 (List.mem_map_of_mem hmem))).trans hold
      · rw [← hhead]
        rfl

def ListMem.unlinked (mem : ListMem α) (ent : ℕ) (node nxt : ListNode α) :
    ListMem α :=
  ((mem.setNode ent { node with next := nxt.next }).free node.next).withCol
    ⟨mem.col.head, if mem.col.tail = node.next then ent else mem.col.tail,
      sizeSub mem.col.count 1⟩

theorem listDelNxt_apply {nxt : ListNode α}
    (hnode : mem.nodes ent = some node) (hnext : node.next ≠ 0)
    (hne : node.next ≠ ent) (hnxt : mem.nodes node.next = some nxt) :
    listDelNxt ent mem = .ok () (mem.unlinked ent node nxt) := by
  have hat : nodeAt ent mem = .ok node mem := by
    rw [nodeAt, hnode]
  obtain ⟨moved, hmoved, hnodes, hcol, hdestroyed⟩ : ∃ moved,
      (if mem.col.tail = node.next then
        setCol (fun col => { col with tail := ent })
      else pure () : Prog (ListMem α) Unit) mem = .ok () moved ∧
      moved.nodes = mem.nodes ∧
      moved.col = ⟨mem.col.head, if mem.col.tail = node.next then ent
        else mem.col.tail, mem.col.count⟩ ∧
      moved.destroyed = mem.destroyed := by
    split_ifs with htail
    · exact ⟨_, rfl, rfl, rfl, rfl⟩
    · exact ⟨mem, rfl, rfl, rfl, rfl⟩
  have hnxtAt : nodeAt node.next moved = .ok nxt moved := by
    rw [nodeAt, hnodes, hnxt]
  have hentAt : nodeAt ent moved = .ok node moved := by
    rw [nodeAt, hnodes, hnode]
  have hset : setNext ent nxt.next moved =
      .ok () (moved.setNode ent { node with next := nxt.next }) :=
    Prog.bind_of_ok hentAt
  have hdestroy := @destroy_apply α
    (moved.setNode ent { node with next := nxt.next }) node.next nxt
    (by rw [moved.nodes_setNode_of_ne _ hne, hnodes, hnxt])
  rw [listDelNxt, Prog.bind_of_ok hat, Prog.bind_of_ok (Prog.get_apply mem),
    Prog.bind_of_ok hmoved, if_pos hnext, Prog.bind_of_ok hnxtAt,
    Prog.bind_of_ok hset, Prog.bind_of_ok hdestroy]
  simp only [setCol, Prog.modify_apply, ListMem.withCol, ListMem.free,
    ListMem.setNode, ListMem.unlinked, hnodes, hcol, hdestroyed]

theorem listDelNxt_last (hnode : mem.nodes ent = some node)
    (hnext : node.next = 0) (htail : mem.col.tail ≠ 0) :
    listDelNxt ent mem = .ok () mem := by
  have hat : nodeAt ent mem = .ok node mem := by
    rw [nodeAt, hnode]
  rw [listDelNxt, Prog.bind_of_ok hat,
    Prog.bind_of_ok (Prog.get_apply mem), hnext, if_neg htail,
    Prog.bind_of_ok (Prog.pure_apply () mem)]
  rfl

theorem ListHistory.behind_eq {front rest : List (ℕ × α)}
    (hmembers : history.members = front ++ (ent, value) :: rest)
    (hnodup : history.ptrs.Nodup) :
    history.behind ent = (rest.map Prod.fst).head? := by
  have hfront : ∀ ptr ∈ front.map Prod.fst, (ptr != ent) = true := by
    intro ptr hmem
    apply bne_iff_ne.mpr
    apply ListHistory.ne_of_mem hmembers hnodup
    rw [List.map_append]
    exact List.mem_append_left _ hmem
  rw [ListHistory.behind, ListHistory.ptrs, hmembers, List.map_append, List.map_cons,
    List.dropWhile_append_of_pos hfront, List.dropWhile_cons_of_neg
    (by simp)]
  cases rest <;> rfl

theorem ListMem.Represents.delNxt (h : mem.Represents history)
    (cmp : α → α → ℤ) (hmem : ent ∈ history.ptrs) :
    ∃ mem', listDelNxt ent mem = .ok () mem' ∧
      mem'.Represents (history.after cmp (.delNxt ent)) := by
  obtain ⟨⟨ent, value⟩, hmember, rfl⟩ := List.mem_map.mp hmem
  obtain ⟨front, rest, hmembers⟩ := List.append_of_mem hmember
  have hbehind := ListHistory.behind_eq hmembers h.nodup
  have hchain := h.chain
  have haddress := h.address ent hmem
  obtain ⟨next, hnode⟩ := h.values (ent, value) hmember
  have hptrs : history.ptrs =
      front.map Prod.fst ++ ent :: rest.map Prod.fst := by
    rw [ListHistory.ptrs, hmembers, List.map_append, List.map_cons]
  rw [hptrs] at hchain
  obtain ⟨middle, hfront, hmiddle, after, hlinks, hback⟩ :=
    Chain.append_iff.mp hchain
  have hafterNext : after = next := (ListMem.links_iff hnode).mp hlinks
  rw [hafterNext] at hback
  cases rest with
  | nil =>
      have htail : mem.col.tail ≠ 0 := by
        rw [h.tail, hptrs, List.map_nil, List.getLast?_concat]
        exact haddress.1.ne'
      refine ⟨mem, listDelNxt_last hnode hback htail, ?_⟩
      rw [ListHistory.after, hbehind]
      exact h
  | cons nxt rest =>
      have hnextPtr : next = nxt.1 := hback.start_eq
      have hnxtMem : nxt ∈ history.members := by
        rw [hmembers]
        exact List.mem_append_right _
          (List.mem_cons_of_mem _ List.mem_cons_self)
      obtain ⟨beyond, hnxt⟩ := h.values nxt hnxtMem
      have hsplit : history.members =
          (front ++ [(ent, value)]) ++ (nxt.1, nxt.2) :: rest := by
        rw [hmembers, List.append_assoc]
        rfl
      have hne := ListHistory.ne_of_mem hsplit h.nodup
      have hentNe : ent ≠ nxt.1 := by
        apply hne
        rw [List.map_append, List.map_append]
        exact List.mem_append_left _
          (List.mem_append_right _ List.mem_cons_self)
      have hentNe' := ListHistory.ne_of_mem hmembers h.nodup
      have hnewPtrs : (front ++ [(ent, value)] ++ rest).map Prod.fst =
          front.map Prod.fst ++ ent :: rest.map Prod.fst := by
        rw [List.map_append, List.map_append, List.append_assoc]
        rfl
      rw [hnewPtrs] at hne
      have hpos := (h.address nxt.1 (List.mem_map_of_mem hnxtMem)).1
      rw [hnextPtr] at hnode
      refine ⟨_, listDelNxt_apply hnode hpos.ne' hentNe.symm hnxt, ?_⟩
      have hkept : ∀ ptr ∈ (front ++ nxt :: rest).map Prod.fst,
          ptr ≠ nxt.1 → ∀ after, mem.Links ptr after →
            (mem.unlinked ent ⟨value, nxt.1⟩ ⟨nxt.2, beyond⟩).Links ptr
              after := by
        rintro ptr hmem hptr after ⟨value', hold⟩
        refine ⟨value', (mem.setNode ent _).nodes_free_of_ne hptr |>.trans ?_⟩
        exact (mem.nodes_setNode_of_ne _ (hentNe' ptr hmem)).trans hold
      rw [ListHistory.after, hbehind]
      apply h.remove hsplit
      · rw [hnewPtrs]
        apply hchain.skip
        · intro ptr hmem
          apply hkept ptr
          · rw [List.map_append]
            exact List.mem_append_left _ hmem
          · exact hne ptr (List.mem_append_left _ hmem)
        · intro ptr hmem
          apply hkept ptr
          · rw [List.map_append, List.map_cons]
            exact List.mem_append_right _ (List.mem_cons_of_mem _ hmem)
          · exact hne ptr
              (List.mem_append_right _ (List.mem_cons_of_mem _ hmem))
        · intro after hafter
          rw [(ListMem.links_iff hnxt).mp hafter]
          refine ⟨value,
            ((mem.setNode ent _).nodes_free_of_ne hentNe).trans ?_⟩
          exact mem.nodes_setNode_self ent _
      · rw [hnewPtrs]
        have htail := h.tail
        rw [hptrs] at htail
        change (if mem.col.tail = nxt.1 then ent else mem.col.tail) = _
        rcases List.eq_nil_or_concat' rest with hnil | ⟨others, last, hlast⟩
        · rw [hnil] at htail ⊢
          rw [List.map_cons, List.map_nil, List.append_cons,
            List.getLast?_concat, Option.getD_some] at htail
          rw [if_pos htail, List.map_nil, List.getLast?_concat]
          rfl
        · have hlastPtrs : rest.map Prod.fst =
              others.map Prod.fst ++ [last.1] := by
            rw [hlast, List.map_append, List.map_singleton]
          have hlastNe : last.1 ≠ nxt.1 := by
            apply hne
            rw [hlastPtrs]
            simp
          rw [List.map_cons, hlastPtrs, List.append_cons, List.append_cons,
            ← List.append_assoc, List.getLast?_concat, Option.getD_some]
            at htail
          rw [htail, if_neg hlastNe, hlastPtrs, List.append_cons,
            ← List.append_assoc, List.getLast?_concat, Option.getD_some]
      · rfl
      · intro member hmem next' hold
        have hmember' : member.1 ∈ front.map Prod.fst ++
            ent :: rest.map Prod.fst := by
          rw [← hnewPtrs]
          exact List.mem_map_of_mem hmem
        obtain ⟨next'', hset⟩ := mem.value_setNext hnode beyond hold
        exact ⟨next'', ((mem.setNode ent _).nodes_free_of_ne
          (hne member.1 hmember')).trans hset⟩
      · rfl

/-! ## Adding a node as to a set -/

theorem lkSetFrom_apply (cmp : α → α → ℤ) (hent : mem.nodes ent = some node)
    {members : List (ℕ × α)} {cur fuel : ℕ}
    (hchain : Chain mem.Links cur (members.map Prod.fst) 0)
    (hmembers : ∀ member ∈ members, 0 < member.1 ∧
      ∃ next, mem.nodes member.1 = some ⟨member.2, next⟩)
    (hfuel : members.length < fuel) :
    lkSetFrom cmp ent fuel cur mem = .ok
      (decide (∃ member ∈ members, cmp member.2 node.value = 0)) mem := by
  induction members generalizing cur fuel with
  | nil =>
      obtain ⟨rounds, rfl⟩ := Nat.exists_eq_add_one_of_ne_zero
        (Nat.ne_of_gt hfuel)
      have hcur : cur = 0 := hchain
      rw [lkSetFrom, if_neg (not_not.mpr hcur)]
      simp
  | cons member members ih =>
      obtain ⟨rounds, rfl⟩ := Nat.exists_eq_add_one_of_ne_zero
        (Nat.ne_of_gt (Nat.zero_lt_of_lt hfuel))
      obtain ⟨hcur, after, hlinks, hrest⟩ := hchain
      obtain ⟨hpos, next, hnode⟩ := hmembers member List.mem_cons_self
      have hafter : after = next := (ListMem.links_iff hnode).mp hlinks
      rw [← hcur] at hnode hpos
      have hat : nodeAt cur mem = .ok ⟨member.2, next⟩ mem := by
        rw [nodeAt, hnode]
      have hentAt : nodeAt ent mem = .ok node mem := by
        rw [nodeAt, hent]
      rw [lkSetFrom, if_pos hpos.ne', Prog.bind_of_ok hat,
        Prog.bind_of_ok hentAt]
      by_cases hequal : cmp member.2 node.value = 0
      · rw [if_pos hequal]
        simp [hequal]
      · rw [List.length_cons] at hfuel
        rw [hafter] at hrest
        rw [if_neg hequal, ih hrest (fun other hmem =>
          hmembers other (List.mem_cons_of_mem _ hmem)) (by omega)]
        simp [hequal]

theorem listAddLkSet_added {cmp : α → α → ℤ}
    (hadd : listAdd ent mem = .ok () mem')
    (hnone : mem.col.head ≠ 0 →
      lkSetFrom cmp ent (mem.col.count + 1) mem.col.head mem =
        .ok false mem) :
    listAddLkSet cmp ent mem = .ok true mem' := by
  by_cases hhead : mem.col.head = 0
  · rw [listAdd_nil hhead] at hadd
    injection hadd with _ hmem
    rw [← hmem, listAddLkSet, Prog.bind_of_ok (Prog.get_apply mem),
      if_pos hhead]
    rfl
  · rw [listAdd, Prog.bind_of_ok (Prog.get_apply mem), if_neg hhead]
      at hadd
    obtain ⟨_, linked, hlinked, hcount⟩ := Prog.bind_eq_ok hadd
    obtain ⟨_, set, hset, htail⟩ := Prog.bind_eq_ok hlinked
    rw [listAddLkSet, Prog.bind_of_ok (Prog.get_apply mem), if_neg hhead,
      Prog.bind_of_ok (hnone hhead)]
    simp only [Bool.false_eq_true, if_false]
    rw [Prog.bind_of_ok hset, Prog.bind_of_ok htail,
      Prog.bind_of_ok hcount, Prog.pure_apply]

theorem listAddLkSet_found {cmp : α → α → ℤ} (hhead : mem.col.head ≠ 0)
    (hfound : lkSetFrom cmp ent (mem.col.count + 1) mem.col.head mem =
      .ok true mem) :
    listAddLkSet cmp ent mem = .ok false mem := by
  rw [listAddLkSet, Prog.bind_of_ok (Prog.get_apply mem), if_neg hhead,
    Prog.bind_of_ok hfound]
  rfl

theorem ListMem.Represents.addLkSet (h : mem.Represents history)
    (cmp : α → α → ℤ) (hnode : mem.nodes ent = some ⟨value, 0⟩)
    (hpos : 0 < ent) (hlt : ent < 2 ^ 64) (hfresh : ent ∉ history.ptrs) :
    (history.Has cmp value ∧ listAddLkSet cmp ent mem = .ok false mem) ∨
      (¬ history.Has cmp value ∧ ∃ mem',
        listAddLkSet cmp ent mem = .ok true mem' ∧
        mem'.Represents (history.add ent value)) := by
  have hloop : lkSetFrom cmp ent (mem.col.count + 1) mem.col.head mem =
      .ok (decide (history.Has cmp value)) mem :=
    lkSetFrom_apply cmp hnode h.chain
      (fun member hmem =>
        ⟨(h.address member.1 (List.mem_map_of_mem hmem)).1,
          h.values member hmem⟩)
      (by rw [h.count]; exact Nat.lt_succ_self _)
  by_cases hhas : history.Has cmp value
  · left
    have hhead : mem.col.head ≠ 0 := by
      rw [Ne, h.head_eq_zero_iff]
      intro hnil
      obtain ⟨member, hmem, -⟩ := hhas
      rw [hnil] at hmem
      cases hmem
    rw [decide_eq_true hhas] at hloop
    exact ⟨hhas, listAddLkSet_found hhead hloop⟩
  · right
    obtain ⟨mem', hadd, hrepresents⟩ := h.add hnode hpos hlt hfresh
    rw [decide_eq_false hhas] at hloop
    exact ⟨hhas, mem', listAddLkSet_added hadd (fun _ => hloop),
      hrepresents⟩

end Represents

/-! ## Whole runs -/

section Law

variable {α : Type} {cmp : α → α → ℤ} {state : ListState α}

theorem ListMem.Represents.init {mem : ListMem α} (hcol : mem.col = listNew)
    (hdestroyed : mem.destroyed = []) :
    mem.Represents ⟨[], [], []⟩ where
  chain := by
    rw [hcol]
    exact rfl
  tail := by
    rw [hcol]
    rfl
  count := by
    rw [hcol]
    rfl
  nodup := List.nodup_nil
  address := fun ptr hmem => absurd hmem List.not_mem_nil
  values := fun member hmem => absurd hmem List.not_mem_nil
  order := List.Sublist.refl []
  destroyed := hdestroyed
  once := List.Perm.refl []

/-- A call returns, and the list stands for the history after it. -/
theorem ListMem.Represents.call {mem : ListMem α} {history : ListHistory α}
    (h : mem.Represents history) {call : ListCall α}
    (hvalid : call.Valid history) :
    ∃ result mem', listCall cmp call mem = .ok result mem' ∧
      mem'.Represents (history.after cmp call) := by
  cases call with
  | add ent value =>
      obtain ⟨hpos, hlt, hfresh⟩ := hvalid
      obtain ⟨mem', hadd, hrepresents⟩ :=
        (@Represents.setNode _ _ _ ent ⟨value, 0⟩ h hfresh).add
          (mem.nodes_setNode_self _ _) hpos hlt hfresh
      exact ⟨none, mem', Prog.bind_of_ok hadd, hrepresents⟩
  | addLkSet ent value =>
      obtain ⟨hpos, hlt, hfresh⟩ := hvalid
      have hset := @Represents.setNode _ _ _ ent ⟨value, 0⟩ h hfresh
      rcases hset.addLkSet cmp (mem.nodes_setNode_self _ _) hpos hlt hfresh
        with ⟨hhas, hadd⟩ | ⟨hhas, mem', hadd, hrepresents⟩
      · refine ⟨some false, _, Prog.bind_of_ok hadd, ?_⟩
        rw [ListHistory.after, if_pos hhas]
        exact hset
      · refine ⟨some true, mem', Prog.bind_of_ok hadd, ?_⟩
        rw [ListHistory.after, if_neg hhas]
        exact hrepresents
  | delFst =>
      obtain ⟨mem', hdel, hrepresents⟩ := h.delFst cmp
      exact ⟨none, mem', Prog.bind_of_ok hdel, hrepresents⟩
  | delNxt ent =>
      obtain ⟨mem', hdel, hrepresents⟩ := h.delNxt cmp hvalid
      exact ⟨none, mem', Prog.bind_of_ok hdel, hrepresents⟩

theorem ListMem.Represents.law (h : state.mem.Represents state.history) :
    ListLaw cmp state where
  returns := by
    intro call hvalid
    obtain ⟨result, mem', hcall, -⟩ := @Represents.call _ cmp _ _ h _ hvalid
    exact ⟨_, by rw [listStep, hcall]⟩
  chain := h.chain
  count := h.count
  tail := h.tail
  values := h.values
  order := h.order
  destroyed := h.destroyed
  once := by
    rw [h.destroyed]
    exact h.once
  addLkSet := by
    rintro ent value ⟨hpos, hlt, hfresh⟩
    have hset := @Represents.setNode _ _ _ ent ⟨value, 0⟩ h hfresh
    rcases hset.addLkSet cmp (state.mem.nodes_setNode_self _ _) hpos hlt
      hfresh with ⟨hhas, hadd⟩ | ⟨hhas, mem', hadd, -⟩
    · exact ⟨false, _, Prog.bind_of_ok hadd, by simp [hhas],
        fun _ => rfl⟩
    · exact ⟨true, mem', Prog.bind_of_ok hadd, by simp [hhas],
        fun hfalse => nomatch hfalse⟩

end Law

/-- Whatever was added and removed, the list in memory is the history of its
members. -/
theorem listRun_law {α : Type} {cmp : α → α → ℤ} {state : ListState α}
    (run : ListRun cmp state) : ListLaw cmp state := by
  have hrepresents : state.mem.Represents state.history := by
    apply run.invariant
    · rintro ⟨mem, history⟩ ⟨hcol, hdestroyed, rfl⟩
      exact .init hcol hdestroyed
    · intro state call state' h hvalid hstep
      obtain ⟨result, mem', hcall, h'⟩ :=
        @ListMem.Represents.call _ cmp _ _ h _ hvalid
      rw [listStep, hcall, Option.some.injEq] at hstep
      rw [← hstep]
      exact h'
  exact hrepresents.law

/-- The last node is removed through the one before it, and the first one. -/
theorem listRun_law_offsets : ∃ state : ListState ℕ,
    ListLaw fileoffItmCmp state ∧ state.mem.destroyed = [48, 16] ∧
      state.history.members = [(32, 7)] := by
  obtain ⟨state, run, hstate⟩ := Run.exists_of_any
    (listStep fileoffItmCmp)
    (fun state call => decide (call.Valid state.history))
    [.add 16 5, .addLkSet 32 7, .addLkSet 48 7, .addLkSet 48 9, .delNxt 32,
      .delFst]
    (fun state => state.mem.destroyed == [48, 16] &&
      state.history.members == [(32, 7)])
    id (by simp)
    (show ListRun fileoffItmCmp
        ⟨⟨listNew, fun _ => none, []⟩, ⟨[], [], []⟩⟩ from
      .init ⟨rfl, rfl, rfl⟩)
    (by decide_cbv)
  exact ⟨state, listRun_law run, by simpa using hstate⟩

end NosqlDbms
