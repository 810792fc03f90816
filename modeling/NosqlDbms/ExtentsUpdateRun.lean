import NosqlDbms.ExtentsEmptied
import NosqlDbms.ExtentsKept
import Mathlib.Tactic

/-!
# Runs of writes and updates

Every slot reads back what was last stored in it, as long as no update
reaches one of the four defects of `sect_ext_update`: it trusts `init_rec_sz`
at the record border, it takes the promoted `init_rec_sz` for the room next to
an inner record, it moves the item border when the last slot is moved, and it
deletes before it knows that the write will fit.
-/

namespace NosqlDbms

structure UpdateState where
  sect : Sect
  /-- What was last stored in each slot. -/
  stored : List (ℕ × ExtentsRecord)

inductive UpdateCall where
  | write (record : ExtentsRecord)
  | update (soff : ℕ) (record : ExtentsRecord)

/-- The state after a call, when it returns. -/
def updateStep (call : UpdateCall) (state : UpdateState) :
    Option UpdateState :=
  match call with
  | .write record =>
      match sectExtWrite record.key (jsonValPtr record.value) record.entity
          state.sect with
      | .ok (soff, _) sect => some ⟨sect, (soff, record) :: state.stored⟩
      | .failed sect => some ⟨sect, state.stored⟩
      | .stuck => none
  | .update soff record =>
      match sectExtUpdate soff record.key (jsonValPtr record.value)
          record.entity state.sect with
      | .ok _ sect => some ⟨sect,
          (soff, record) :: state.stored.filter (·.1 != soff)⟩
      | .failed sect => some ⟨sect, state.stored⟩
      | .stuck => none

/-- An update is called with a slot of an earlier write. -/
def UpdateCall.Legal (state : UpdateState) : UpdateCall → Prop
  | .write _ => True
  | .update soff _ => soff ∈ state.stored.map Prod.fst

instance (state : UpdateState) (call : UpdateCall) :
    Decidable (call.Legal state) :=
  match call with
  | .write _ => inferInstanceAs (Decidable True)
  | .update soff _ =>
      inferInstanceAs (Decidable (soff ∈ state.stored.map Prod.fst))

/-- The entities of the other slots that have a record. -/
def UpdateState.others (state : UpdateState) (soff : ℕ) : List Entity :=
  ((state.stored.filter (·.1 != soff)).map
    (fun entry => state.sect.entityAt entry.1)).filter
      (fun entity => entityRecSz entity != 0)

/-- At the record border, the room up to `init_rec_sz` is free of others. -/
def UpdateState.BorderSafe (state : UpdateState) (soff recSz : ℕ) : Prop :=
  let old := state.sect.entityAt soff
  let head := state.sect.head
  max recSz old.initRecSz ≤ head.freeSpace + old.initRecSz →
    head.fstRecPtr + old.initRecSz ≤ SECTION_SIZE ∧
      ∀ other ∈ state.others soff,
        head.fstRecPtr + old.initRecSz ≤ other.valPtr

/-- A record that moves is not that of the last slot, the scan of its deletion
stops in front of the others, and what is free then holds it and a slot. -/
def UpdateState.MoveSafe (state : UpdateState) (soff recSz : ℕ) : Prop :=
  let head := state.sect.head
  let stop := state.sect.scanStopWithout soff
  recSz ≤ head.freeSpace →
    soff + sizeofEntity ≠ head.lstItmPtr ∧
      sizeofEntity + recSz ≤ head.freeSpace + (stop - head.fstRecPtr) ∧
      ∀ other ∈ state.others soff, stop ≤ other.valPtr

/-- A record that stays where it ends lies above the border and meets no
other. -/
def UpdateState.GapSafe (state : UpdateState) (soff recSz : ℕ) : Prop :=
  let old := state.sect.entityAt soff
  let stop := old.keyPtr + old.keySize
  recSz = 0 ∨
    state.sect.head.fstRecPtr + recSz ≤ stop ∧
      ∀ other ∈ state.others soff,
        other.keyPtr + other.keySize ≤ stop - recSz ∨ stop ≤ other.valPtr

/-- The branch the update takes is safe. -/
def UpdateCall.Safe (state : UpdateState) : UpdateCall → Prop
  | .write _ => True
  | .update soff record =>
      let old := state.sect.entityAt soff
      let recSz := record.key.cnt + jsonValSize record.value
      (old.keyPtr - old.valSize = state.sect.head.fstRecPtr →
        state.BorderSafe soff recSz) ∧
      (old.keyPtr - old.valSize ≠ state.sect.head.fstRecPtr →
        old.initRecSz < recSz → state.MoveSafe soff recSz) ∧
      (old.keyPtr - old.valSize ≠ state.sect.head.fstRecPtr →
        recSz ≤ old.initRecSz → state.GapSafe soff recSz)

section Decidable

variable (state : UpdateState) (soff recSz : ℕ)

instance : Decidable (state.BorderSafe soff recSz) :=
  inferInstanceAs (Decidable (_ → _ ∧ _))

instance : Decidable (state.MoveSafe soff recSz) :=
  inferInstanceAs (Decidable (_ → _ ∧ _ ∧ _))

instance : Decidable (state.GapSafe soff recSz) :=
  inferInstanceAs (Decidable (_ ∨ _ ∧ _))

instance (call : UpdateCall) : Decidable (call.Safe state) :=
  match call with
  | .write _ => inferInstanceAs (Decidable True)
  | .update _ _ => inferInstanceAs (Decidable
      ((_ → _) ∧ (_ → _ → _) ∧ (_ → _ → _)))

end Decidable

/-- The states reached from `sect_ext_ctor` at `offset` in some file. -/
abbrev UpdateRun (offset : ℕ) (file₀ : Storage)
    (allowed : UpdateState → UpdateCall → Prop) : UpdateState → Prop :=
  Run (fun state => state.stored = [] ∧ ∃ head₀,
      sectExtCtor offset ⟨head₀, file₀⟩ = .ok () state.sect)
    (fun call state state' => updateStep call state = some state') allowed

/-- Borders, and every slot reads back what was last stored in it. -/
structure UpdateLaw (state : UpdateState) : Prop where
  lip_ge : sizeofSectHeadEntity ≤ state.sect.head.lstItmPtr
  lip_le : state.sect.head.lstItmPtr ≤ state.sect.head.fstRecPtr
  frp_le : state.sect.head.fstRecPtr ≤ SECTION_SIZE
  free : state.sect.head.freeSpace =
    state.sect.head.fstRecPtr - state.sect.head.lstItmPtr
  read : ∀ soff record, (soff, record) ∈ state.stored →
    ∃ entity sect', sectExtRead soff state.sect =
        .ok (entity, record.key, record.value) sect' ∧
      entity.type = record.value.type.code ∧
      entity.famAddr = ⟨record.dad, record.bro, record.son⟩ ∧
      entity.typePtr = record.typePtr

/-! ## One call -/

/-- The item spells the record and its family. -/
structure Item.Stores (item : Item) (record : ExtentsRecord) : Prop where
  spells : item.Spells record.key record.value
  famAddr : item.entity.famAddr = ⟨record.dad, record.bro, record.son⟩
  typePtr : item.entity.typePtr = record.typePtr

theorem Item.stores_of_placed {item : Item} {record : ExtentsRecord}
    {entity : Entity} {head : SectHead}
    (hentity : item.entity =
      entity.placed head record.key (jsonValPtr record.value))
    (hrecord : item.record = jsonValPtr record.value ++ record.key.val)
    (hpromoted : ∃ old, entity = record.entity.promoted old ∨
      entity = record.entity) : item.Stores record := by
  obtain ⟨old, hpromoted⟩ := hpromoted
  have hfields : entity.keySize = record.key.cnt ∧
      entity.valSize = jsonValSize record.value ∧
      entity.type = record.value.type.code ∧
      entity.famAddr = ⟨record.dad, record.bro, record.son⟩ ∧
      entity.typePtr = record.typePtr := by
    rcases hpromoted with rfl | rfl
    · unfold Entity.promoted
      split <;> exact ⟨rfl, rfl, rfl, rfl, rfl⟩
    · exact ⟨rfl, rfl, rfl, rfl, rfl⟩
  obtain ⟨hkey, hval, htype, hfam, htypePtr⟩ := hfields
  constructor
  · refine ⟨hrecord, ?_, ?_, ?_⟩
    · rw [hentity]
      exact hkey
    · rw [hentity]
      exact hval
    · rw [hentity]
      exact htype
  · rw [hentity]
    exact hfam
  · rw [hentity]
    exact htypePtr

structure UpdateInv (state : UpdateState) (items : Items) : Prop where
  kept : Kept state.sect items
  full : state.sect.Full items
  slots : ∀ {soff}, soff ∈ state.stored.map Prod.fst ↔
    ∃ item, items soff = some item
  stores : ∀ {soff record}, (soff, record) ∈ state.stored →
    ∃ item, items soff = some item ∧ item.Stores record

theorem UpdateInv.law {state : UpdateState} {items : Items}
    (h : UpdateInv state items) : UpdateLaw state where
  lip_ge := h.kept.lip_ge
  lip_le := h.kept.lip_le
  frp_le := h.kept.frp_le
  free := h.kept.free
  read := by
    intro soff record hmem
    obtain ⟨item, hitem, hstores⟩ := h.stores hmem
    obtain ⟨read, hread, -, -⟩ := h.kept.toHeld.read hitem hstores.spells
    obtain ⟨-, -, -, htype⟩ := hstores.spells
    exact ⟨item.entity, _, hread, htype, hstores.famAddr, hstores.typePtr⟩

theorem UpdateInv.quiet {state : UpdateState} {items : Items} {sect' : Sect}
    (h : UpdateInv state items) (hquiet : state.sect.Quiet sect') :
    UpdateInv ⟨sect', state.stored⟩ items where
  kept := h.kept.quiet hquiet
  full := by
    unfold Sect.Full
    simp only
    rw [hquiet.head]
    exact h.full
  slots := h.slots
  stores := h.stores

theorem UpdateInv.of_kept {state : UpdateState} {items : Items}
    {sect' : Sect} {soff : ℕ} {item : Item} {record : ExtentsRecord}
    (h : UpdateInv state items)
    (hkept : Kept sect' (items.insert soff item))
    (hstores : item.Stores record)
    (hlip : ∀ soff', 32 ≤ soff' → soff' + 80 ≤ sect'.head.lstItmPtr →
      soff' % 80 = 32 →
      soff' = soff ∨ soff' + 80 ≤ state.sect.head.lstItmPtr) :
    UpdateInv ⟨sect', (soff, record) ::
      state.stored.filter (·.1 != soff)⟩ (items.insert soff item) where
  kept := hkept
  full := by
    intro soff' hlow hhigh hmod
    by_cases heq : soff' = soff
    · exact ⟨item, by rw [heq, Items.insert_self]⟩
    · rw [Items.insert_of_ne heq]
      rcases hlip soff' hlow hhigh hmod with hsame | hbelow
      · exact absurd hsame heq
      · exact h.full soff' hlow hbelow hmod
  slots := by
    intro soff'
    by_cases heq : soff' = soff
    · simp [heq, Items.insert_self]
    · rw [Items.insert_of_ne heq, ← h.slots]
      simp [heq]
  stores := by
    intro soff' record' hmem
    rcases List.mem_cons.mp hmem with hnew | hold
    · injection hnew with hsoff hrecord
      subst hsoff hrecord
      exact ⟨item, Items.insert_self _ _ _, hstores⟩
    · obtain ⟨hold, hne⟩ := List.mem_filter.mp hold
      obtain ⟨item', hitem', hstores'⟩ := h.stores hold
      refine ⟨item', ?_, hstores'⟩
      rw [Items.insert_of_ne (by simpa using hne)]
      exact hitem'

section Step

variable {state : UpdateState} {items : Items}

theorem UpdateInv.mem_others (h : UpdateInv state items) {soff soff' : ℕ}
    {item : Item} (hne : soff' ≠ soff) (hitem : items soff' = some item)
    (hrecord : item.record ≠ []) : item.entity ∈ state.others soff := by
  have hpos := List.length_pos_of_ne_nil hrecord
  obtain ⟨entry, hmem, hfst⟩ := List.mem_map.mp (h.slots.mpr ⟨item, hitem⟩)
  rw [UpdateState.others, List.mem_filter, List.mem_map]
  refine ⟨⟨entry, ?_, ?_⟩, ?_⟩
  · rw [List.mem_filter]
    exact ⟨hmem, by rw [hfst]; simpa using hne⟩
  · rw [hfst, h.kept.toHeld.entityAt hitem]
  · rw [item.recSz]
    simpa using hpos.ne'

theorem UpdateInv.others_inside (h : UpdateInv state items) {soff : ℕ}
    {other : Entity} (hmem : other ∈ state.others soff) :
    state.sect.head.fstRecPtr ≤ other.valPtr := by
  rw [UpdateState.others, List.mem_filter, List.mem_map] at hmem
  obtain ⟨⟨entry, hentry, hentity⟩, hrecSz⟩ := hmem
  obtain ⟨item, hitem⟩ := h.slots.mp
    (List.mem_map_of_mem (f := Prod.fst) (List.mem_filter.mp hentry).1)
  rw [h.kept.toHeld.entityAt hitem] at hentity
  rw [← hentity] at hrecSz ⊢
  apply h.kept.inside hitem
  intro hnil
  rw [item.recSz, hnil] at hrecSz
  simp at hrecSz

theorem UpdateInv.write (h : UpdateInv state items)
    (record : ExtentsRecord) :
    ∃ state' items', updateStep (.write record) state = some state' ∧
      UpdateInv state' items' := by
  have hlength : (jsonValPtr record.value).length =
      jsonValSize record.value := length_jsonValPtr record.value
  have hlipGe := h.kept.lip_ge
  have hlipLe := h.kept.lip_le
  have hfrpLe := h.kept.frp_le
  have hfree := h.kept.free
  have haligned := h.kept.aligned
  rcases Nat.lt_or_ge state.sect.head.freeSpace
    (80 + record.key.cnt + (jsonValPtr record.value).length) with hlt | hge
  · refine ⟨⟨state.sect, state.stored⟩, items, ?_, h⟩
    simp only [updateStep, sectExtWrite_refused hlt]
  · have hnone : items state.sect.head.lstItmPtr = none := by
      by_contra hne
      obtain ⟨item, hitem⟩ := Option.ne_none_iff_exists'.mp hne
      have hslot := h.kept.slot hitem
      omega
    obtain ⟨item, hentity, hrecord, hkept⟩ := @Kept.rewrite state.sect items
      state.sect.head.lstItmPtr state.sect.head.fstRecPtr
      state.sect.head.freeSpace record.key (jsonValPtr record.value)
      (state.sect.head.lstItmPtr + 80)
      (state.sect.head.fstRecPtr - record.key.cnt -
        (jsonValPtr record.value).length) h.kept record.entity hnone rfl
      hlength.symm
      (show record.key.cnt + jsonValSize record.value ≤ 8192 by omega)
      hlipGe haligned le_rfl (by omega) (by omega) (Or.inl le_rfl)
      (by omega) hfrpLe (by omega) (Or.inr (by omega))
      (Or.inr ⟨le_rfl, by omega⟩)
      (fun hitem hne => by
        have hin := h.kept.inside hitem hne
        omega)
      (fun hitem hne => Or.inr (Or.inr (h.kept.inside hitem hne)))
    have hwrite := @sectExtWrite_eq state.sect record.key
      (jsonValPtr record.value) record.entity (by omega) hfrpLe hge
    rw [Sect.writtenSect_eq_rewritten hfree] at hwrite
    obtain ⟨sect', hsect'⟩ : ∃ sect', sect' = state.sect.rewritten
        state.sect.head.lstItmPtr state.sect.head.fstRecPtr
        state.sect.head.freeSpace record.key (jsonValPtr record.value)
        record.entity (state.sect.head.lstItmPtr + 80)
        (state.sect.head.fstRecPtr - record.key.cnt -
          (jsonValPtr record.value).length) := ⟨_, rfl⟩
    rw [← hsect'] at hwrite hkept
    have hlipEq : sect'.head.lstItmPtr = state.sect.head.lstItmPtr + 80 := by
      rw [hsect']
      rfl
    have hstores := Item.stores_of_placed hentity hrecord
      ⟨record.entity, Or.inr rfl⟩
    have hinv := h.of_kept hkept hstores (by
      rw [hlipEq]
      omega)
    have hfresh : state.stored.filter
        (·.1 != state.sect.head.lstItmPtr) = state.stored := by
      rw [List.filter_eq_self]
      intro entry hmem
      obtain ⟨item', hitem'⟩ :=
        h.slots.mp (List.mem_map_of_mem (f := Prod.fst) hmem)
      rw [bne_iff_ne]
      intro heq
      rw [heq, hnone] at hitem'
      cases hitem'
    rw [hfresh] at hinv
    refine ⟨_, _, ?_, hinv⟩
    simp only [updateStep, hwrite]

/-- What the three branches of an update need: the slot is stored again, with
the borders where they belong. -/
theorem UpdateInv.restore (h : UpdateInv state items) {sect : Sect}
    {soff stop freeSpace lip frp : ℕ} {old : Item} {record : ExtentsRecord}
    {entity : Entity} (hitem : items soff = some old)
    (hkept : Kept sect (items.erase soff))
    (hentity : entity = record.entity.promoted old.entity)
    (hinit : record.key.cnt + jsonValSize record.value ≤ 8192)
    (hlipSect : sect.head.lstItmPtr = state.sect.head.lstItmPtr)
    (hlip : lip = state.sect.head.lstItmPtr)
    (hborders : lip ≤ frp) (hstop : stop ≤ 8192)
    (hroom : soff + 80 +
      (record.key.cnt + (jsonValPtr record.value).length) ≤ stop)
    (hfit : record.key.cnt + (jsonValPtr record.value).length = 0 ∨
      frp + (record.key.cnt + (jsonValPtr record.value).length) ≤ stop)
    (hfrp : frp = sect.head.fstRecPtr ∨ sect.head.fstRecPtr ≤ stop ∧
      frp + (record.key.cnt + (jsonValPtr record.value).length) = stop)
    (hothers : ∀ other ∈ state.others soff, frp ≤ other.valPtr ∧
      (record.key.cnt + (jsonValPtr record.value).length = 0 ∨
        other.keyPtr + other.keySize ≤
          stop - record.key.cnt - (jsonValPtr record.value).length ∨
        stop ≤ other.valPtr)) :
    ∃ items', UpdateInv ⟨(sect.rewritten soff stop freeSpace record.key
        (jsonValPtr record.value) entity lip frp),
          (soff, record) :: state.stored.filter (·.1 != soff)⟩ items' := by
  have hslot := h.kept.slot hitem
  have haligned := h.kept.aligned
  have hfields : entity.keySize = record.key.cnt ∧
      entity.valSize = jsonValSize record.value := by
    rw [hentity, Entity.promoted]
    split <;> exact ⟨rfl, rfl⟩
  have hinit' : entity.initRecSz ≤ 8192 := by
    rw [hentity, Entity.initRecSz_promoted]
    exact max_le hinit (h.kept.init_le hitem)
  have hother : ∀ {soff' item'}, items.erase soff soff' = some item' →
      item'.record ≠ [] → frp ≤ item'.start ∧
        (record.key.cnt + (jsonValPtr record.value).length = 0 ∨
          item'.stop ≤
            stop - record.key.cnt - (jsonValPtr record.value).length ∨
          stop ≤ item'.start) := by
    intro soff' item' hitem' hne
    obtain ⟨hsoff', hold⟩ := Items.erase_eq_some.mp hitem'
    have hmem := hothers _ (h.mem_others hsoff' hold hne)
    rw [item'.stop_eq]
    exact hmem
  obtain ⟨item, hplaced, hrecord, hkept'⟩ := @Kept.rewrite sect
    (items.erase soff) soff stop freeSpace record.key
    (jsonValPtr record.value) lip frp hkept entity (Items.erase_self _ _)
    hfields.1 (hfields.2.trans (length_jsonValPtr record.value).symm) hinit'
    hslot.1 hslot.2.2 (by omega) (by omega) (by omega) (Or.inr (by omega))
    hborders hstop hroom hfit hfrp
    (fun hitem' hne => (hother hitem' hne).1)
    (fun hitem' hne => (hother hitem' hne).2)
  have hsame : (items.erase soff).insert soff item =
      items.insert soff item := Function.update_idem ..
  rw [hsame] at hkept'
  refine ⟨_, h.of_kept hkept' (Item.stores_of_placed hplaced hrecord
    ⟨old.entity, Or.inl hentity⟩) ?_⟩
  intro soff' hlow hhigh hmod
  right
  rw [← hlip]
  exact hhigh

theorem UpdateInv.synced (h : UpdateInv state items) :
    UpdateInv ⟨state.sect.withHead state.sect.head, state.stored⟩ items where
  kept := h.kept.synced
  full := h.full
  slots := h.slots
  stores := h.stores

section Update

variable {soff : ℕ} {old : Item} {read : Sect} {record : ExtentsRecord}

theorem UpdateInv.update_border (h : UpdateInv state items)
    (hitem : items soff = some old)
    (hread : sectExtRdItm soff state.sect = .ok old.entity read)
    (hquiet : state.sect.Quiet read)
    (hstart : old.start = state.sect.head.fstRecPtr)
    (hsafe : state.BorderSafe soff
      (record.key.cnt + jsonValSize record.value)) :
    ∃ state' items', updateStep (.update soff record) state = some state' ∧
      UpdateInv state' items' := by
  have hlength : (jsonValPtr record.value).length =
      jsonValSize record.value := length_jsonValPtr record.value
  have hslot := h.kept.slot hitem
  have hlipLe := h.kept.lip_le
  have hfrpLe := h.kept.frp_le
  have hfree := h.kept.free
  have hinitLe := h.kept.init_le hitem
  have hinit : record.entity.initRecSz =
      record.key.cnt + jsonValSize record.value := rfl
  have haddFree : sizeAdd state.sect.head.freeSpace old.entity.initRecSz =
      state.sect.head.freeSpace + old.entity.initRecSz :=
    sizeAdd_of_lt (by omega)
  have haddFrp : sizeAdd read.head.fstRecPtr old.entity.initRecSz =
      state.sect.head.fstRecPtr + old.entity.initRecSz := by
    rw [hquiet.head]
    exact sizeAdd_of_lt (by omega)
  by_cases hroom : max record.entity.initRecSz old.entity.initRecSz ≤
      sizeAdd state.sect.head.freeSpace old.entity.initRecSz
  · rw [UpdateState.BorderSafe, h.kept.toHeld.entityAt hitem] at hsafe
    rw [haddFree, hinit] at hroom
    obtain ⟨hstop, hothers⟩ := hsafe hroom
    simp only [SECTION_SIZE] at hstop
    have hcall := @sectExtUpdateBorder_eq read soff _ record.key
      (jsonValPtr record.value) (record.entity.promoted old.entity)
      old.entity haddFrp hstop (by omega) (by rw [hquiet.head]; omega)
    obtain ⟨items', hinv⟩ := @UpdateInv.restore state items h read soff
      (state.sect.head.fstRecPtr + old.entity.initRecSz)
      (state.sect.head.fstRecPtr + old.entity.initRecSz - soff)
      state.sect.head.lstItmPtr
      (state.sect.head.fstRecPtr + old.entity.initRecSz - record.key.cnt -
        (jsonValPtr record.value).length)
      old record (record.entity.promoted old.entity) hitem
      ((h.kept.quiet hquiet).erase soff) rfl (by omega)
      (by rw [hquiet.head]) rfl (by omega) hstop (by omega) (by omega)
      (Or.inr ⟨by rw [hquiet.head]; omega, by omega⟩)
      (fun other hmem => by
        have hge := hothers other hmem
        exact ⟨by omega, Or.inr (Or.inr hge)⟩)
    refine ⟨_, items', ?_, hinv.synced⟩
    rw [updateStep, sectExtUpdate_border hread hquiet.head hstart
      (by rw [haddFree, hinit]; exact hroom), hcall, hquiet.head]
  · refine ⟨⟨read, state.stored⟩, items, ?_, h.quiet hquiet⟩
    rw [updateStep,
      sectExtUpdate_border_refused hread hquiet.head hstart hroom]

theorem UpdateInv.update_move (h : UpdateInv state items)
    (hitem : items soff = some old)
    (hread : sectExtRdItm soff state.sect = .ok old.entity read)
    (hquiet : state.sect.Quiet read)
    (hstart : old.start ≠ state.sect.head.fstRecPtr)
    (hgrows : old.entity.initRecSz <
      record.key.cnt + jsonValSize record.value)
    (hsafe : state.MoveSafe soff
      (record.key.cnt + jsonValSize record.value)) :
    ∃ state' items', updateStep (.update soff record) state = some state' ∧
      UpdateInv state' items' := by
  have hlength : (jsonValPtr record.value).length =
      jsonValSize record.value := length_jsonValPtr record.value
  have hslot := h.kept.slot hitem
  have hlipLe := h.kept.lip_le
  have hfrpLe := h.kept.frp_le
  have hfree := h.kept.free
  have hrecSz : entityRecSz record.entity =
      record.key.cnt + jsonValSize record.value := rfl
  by_cases hroom : entityRecSz record.entity ≤ state.sect.head.freeSpace
  · obtain ⟨hnotLast, hfits, hothers⟩ := hsafe (by rwa [hrecSz] at hroom)
    simp only [sizeofEntity] at hnotLast hfits
    have hscan : read.scanStopWithout soff =
        state.sect.scanStopWithout soff := by
      rw [Sect.scanStopWithout, Sect.scanStopWithout, Sect.entityAt,
        Sect.entityAt, hquiet.bytes, hquiet.head, hquiet.cell]
    have hscanGe := state.sect.scanStopWithout_ge soff
    have hscanLe := state.sect.scanStopWithout_le soff hfrpLe
    obtain ⟨deleted, hdelete, hkept, hlip, hfrp⟩ :=
      @Kept.delete_inner read items soff old (h.kept.quiet hquiet)
        (h.quiet hquiet).full hitem (by rw [hquiet.head]; exact hnotLast)
        (fun hne hitem' hrecord => by
          rw [hscan]
          exact hothers _ (h.mem_others hne hitem' hrecord))
    have hfreeDeleted := hkept.free
    rw [hquiet.head] at hlip
    rw [hscan] at hfrp
    have hcall := @sectExtUpdateMove_eq read soff record.key
      (jsonValPtr record.value) (record.entity.promoted old.entity) deleted
      old.entity hdelete (by omega) (by omega) (by omega) (by omega)
    obtain ⟨items', hinv⟩ := @UpdateInv.restore state items h deleted soff
      deleted.head.fstRecPtr deleted.head.freeSpace deleted.head.lstItmPtr
      (deleted.head.fstRecPtr - record.key.cnt -
        (jsonValPtr record.value).length)
      old record (record.entity.promoted old.entity) hitem hkept rfl
      (by omega) hlip hlip (by omega) (by omega) (by omega) (by omega)
      (Or.inr ⟨le_rfl, by omega⟩)
      (fun other hmem => by
        have hge := hothers other hmem
        exact ⟨by omega, Or.inr (Or.inr (by omega))⟩)
    refine ⟨_, items', ?_, hinv.synced⟩
    rw [updateStep, sectExtUpdate_move hread hquiet.head hstart hgrows hroom,
      hcall]
  · refine ⟨⟨read, state.stored⟩, items, ?_, h.quiet hquiet⟩
    rw [updateStep,
      sectExtUpdate_move_refused hread hquiet.head hstart hgrows hroom]

theorem UpdateInv.update_gap (h : UpdateInv state items)
    (hitem : items soff = some old)
    (hread : sectExtRdItm soff state.sect = .ok old.entity read)
    (hquiet : state.sect.Quiet read)
    (hstart : old.start ≠ state.sect.head.fstRecPtr)
    (hfits : record.key.cnt + jsonValSize record.value ≤
      old.entity.initRecSz)
    (hsafe : state.GapSafe soff
      (record.key.cnt + jsonValSize record.value)) :
    ∃ state' items', updateStep (.update soff record) state = some state' ∧
      UpdateInv state' items' := by
  have hlength : (jsonValPtr record.value).length =
      jsonValSize record.value := length_jsonValPtr record.value
  have hslot := h.kept.slot hitem
  have hbelow := h.kept.below hitem
  have hlipLe := h.kept.lip_le
  have hfrpLe := h.kept.frp_le
  have hinitLe := h.kept.init_le hitem
  have hstopLe : old.stop ≤ 8192 := old.stop_le
  have hspan := old.stop_sub_start
  rw [UpdateState.GapSafe, h.kept.toHeld.entityAt hitem, ← old.stop_eq]
    at hsafe
  have hadd : sizeAdd old.entity.keyPtr old.entity.keySize = old.stop := by
    have hstopEq := old.stop_eq
    rw [hstopEq]
    exact sizeAdd_of_lt (by omega)
  have hroom : soff + 80 + (record.key.cnt +
      (jsonValPtr record.value).length) ≤ old.stop := by
    rcases hsafe with hzero | ⟨hin, -⟩ <;> omega
  have hcall := @sectExtUpdateGap_eq read soff old.stop record.key
    (jsonValPtr record.value) (record.entity.promoted old.entity)
    old.entity hadd hstopLe (by omega) (by rw [hquiet.head]; exact hlipLe)
    (by rw [hquiet.head]; omega)
  obtain ⟨items', hinv⟩ := @UpdateInv.restore state items h read soff
    old.stop (old.stop - soff) state.sect.head.lstItmPtr
    state.sect.head.fstRecPtr old record
    (record.entity.promoted old.entity) hitem
    ((h.kept.quiet hquiet).erase soff) rfl (by omega) (by rw [hquiet.head])
    rfl hlipLe hstopLe hroom (by omega) (Or.inl (by rw [hquiet.head]))
    (fun other hmem => ⟨h.others_inside hmem, by
      rw [hlength]
      rcases hsafe with hzero | ⟨-, hothers⟩
      · exact Or.inl hzero
      · have hother := hothers other hmem
        omega⟩)
  refine ⟨_, items', ?_, hinv⟩
  rw [updateStep, sectExtUpdate_gap hread hquiet.head hstart
    (by have hinit : record.entity.initRecSz =
          record.key.cnt + jsonValSize record.value := rfl
        omega), hcall, hquiet.head]

theorem UpdateInv.update (h : UpdateInv state items)
    (hlegal : soff ∈ state.stored.map Prod.fst)
    (hsafe : (UpdateCall.update soff record).Safe state) :
    ∃ state' items', updateStep (.update soff record) state = some state' ∧
      UpdateInv state' items' := by
  obtain ⟨old, hitem⟩ := h.slots.mp hlegal
  obtain ⟨read, hread, hquiet, -⟩ := h.kept.toHeld.rdItm hitem
  obtain ⟨hborder, hmove, hgap⟩ := hsafe
  have hkeyPtr := old.keyPtr_eq
  have hvalPtr : old.start = old.entity.valPtr := rfl
  have hstartEq : old.entity.keyPtr - old.entity.valSize = old.start := by
    omega
  rw [h.kept.toHeld.entityAt hitem, hstartEq] at hborder hmove hgap
  by_cases hstart : old.start = state.sect.head.fstRecPtr
  · exact h.update_border hitem hread hquiet hstart (hborder hstart)
  · rcases Nat.lt_or_ge old.entity.initRecSz
      (record.key.cnt + jsonValSize record.value) with hgrows | hfits
    · exact h.update_move hitem hread hquiet hstart hgrows
        (hmove hstart hgrows)
    · exact h.update_gap hitem hread hquiet hstart hfits
        (hgap hstart hfits)

end Update

theorem UpdateInv.step (h : UpdateInv state items) {call : UpdateCall}
    (hlegal : call.Legal state) (hsafe : call.Safe state) :
    ∃ state' items', updateStep call state = some state' ∧
      UpdateInv state' items' := by
  cases call with
  | write record => exact h.write record
  | update soff record => exact h.update hlegal hsafe

end Step

/-! ## Whole runs -/

theorem UpdateInv.init {offset : ℕ} {file₀ : Storage} {state : UpdateState}
    (hstored : state.stored = [])
    (hctor : ∃ head₀, sectExtCtor offset ⟨head₀, file₀⟩ =
      .ok () state.sect) : UpdateInv state (fun _ => none) := by
  obtain ⟨head₀, hctor⟩ := hctor
  obtain ⟨sect, hctor', hlayout, -, -⟩ := sectExtCtor_spec offset head₀ file₀
  rw [hctor'] at hctor
  injection hctor with _ hsect
  rw [hsect] at hlayout
  constructor
  · refine { hlayout.toLoose.held with apart := ?_, below := ?_, init_le := ?_ }
    · intro soff item soff' item' _ hitem
      cases hitem
    · intro soff item hitem
      cases hitem
    · intro soff item hitem
      cases hitem
  · intro soff hlow hhigh
    rcases hlayout.border with hlip | ⟨item, hitem⟩
    · omega
    · cases hitem
  · intro soff
    simp [hstored]
  · intro soff record hmem
    rw [hstored] at hmem
    cases hmem

/-- In a run of writes and safe updates every slot reads back what was last
stored in it, the borders are in order, and every further such call
returns. -/
theorem updateRun_law {offset : ℕ} {file₀ : Storage} {state : UpdateState}
    (run : UpdateRun offset file₀ (fun state call =>
      call.Legal state ∧ call.Safe state) state) :
    UpdateLaw state ∧
      ∀ call : UpdateCall, call.Legal state → call.Safe state →
        ∃ state', updateStep call state = some state' := by
  have hinv : ∃ items, UpdateInv state items := by
    apply run.invariant
    · rintro state ⟨hstored, hctor⟩
      exact ⟨_, .init hstored hctor⟩
    · rintro state call state' ⟨items, hinv⟩ ⟨hlegal, hsafe⟩ hstep
      obtain ⟨next, items', hnext, hinv'⟩ := hinv.step hlegal hsafe
      rw [hstep, Option.some.injEq] at hnext
      subst hnext
      exact ⟨items', hinv'⟩
  obtain ⟨items, hinv⟩ := hinv
  refine ⟨hinv.law, ?_⟩
  intro call hlegal hsafe
  obtain ⟨state', -, hstep, -⟩ := hinv.step hlegal hsafe
  exact ⟨state', hstep⟩

/-! ## Two runs by evaluation -/

def freshUpdates : UpdateState where
  sect := freshExtents.sect
  stored := []

theorem freshUpdates_run (allowed : UpdateState → UpdateCall → Prop) :
    UpdateRun 8 Storage.empty allowed freshUpdates :=
  .init ⟨rfl, ⟨0, 0, 0, 0, 0⟩, rfl⟩

def stringRecord (key val : List Byte) : ExtentsRecord where
  key := stringCtor key
  value := .string (stringCtor val)
  dad := 0
  bro := 0
  son := 0
  typePtr := 0

theorem updateRun_law_two : ∃ state : UpdateState,
    UpdateLaw state ∧ state.stored.map Prod.fst = [32, 112] := by
  obtain ⟨state, run, hstored⟩ := Run.exists_of_any updateStep
    (fun state call =>
      decide (call.Legal state) && decide (call.Safe state))
    [.write (stringRecord [97] [98, 98]), .write (stringRecord [99] [100]),
      .update 32 (stringRecord [97] [101, 101, 101, 101])]
    (fun state => state.stored.map Prod.fst == [32, 112])
    id (by simp) (freshUpdates_run (fun state call =>
      call.Legal state ∧ call.Safe state)) (by decide_cbv)
  exact ⟨state, (updateRun_law run).1, by simpa using hstored⟩

/-- A record shrinks at the border and grows again once another one lies
below it: it is written over that one. -/
theorem updateRun_law_fails : ¬ ∀ (offset : ℕ) (file₀ : Storage)
    (state : UpdateState),
    UpdateRun offset file₀ (fun state call => call.Legal state) state →
    ∀ soff ∈ state.stored.map Prod.fst, ∀ (record : ExtentsRecord)
      (sect' : Sect),
      sectExtUpdate soff record.key (jsonValPtr record.value) record.entity
        state.sect = .ok () sect' →
      UpdateLaw ⟨sect', (soff, record) ::
        state.stored.filter (·.1 != soff)⟩ := by
  intro hlaw
  let long := stringRecord [97] [48, 49, 50, 51]
  let below := stringRecord [98] [120]
  obtain ⟨state, run, hfound⟩ := Run.exists_of_any updateStep
    (fun state call => decide (call.Legal state))
    [.write long, .update 32 (stringRecord [97] []), .write below]
    (fun state => state.stored.map Prod.fst == [112, 32] &&
      state.stored.any (fun entry => entry.1 == 112 &&
        entry.2.key == below.key) &&
      (sectExtUpdate 32 long.key (jsonValPtr long.value) long.entity
        state.sect).holds (fun _ sect' =>
          !(sectExtRead 112 sect').holds
            (fun found _ => found.2.1 == below.key)))
    id (by simp)
    (freshUpdates_run (fun state call => call.Legal state)) (by decide_cbv)
  simp only [Bool.and_eq_true, beq_iff_eq, List.any_eq_true] at hfound
  obtain ⟨⟨hslots, ⟨soff, record⟩, hmem, hsoff, hkey⟩, hupdate⟩ := hfound
  simp only at hsoff hkey
  subst hsoff
  obtain ⟨_, sect', hok, hread⟩ := Outcome.exists_of_holds hupdate
  have hlaw' := hlaw 8 Storage.empty state run 32 (by rw [hslots]; simp)
    long sect' hok
  obtain ⟨entity, sect'', hread', -⟩ := hlaw'.read 112 record (by
    refine List.mem_cons_of_mem _ (List.mem_filter.mpr ⟨hmem, ?_⟩)
    simp)
  simp only at hread'
  rw [hread', Outcome.holds, hkey] at hread
  simp at hread

end NosqlDbms
