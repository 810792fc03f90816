import NosqlDbms.ExtentsBorder
import NosqlDbms.Runs
import Mathlib.Algebra.Group.Ext
import Mathlib.Tactic

/-!
# Runs over one extents section

Writes and deletions in any order, from `sect_ext_ctor` on.  As long as no
deletion leaves a lowest record behind that begins with a zero byte, the section
keeps its layout and nothing is written outside.  As long as each leaves some
record behind, nothing is read outside either.
-/

namespace NosqlDbms

structure ExtentsState where
  sect : Sect
  /-- Slots returned by a write and not deleted since. -/
  live : List ℕ

inductive ExtentsCall where
  | write (key : Str) (value : JsonValue) (dad bro son typePtr : ℕ)
  | delete (soff : ℕ)

/-- The state after a call, when it returns. -/
def extentsStep (call : ExtentsCall) (state : ExtentsState) :
    Option ExtentsState :=
  match call with
  | .write key value dad bro son typePtr =>
      match sectExtWrite key (jsonValPtr value)
          (entityInit key value dad bro son typePtr) state.sect with
      | .ok (soff, _) sect => some ⟨sect, soff :: state.live⟩
      | .failed sect => some ⟨sect, state.live⟩
      | .stuck => none
  | .delete soff =>
      match sectExtDelete soff state.sect with
      | .ok _ sect => some ⟨sect, state.live.erase soff⟩
      | .failed sect => some ⟨sect, state.live⟩
      | .stuck => none

/-- A deletion is called with a slot of an earlier write. -/
def ExtentsCall.Legal (state : ExtentsState) : ExtentsCall → Prop
  | .write .. => True
  | .delete soff => soff ∈ state.live

instance (state : ExtentsState) (call : ExtentsCall) :
    Decidable (call.Legal state) :=
  match call with
  | .write .. => inferInstanceAs (Decidable True)
  | .delete soff => inferInstanceAs (Decidable (soff ∈ state.live))

/-- After the deletion the lowest record begins with a byte that is not
zero. -/
def ExtentsCall.KeepsBorder (state : ExtentsState) : ExtentsCall → Prop
  | .write .. => True
  | .delete soff =>
      ((state.sect.borderByte [soff]).any (· != 0)) = true

instance (state : ExtentsState) (call : ExtentsCall) :
    Decidable (call.KeepsBorder state) :=
  match call with
  | .write .. => inferInstanceAs (Decidable True)
  | .delete _ => inferInstanceAs (Decidable (_ = true))

/-- The same, or no record is left. -/
def ExtentsCall.SafeBorder (state : ExtentsState) : ExtentsCall → Prop
  | .write .. => True
  | .delete soff => state.sect.borderByte [soff] ≠ some 0

/-- The states reached from `sect_ext_ctor` at `offset` in some file. -/
abbrev ExtentsRun (offset : ℕ) (file₀ : Storage)
    (allowed : ExtentsState → ExtentsCall → Prop) : ExtentsState → Prop :=
  Run (fun state => state.live = [] ∧ ∃ head₀,
      sectExtCtor offset ⟨head₀, file₀⟩ = .ok () state.sect)
    (fun call state state' => extentsStep call state = some state') allowed

def Entity.Covers (entity : Entity) (position : ℕ) : Prop :=
  entity.keyPtr ≤ position + entity.valSize ∧
    position < entity.keyPtr + entity.keySize

structure ExtentsLayoutLaw (offset : ℕ) (state : ExtentsState) : Prop where
  fileOffset : state.sect.head.fileOffset = offset
  lip_ge : sizeofSectHeadEntity ≤ state.sect.head.lstItmPtr
  lip_le : state.sect.head.lstItmPtr ≤ state.sect.head.fstRecPtr
  frp_le : state.sect.head.fstRecPtr ≤ SECTION_SIZE
  free : state.sect.head.freeSpace =
    state.sect.head.fstRecPtr - state.sect.head.lstItmPtr
  nodup : state.live.Nodup
  slot : ∀ soff ∈ state.live, sizeofSectHeadEntity ≤ soff ∧
    soff + sizeofEntity ≤ state.sect.head.lstItmPtr ∧
      sizeofEntity ∣ soff - sizeofSectHeadEntity
  inside : ∀ soff ∈ state.live, ∀ position,
    (state.sect.entityAt soff).Covers position →
      state.sect.head.fstRecPtr ≤ position ∧ position < SECTION_SIZE
  disjoint : ∀ soff ∈ state.live, ∀ soff' ∈ state.live, ∀ position,
    (state.sect.entityAt soff).Covers position →
      (state.sect.entityAt soff').Covers position → soff = soff'

structure ExtentsLaw (offset : ℕ) (file₀ : Storage)
    (state : ExtentsState) : Prop extends ExtentsLayoutLaw offset state where
  accesses : ∃ recent, state.sect.file.log = recent ++ file₀.log ∧
    ∀ access ∈ recent, access.Inside offset (offset + SECTION_SIZE)

/-! ## The invariant -/

/-- The live slots are those of a layout, and all writes were inside; `reads`
tells whether the reads are to be inside as well. -/
structure ExtentsInv (offset : ℕ) (file₀ : Storage) (reads : Prop)
    (state : ExtentsState) (items : Items) : Prop where
  layout : Layout state.sect items
  live : ∀ soff, soff ∈ state.live ↔ ∃ item, items soff = some item
  nodup : state.live.Nodup
  fileOffset : state.sect.head.fileOffset = offset
  within : Storage.Within offset (offset + 8192) reads file₀ state.sect.file

theorem Item.covers_iff (item : Item) (position : ℕ) :
    item.entity.Covers position ↔
      item.start ≤ position ∧ position < item.stop := by
  have hkey := item.keyPtr_eq
  have hstop := item.stop_eq
  have hstart : item.start = item.entity.valPtr := rfl
  unfold Entity.Covers
  omega

theorem ExtentsInv.layoutLaw {offset : ℕ} {file₀ : Storage} {reads : Prop}
    {state : ExtentsState} {items : Items}
    (h : ExtentsInv offset file₀ reads state items) :
    ExtentsLayoutLaw offset state := by
  have hloose := h.layout.toLoose
  have hcovers : ∀ {soff item position}, items soff = some item →
      (state.sect.entityAt soff).Covers position →
      item.start ≤ position ∧ position < item.stop ∧
        item.record ≠ [] := by
    intro soff item position hitem hcover
    rw [hloose.entityAt hitem, item.covers_iff] at hcover
    refine ⟨hcover.1, hcover.2, ?_⟩
    intro hnil
    have hspan := item.stop_sub_start
    rw [hnil, List.length_nil] at hspan
    omega
  constructor
  · exact h.fileOffset
  · exact hloose.lip_ge
  · exact hloose.lip_le
  · exact hloose.frp_le
  · exact hloose.free
  · exact h.nodup
  · intro soff hsoff
    obtain ⟨item, hitem⟩ := (h.live soff).mp hsoff
    have hslot := hloose.slot hitem
    simp only [sizeofSectHeadEntity, sizeofEntity]
    omega
  · intro soff hsoff position hcover
    obtain ⟨item, hitem⟩ := (h.live soff).mp hsoff
    obtain ⟨hlow, hhigh, hne⟩ := hcovers hitem hcover
    have hin := hloose.inside hitem hne
    have hstop := item.stop_le
    omega
  · intro soff hsoff soff' hsoff' position hcover hcover'
    obtain ⟨item, hitem⟩ := (h.live soff).mp hsoff
    obtain ⟨item', hitem'⟩ := (h.live soff').mp hsoff'
    obtain ⟨hlow, hhigh, hne⟩ := hcovers hitem hcover
    obtain ⟨hlow', hhigh', hne'⟩ := hcovers hitem' hcover'
    rcases Nat.lt_trichotomy soff soff' with hlt | heq | hgt
    · have hapart := hloose.apart hlt hitem hitem' hne hne'
      omega
    · exact heq
    · have hapart := hloose.apart hgt hitem' hitem hne' hne
      omega

theorem ExtentsInv.law {offset : ℕ} {file₀ : Storage}
    {state : ExtentsState} {items : Items}
    (h : ExtentsInv offset file₀ True state items) :
    ExtentsLaw offset file₀ state where
  toExtentsLayoutLaw := h.layoutLaw
  accesses := by
    obtain ⟨recent, hlog, hallowed⟩ := h.within.log
    refine ⟨recent, hlog, fun access hmem => ?_⟩
    have haccess := hallowed access hmem
    cases access with
    | read position length => exact haccess trivial
    | write position length => exact haccess

theorem sectExtCtor_spec (offset : ℕ) (head₀ : SectHead)
    (file₀ : Storage) :
    ∃ sect, sectExtCtor offset ⟨head₀, file₀⟩ = .ok () sect ∧
      Layout sect (fun _ => none) ∧ sect.head.fileOffset = offset ∧
      sect.file = file₀.write offset sect.head.bytes := by
  refine ⟨_, rfl, ?_, rfl, rfl⟩
  constructor
  · constructor
    · exact le_rfl
    · simp [sizeofSectHeadEntity, SECTION_SIZE]
    · exact le_rfl
    · rfl
    · rfl
    · intro soff item hitem
      cases hitem
    · intro soff item hitem
      cases hitem
    · intro soff item hitem
      cases hitem
    · intro soff hlow hhigh
      simp only [sizeofSectHeadEntity] at hhigh
      omega
    · intro soff item hitem
      cases hitem
    · intro soff item soff' item' hlt hitem
      cases hitem
    · intro position hlow hhigh
      simp only [SECTION_SIZE] at hlow
      omega
    · rw [Storage.size_write, SectHead.length_bytes]
      exact le_max_right _ _
    · intro hlt
      simp only [SECTION_SIZE] at hlt
      omega
  · exact Or.inl rfl
  · exact Or.inl rfl

/-! ## One call -/

section Step

variable {offset : ℕ} {file₀ : Storage} {reads : Prop}
  {state : ExtentsState} {items : Items}

theorem ExtentsInv.within_trans
    (h : ExtentsInv offset file₀ reads state items) {sect' : Sect}
    (hwithin : state.sect.Within sect' reads) :
    Storage.Within offset (offset + 8192) reads file₀ sect'.file := by
  unfold Sect.Within at hwithin
  rw [h.fileOffset] at hwithin
  exact h.within.trans hwithin

theorem ExtentsInv.write (h : ExtentsInv offset file₀ reads state items)
    (key : Str) (value : JsonValue) (dad bro son typePtr : ℕ) :
    ∃ state' items',
      extentsStep (.write key value dad bro son typePtr) state =
        some state' ∧ ExtentsInv offset file₀ reads state' items' := by
  have hlength : (jsonValPtr value).length = jsonValSize value :=
    length_jsonValPtr value
  rcases Nat.lt_or_ge state.sect.head.freeSpace
    (80 + key.cnt + (jsonValPtr value).length) with hlt | hge
  · refine ⟨⟨state.sect, state.live⟩, items, ?_, h⟩
    simp only [extentsStep, sectExtWrite_refused hlt]
  · obtain ⟨item, sect', hwrite, -, -, hlayout, hwithin, hhead⟩ :=
      h.layout.write (entityInit key value dad bro son typePtr)
        rfl hlength.symm hge
    have hfresh : items state.sect.head.lstItmPtr = none := by
      by_contra hne
      obtain ⟨item', hitem'⟩ := Option.ne_none_iff_exists'.mp hne
      have hslot := h.layout.slot hitem'
      omega
    refine ⟨⟨sect', state.sect.head.lstItmPtr :: state.live⟩,
      items.insert state.sect.head.lstItmPtr item, ?_, hlayout, ?_, ?_, ?_,
      h.within_trans (hwithin reads)⟩
    · simp only [extentsStep, hwrite]
    · intro soff
      by_cases heq : soff = state.sect.head.lstItmPtr
      · simp [heq, Items.insert_self]
      · simp [heq, Items.insert_of_ne heq, h.live soff]
    · refine List.nodup_cons.mpr ⟨?_, h.nodup⟩
      rw [h.live, hfresh]
      rintro ⟨item', hitem'⟩
      cases hitem'
    · rw [hhead]
      exact h.fileOffset

theorem ExtentsInv.delete (h : ExtentsInv offset file₀ reads state items)
    {soff : ℕ} (hsoff : soff ∈ state.live)
    (hsafe : (ExtentsCall.delete soff).SafeBorder state)
    (hkeep : reads → (ExtentsCall.delete soff).KeepsBorder state) :
    ∃ state' items', extentsStep (.delete soff) state = some state' ∧
      ExtentsInv offset file₀ reads state' items' := by
  obtain ⟨item, hitem⟩ := (h.live soff).mp hsoff
  have hloose := h.layout.toLoose
  have hsafe' := hloose.borderSafe_of_borderByte [soff] hsafe
  have hrecord : reads → (items.without [soff]).HasRecord := by
    intro hreads
    have hany := hkeep hreads
    rw [ExtentsCall.KeepsBorder, Option.any_eq_true] at hany
    obtain ⟨byte, hbyte, -⟩ := hany
    exact hloose.hasRecord_of_borderByte hbyte
  rw [Items.without_singleton] at hsafe' hrecord
  obtain ⟨sect', hdelete, hlayout, hoffset, hwithin⟩ :=
    h.layout.delete hitem hsafe'
  refine ⟨⟨sect', state.live.erase soff⟩, items.erase soff, ?_, hlayout,
    ?_, h.nodup.erase soff, ?_,
    h.within_trans (hwithin reads hrecord)⟩
  · simp only [extentsStep, hdelete]
  · intro soff'
    rw [h.nodup.mem_erase_iff, h.live]
    by_cases heq : soff' = soff
    · simp [heq, Items.erase_self]
    · simp [heq, Items.erase_of_ne heq]
  · simp only
    rw [hoffset, h.fileOffset]

theorem ExtentsInv.step (h : ExtentsInv offset file₀ reads state items)
    {call : ExtentsCall} (hlegal : call.Legal state)
    (hsafe : call.SafeBorder state)
    (hkeep : reads → call.KeepsBorder state) :
    ∃ state' items', extentsStep call state = some state' ∧
      ExtentsInv offset file₀ reads state' items' := by
  cases call with
  | write key value dad bro son typePtr =>
      exact h.write key value dad bro son typePtr
  | delete soff => exact h.delete hlegal hsafe hkeep

theorem ExtentsCall.KeepsBorder.safe {call : ExtentsCall}
    (h : call.KeepsBorder state) : call.SafeBorder state := by
  cases call with
  | write key value dad bro son typePtr => trivial
  | delete soff =>
      intro hzero
      rw [ExtentsCall.KeepsBorder, hzero] at h
      cases h

end Step

/-! ## Whole runs -/

theorem ExtentsInv.init {offset : ℕ} {file₀ : Storage} {reads : Prop}
    {state : ExtentsState} (hlive : state.live = [])
    (hctor : ∃ head₀, sectExtCtor offset ⟨head₀, file₀⟩ =
      .ok () state.sect) :
    ExtentsInv offset file₀ reads state (fun _ => none) := by
  obtain ⟨head₀, hctor⟩ := hctor
  obtain ⟨sect, hctor', hlayout, hoffset, hfile⟩ :=
    sectExtCtor_spec offset head₀ file₀
  rw [hctor'] at hctor
  injection hctor with _ hsect
  rw [hsect] at hlayout hoffset hfile
  refine ⟨hlayout, ?_, ?_, hoffset, ?_⟩
  · intro soff
    simp [hlive]
  · simp [hlive]
  · rw [hfile]
    apply Storage.Within.write le_rfl
    rw [SectHead.length_bytes]
    simp only [sizeofSectHeadEntity]
    omega

theorem ExtentsRun.inv {offset : ℕ} {file₀ : Storage} {reads : Prop}
    {state : ExtentsState} {allowed : ExtentsState → ExtentsCall → Prop}
    (run : ExtentsRun offset file₀ allowed state)
    (hallowed : ∀ {state call}, allowed state call → call.Legal state ∧
      call.SafeBorder state ∧ (reads → call.KeepsBorder state)) :
    ∃ items, ExtentsInv offset file₀ reads state items := by
  apply run.invariant
  · rintro state ⟨hlive, hctor⟩
    exact ⟨_, .init hlive hctor⟩
  · rintro state call state' ⟨items, hinv⟩ hcall hstep
    obtain ⟨hlegal, hsafe, hkeep⟩ := hallowed hcall
    obtain ⟨next, items', hnext, hinv'⟩ := hinv.step hlegal hsafe hkeep
    rw [hstep, Option.some.injEq] at hnext
    subst hnext
    exact ⟨items', hinv'⟩

theorem extentsRun_layout {offset : ℕ} {file₀ : Storage}
    {state : ExtentsState}
    (run : ExtentsRun offset file₀ (fun state call =>
      call.Legal state ∧ call.SafeBorder state) state) :
    ExtentsLayoutLaw offset state ∧
      (∀ index, index < offset ∨ offset + SECTION_SIZE ≤ index →
        state.sect.file.cell index = file₀.cell index) ∧
      ∀ call : ExtentsCall, call.Legal state → call.SafeBorder state →
        ∃ state', extentsStep call state = some state' := by
  obtain ⟨items, hinv⟩ := @ExtentsRun.inv _ _ False _ _ run
    (fun hcall => ⟨hcall.1, hcall.2, False.elim⟩)
  refine ⟨hinv.layoutLaw, hinv.within.cell, fun call hlegal hsafe => ?_⟩
  obtain ⟨state', -, hstep, -⟩ := hinv.step hlegal hsafe False.elim
  exact ⟨state', hstep⟩

/-- In a run whose deletions each leave a lowest record behind that begins
with a byte other than zero, the layout law holds, and every further such call
returns. -/
theorem extentsRun_law {offset : ℕ} {file₀ : Storage}
    {state : ExtentsState}
    (run : ExtentsRun offset file₀ (fun state call =>
      call.Legal state ∧ call.KeepsBorder state) state) :
    ExtentsLaw offset file₀ state ∧
      ∀ call : ExtentsCall, call.Legal state → call.KeepsBorder state →
        ∃ state', extentsStep call state = some state' := by
  obtain ⟨items, hinv⟩ := @ExtentsRun.inv _ _ True _ _ run
    (fun hcall => ⟨hcall.1, hcall.2.safe, fun _ => hcall.2⟩)
  refine ⟨hinv.law, ?_⟩
  intro call hlegal hkeep
  obtain ⟨state', -, hstep, -⟩ :=
    hinv.step hlegal hkeep.safe (fun _ => hkeep)
  exact ⟨state', hstep⟩

/-! ## Two runs by evaluation -/

def freshExtents : ExtentsState where
  sect := Sect.synced ⟨⟨8160, 0, 32, 8192, 8⟩, Storage.empty⟩
  live := []

theorem freshExtents_run
    (allowed : ExtentsState → ExtentsCall → Prop) :
    ExtentsRun 8 Storage.empty allowed freshExtents :=
  .init ⟨rfl, ⟨0, 0, 0, 0, 0⟩, rfl⟩

def exampleWrite (char : Byte) (raw : BitVec 64) : ExtentsCall :=
  .write (stringCtor [char]) (.int32 raw) 0 0 0 0

theorem extentsRun_law_two : ∃ state : ExtentsState,
    ExtentsLaw 8 Storage.empty state ∧ state.live = [112] := by
  obtain ⟨state, run, hlive⟩ := Run.exists_of_any
    extentsStep (fun state call =>
      decide (call.Legal state) && decide (call.KeepsBorder state))
    [exampleWrite 97 1, exampleWrite 98 2, .delete 32]
    (fun state => state.live == [112])
    id (by simp) (freshExtents_run (fun state call =>
      call.Legal state ∧ call.KeepsBorder state)) (by decide_cbv)
  exact ⟨state, (extentsRun_law run).1, by simpa using hlive⟩

/-- The scan walks into the record of the second item, whose value begins
with zero bytes. -/
theorem extentsRun_law_fails : ¬ ∀ (offset : ℕ) (file₀ : Storage)
    (state : ExtentsState),
    ExtentsRun offset file₀ (fun state call => call.Legal state) state →
      ExtentsLaw offset file₀ state := by
  intro hlaw
  obtain ⟨state, run, hbad⟩ := Run.exists_of_any
    extentsStep (fun state call => decide (call.Legal state))
    [exampleWrite 97 0, exampleWrite 98 0, .delete 32]
    (fun state => state.live == [112] &&
      state.sect.head.fstRecPtr == 8182 &&
      (state.sect.entityAt 112).keyPtr == 8182 &&
      (state.sect.entityAt 112).valSize == 8 &&
      (state.sect.entityAt 112).keySize == 1)
    id (by simp)
    (freshExtents_run (fun state call => call.Legal state)) (by decide_cbv)
  simp only [Bool.and_eq_true, beq_iff_eq] at hbad
  obtain ⟨⟨⟨⟨hlive, hfrp⟩, hkey⟩, hval⟩, hsize⟩ := hbad
  have hin := (hlaw 8 Storage.empty state run).inside 112
    (by rw [hlive]; simp) 8174
    ⟨by rw [hkey, hval], by rw [hkey, hsize]; omega⟩
  omega

end NosqlDbms
