import NosqlDbms.TypesTight
import NosqlDbms.Runs
import Mathlib.Tactic

/-!
# Runs over one types section

Types added and deleted in any order, from `sect_types_ctor` on.  The borders,
and the addresses of the names, are those of the header and of the slots in
the file.
-/

namespace NosqlDbms

structure TypesState where
  sect : Sect
  /-- The types that were written and not deleted since, with their slots. -/
  live : List (ℕ × DocType)

inductive TypesCall where
  | write (type : DocType)
  | delete (soff : ℕ)

/-- The state after a call, when it returns. -/
def typesStep (call : TypesCall) (state : TypesState) : Option TypesState :=
  match call with
  | .write type =>
      match sectTypesWrite type state.sect with
      | .ok soff sect => some ⟨sect, state.live ++ [(soff, type)]⟩
      | .failed sect => some ⟨sect, state.live⟩
      | .stuck => none
  | .delete soff =>
      match sectTypesDelete soff state.sect with
      | .ok _ sect => some ⟨sect, state.live.filter (·.1 ≠ soff)⟩
      | .failed sect => some ⟨sect, state.live⟩
      | .stuck => none

/-- Names are neither empty nor contain a NUL, and what is deleted is there. -/
def TypesCall.Legal (state : TypesState) : TypesCall → Prop
  | .write type => type.Named
  | .delete soff => ∃ slot ∈ state.live, slot.1 = soff

instance instDecidableTypesLegal (state : TypesState) (call : TypesCall) :
    Decidable (call.Legal state) :=
  match call with
  | .write type => inferInstanceAs (Decidable type.Named)
  | .delete soff =>
      inferInstanceAs (Decidable (∃ slot ∈ state.live, slot.1 = soff))

/-- The states reached from `sect_types_ctor` at `offset` in some file. -/
abbrev TypesRun (offset : ℕ) (file₀ : Storage) : TypesState → Prop :=
  Run (fun state => state.live = [] ∧ ∃ head₀,
      sectTypesCtor offset ⟨head₀, file₀⟩ = .ok () state.sect)
    (fun call state state' => typesStep call state = some state')
    (fun state call => call.Legal state)

/-! ## What is in the slots -/

/-- Address and size of a name. -/
abbrev NameRange : Type := ℕ × ℕ

def NameRange.Apart (first second : NameRange) : Prop :=
  first.1 + first.2 ≤ second.1 ∨ second.1 + second.2 ≤ first.1

def Sect.typeAt (sect : Sect) (soff : ℕ) : TypeEntity :=
  TypeEntity.ofBytes (sect.file.bytes (sect.head.fileOffset + soff) 24)

def Sect.attrAt (sect : Sect) (soff : ℕ) : AttrEntity :=
  AttrEntity.ofBytes (sect.file.bytes (sect.head.fileOffset + soff) 24)

/-- The names of `count` attributes with slots from `soff` on. -/
def Sect.attrNames (sect : Sect) : ℕ → ℕ → List NameRange
  | 0, _ => []
  | count + 1, soff =>
      ((sect.attrAt soff).namePtr, (sect.attrAt soff).nameSize) ::
        sect.attrNames count (soff + 24)

/-- The names of the type at `soff`, as its slots tell. -/
def Sect.typeNames (sect : Sect) (soff : ℕ) : List NameRange :=
  ((sect.typeAt soff).namePtr, (sect.typeAt soff).nameSize) ::
    sect.attrNames (sect.typeAt soff).attrCnt (soff + 24)

def Sect.bytesOf (sect : Sect) (range : NameRange) : List Byte :=
  sect.file.bytes (sect.head.fileOffset + range.1) range.2

structure TypesLaw (state : TypesState) : Prop where
  groups : ∀ slot ∈ state.live, sizeofSectHeadEntity ≤ slot.1 ∧
    slot.1 + typeItmSz slot.2 ≤ state.sect.head.lstItmPtr
  /-- The item border is the end of the last slot group. -/
  lip : state.live = [] ∧
      state.sect.head.lstItmPtr = sizeofSectHeadEntity ∨
    ∃ slot ∈ state.live,
      slot.1 + typeItmSz slot.2 = state.sect.head.lstItmPtr
  names : ∀ slot ∈ state.live, ∀ range ∈ state.sect.typeNames slot.1,
    state.sect.head.fstRecPtr ≤ range.1 ∧ range.1 + range.2 ≤ SECTION_SIZE
  /-- The record border is the lowest address of a name. -/
  frp : state.live = [] ∧ state.sect.head.fstRecPtr = SECTION_SIZE ∨
    ∃ slot ∈ state.live, ∃ range ∈ state.sect.typeNames slot.1,
      range.1 = state.sect.head.fstRecPtr
  lip_le : state.sect.head.lstItmPtr ≤ state.sect.head.fstRecPtr
  free : state.sect.head.freeSpace =
    state.sect.head.fstRecPtr - state.sect.head.lstItmPtr
  groups_apart : state.live.Pairwise (fun first second =>
    first.1 + typeItmSz first.2 ≤ second.1)
  names_apart : (state.live.flatMap (fun slot =>
    state.sect.typeNames slot.1)).Pairwise NameRange.Apart
  /-- The addresses are those of the names. -/
  spelt : ∀ slot ∈ state.live,
    (state.sect.typeNames slot.1).map state.sect.bytesOf =
      slot.2.name.val :: slot.2.attrList.map (fun attr => attr.name.val)
  /-- Every call returns, so that both compression loops end. -/
  returns : ∀ call : TypesCall, call.Legal state →
    ∃ state', typesStep call state = some state'

/-! ## The names of an entry -/

/-- The names of attributes below `top`. -/
def attrRanges (top : ℕ) : List Attr → List NameRange
  | [] => []
  | attr :: rest =>
      (top - attr.name.cnt, attr.name.cnt) ::
        attrRanges (top - attr.name.cnt) rest

def TypeEntry.ranges (entry : TypeEntry) : List NameRange :=
  (entry.stop - entry.type.name.cnt, entry.type.name.cnt) ::
    attrRanges (entry.stop - entry.type.name.cnt) entry.type.attrList

theorem attrNames_eq {sect : Sect} {attrs : List Attr} {soff top : ℕ}
    (hbytes : sect.file.bytes (sect.head.fileOffset + soff)
      (24 * attrs.length) = attrSlots top attrs) :
    sect.attrNames attrs.length soff = attrRanges top attrs := by
  induction attrs generalizing soff top with
  | nil => rfl
  | cons attr rest ih =>
      have hlength : 24 * (attr :: rest).length = 24 + 24 * rest.length := by
        rw [List.length_cons]
        ring
      rw [hlength, Storage.bytes_add, attrSlots, Nat.add_assoc] at hbytes
      obtain ⟨hslot, hrest⟩ := List.append_inj hbytes (by simp)
      rw [List.length_cons, Sect.attrNames, ih hrest, Sect.attrAt, hslot,
        AttrEntity.ofBytes_bytes]
      rfl

theorem mem_attrRanges {attrs : List Attr} {top : ℕ}
    (hle : attrRecSz attrs ≤ top) {range : NameRange}
    (hmem : range ∈ attrRanges top attrs) :
    top - attrRecSz attrs ≤ range.1 ∧ range.1 + range.2 ≤ top := by
  induction attrs generalizing top with
  | nil => cases hmem
  | cons attr rest ih =>
      rw [attrRecSz_cons] at hle ⊢
      rcases List.mem_cons.mp hmem with rfl | hrest
      · exact ⟨by omega, by omega⟩
      · have hrange := ih (by omega) hrest
        omega

theorem attrRanges_apart {attrs : List Attr} {top : ℕ}
    (hle : attrRecSz attrs ≤ top) :
    (attrRanges top attrs).Pairwise NameRange.Apart := by
  induction attrs generalizing top with
  | nil => exact List.Pairwise.nil
  | cons attr rest ih =>
      rw [attrRecSz_cons] at hle
      refine List.Pairwise.cons ?_ (ih (by omega))
      intro range hmem
      have hrange := mem_attrRanges (by omega) hmem
      exact .inr hrange.2

theorem attrRanges_lowest {attrs : List Attr} {top : ℕ} (hne : attrs ≠ []) :
    ∃ range ∈ attrRanges top attrs, range.1 = top - attrRecSz attrs := by
  induction attrs generalizing top with
  | nil => exact absurd rfl hne
  | cons attr rest ih =>
      by_cases hnil : rest = []
      · subst hnil
        exact ⟨_, List.mem_cons_self, rfl⟩
      · obtain ⟨range, hmem, hlow⟩ := @ih (top - attr.name.cnt) hnil
        refine ⟨range, List.mem_cons_of_mem _ hmem, ?_⟩
        rw [hlow, attrRecSz_cons, Nat.sub_add_eq]

theorem attrRanges_spelt {sect : Sect} {attrs : List Attr} {top : ℕ}
    (hle : attrRecSz attrs ≤ top)
    (hbytes : sect.file.bytes
      (sect.head.fileOffset + (top - attrRecSz attrs)) (attrRecSz attrs) =
        attrRecord attrs) :
    (attrRanges top attrs).map sect.bytesOf =
      attrs.map (fun attr => attr.name.val) := by
  induction attrs generalizing top with
  | nil => rfl
  | cons attr rest ih =>
      rw [attrRecSz_cons] at hle
      have hsize : attrRecSz (attr :: rest) =
          attrRecSz rest + attr.name.cnt := by
        rw [attrRecSz_cons, Nat.add_comm]
      have hlow : top - (attrRecSz rest + attr.name.cnt) =
          top - attr.name.cnt - attrRecSz rest := by
        omega
      have hnext : sect.head.fileOffset +
          (top - attr.name.cnt - attrRecSz rest) + attrRecSz rest =
            sect.head.fileOffset + (top - attr.name.cnt) := by
        omega
      rw [hsize, hlow, Storage.bytes_add, hnext, attrRecord] at hbytes
      obtain ⟨hrest, hname⟩ := List.append_inj hbytes (by simp)
      rw [attrRanges, List.map_cons, List.map_cons, ih (by omega) hrest,
        Sect.bytesOf, hname]

namespace TypeEntry

theorem mem_ranges {entry : TypeEntry} {range : NameRange}
    (hmem : range ∈ entry.ranges) :
    entry.start ≤ range.1 ∧ range.1 + range.2 ≤ entry.stop := by
  have hge := entry.start_ge
  have hadd := entry.start_add
  have hrecSz := typeRecSz_eq entry.type
  rcases List.mem_cons.mp hmem with rfl | hattr
  · exact ⟨by omega, by omega⟩
  · have hrange := mem_attrRanges (by omega) hattr
    omega

theorem ranges_apart (entry : TypeEntry) :
    entry.ranges.Pairwise NameRange.Apart := by
  have hge := entry.start_ge
  have hrecSz := typeRecSz_eq entry.type
  refine List.Pairwise.cons ?_ (attrRanges_apart (by omega))
  intro range hmem
  have hrange := mem_attrRanges (by omega) hmem
  exact .inr hrange.2

theorem ranges_lowest (entry : TypeEntry) :
    ∃ range ∈ entry.ranges, range.1 = entry.start := by
  have hrecSz := typeRecSz_eq entry.type
  by_cases hnil : entry.type.attrList = []
  · refine ⟨_, List.mem_cons_self, ?_⟩
    rw [start, hrecSz, hnil]
    rfl
  · obtain ⟨range, hmem, hlow⟩ := @attrRanges_lowest entry.type.attrList
      (entry.stop - entry.type.name.cnt) hnil
    refine ⟨range, List.mem_cons_of_mem _ hmem, ?_⟩
    rw [hlow, start, hrecSz, Nat.sub_add_eq]

theorem span_eq (entry : TypeEntry) : entry.span = typeItmSz entry.type := by
  rw [span, typeItmSz, sizeofTypeEntity, sizeofAttrEntity, Nat.mul_comm]

end TypeEntry

section Layout

variable {sect : Sect} {entries : List (Option TypeEntry)} {soff : ℕ}
  {entry : TypeEntry}

theorem TypesLayout.typeNames_eq (h : TypesLayout sect entries)
    (hmem : (soff, entry) ∈ liveFrom 32 entries) :
    sect.typeNames soff = entry.ranges := by
  obtain ⟨-, -, hslots⟩ := h.slotsAt_of_mem hmem
  have hspan : entry.span = 24 + 24 * entry.type.attrList.length := rfl
  rw [hspan, Storage.bytes_add, TypeEntry.slots, Nat.add_assoc] at hslots
  obtain ⟨htype, hattrs⟩ := List.append_inj hslots (by simp)
  have hentity : sect.typeAt soff = ⟨entry.type.name.cnt,
      entry.stop - entry.type.name.cnt, entry.type.attrList.length⟩ := by
    rw [Sect.typeAt, htype, TypeEntity.ofBytes_bytes]
  rw [Sect.typeNames, hentity]
  dsimp only
  rw [attrNames_eq hattrs]
  rfl

theorem TypesLayout.ranges_spelt (h : TypesLayout sect entries)
    (hmem : (soff, entry) ∈ liveFrom 32 entries) :
    entry.ranges.map sect.bytesOf =
      entry.type.name.val ::
        entry.type.attrList.map (fun attr => attr.name.val) := by
  have hge := entry.start_ge
  have hrecSz := TypeEntry.typeRecSz_eq entry.type
  have hrecord := h.record hmem
  have hsize : typeRecSz entry.type =
      attrRecSz entry.type.attrList + entry.type.name.cnt := by
    rw [hrecSz, Nat.add_comm]
  have hstart : entry.start = entry.stop - entry.type.name.cnt -
      attrRecSz entry.type.attrList := by
    rw [TypeEntry.start]
    omega
  have hnext : sect.head.fileOffset +
      (entry.stop - entry.type.name.cnt -
        attrRecSz entry.type.attrList) + attrRecSz entry.type.attrList =
      sect.head.fileOffset + (entry.stop - entry.type.name.cnt) := by
    omega
  rw [hsize, hstart, Storage.bytes_add, hnext, TypeEntry.record] at hrecord
  obtain ⟨hattrs, hname⟩ := List.append_inj hrecord (by simp)
  rw [TypeEntry.ranges, List.map_cons,
    attrRanges_spelt (by omega) hattrs, Sect.bytesOf, hname]

end Layout

/-! ## The invariant -/

theorem liveFrom_bounds {soff soff' : ℕ} {entries : List (Option TypeEntry)}
    {entry : TypeEntry} (hmem : (soff', entry) ∈ liveFrom soff entries) :
    soff ≤ soff' ∧ soff' + entry.span ≤ soff + spanOf entries := by
  obtain ⟨before, after, hsplit, hsoff⟩ := mem_liveFrom hmem
  rw [hsplit, spanOf_append, spanOf_cons, Option.elim_some]
  omega

theorem liveFrom_pairwise (soff : ℕ) (entries : List (Option TypeEntry)) :
    (liveFrom soff entries).Pairwise (fun first second =>
      first.1 + first.2.span ≤ second.1) := by
  induction entries generalizing soff with
  | nil => exact List.Pairwise.nil
  | cons entry rest ih =>
      cases entry with
      | none => exact ih (soff + 24)
      | some entry =>
          refine List.Pairwise.cons ?_ (ih (soff + entry.span))
          intro second hmem
          exact (liveFrom_bounds hmem).1

def slotOf (live : ℕ × TypeEntry) : ℕ × DocType := (live.1, live.2.type)

structure TypesInv (state : TypesState)
    (entries : List (Option TypeEntry)) : Prop where
  tight : TypesTight state.sect entries
  live : state.live = (liveFrom 32 entries).map slotOf

section Inv

variable {state : TypesState} {entries : List (Option TypeEntry)}

theorem TypesInv.exists_live (h : TypesInv state entries)
    {slot : ℕ × DocType} (hslot : slot ∈ state.live) :
    ∃ soff entry, (soff, entry) ∈ liveFrom 32 entries ∧
      slot = (soff, entry.type) := by
  rw [h.live, List.mem_map] at hslot
  obtain ⟨⟨soff, entry⟩, hmem, rfl⟩ := hslot
  exact ⟨soff, entry, hmem, rfl⟩

theorem TypesInv.mem_live (h : TypesInv state entries) {soff : ℕ}
    {entry : TypeEntry} (hmem : (soff, entry) ∈ liveFrom 32 entries) :
    (soff, entry.type) ∈ state.live := by
  rw [h.live]
  exact List.mem_map_of_mem (f := slotOf) hmem

theorem TypesInv.live_eq_nil (h : TypesInv state entries)
    (hlive : liveFrom 32 entries = []) : state.live = [] := by
  rw [h.live, hlive, List.map_nil]

theorem TypesInv.write (h : TypesInv state entries) {type : DocType}
    (hnamed : type.Named) :
    ∃ state' entries', typesStep (.write type) state = some state' ∧
      TypesInv state' entries' := by
  rcases Nat.lt_or_ge state.sect.head.freeSpace (typePhSz type) with
    hlt | hge
  · refine ⟨⟨state.sect, state.live⟩, entries, ?_, h.tight, h.live⟩
    simp only [typesStep, sectTypesWrite_refused hlt]
  · obtain ⟨entry, sect', hwrite, htype, htight, -⟩ :=
      h.tight.write hnamed hge
    refine ⟨⟨sect', state.live ++ [(state.sect.head.lstItmPtr, type)]⟩,
      entries ++ [some entry], ?_, htight, ?_⟩
    · simp only [typesStep, hwrite]
    · rw [h.live, liveFrom_append, ← h.tight.lip, List.map_append, ← htype]
      rfl

theorem TypesInv.delete (h : TypesInv state entries) {soff : ℕ}
    (hlegal : ∃ slot ∈ state.live, slot.1 = soff) :
    ∃ state' entries', typesStep (.delete soff) state = some state' ∧
      TypesInv state' entries' := by
  obtain ⟨slot, hslot, rfl⟩ := hlegal
  obtain ⟨soff, entry, hmem, rfl⟩ := h.exists_live hslot
  obtain ⟨before, after, rfl, hsoff⟩ := mem_liveFrom hmem
  obtain ⟨sect', rest, hdelete, htight, htrim, -⟩ := h.tight.delete
  refine ⟨⟨sect', state.live.filter (·.1 ≠ soff)⟩, rest, ?_, htight, ?_⟩
  · simp only [typesStep, hsoff, hdelete]
  · have hbefore : ∀ slot ∈ (liveFrom 32 before).map slotOf,
        slot.1 ≠ soff := by
      intro slot hslot
      obtain ⟨⟨soff', entry'⟩, hmem', rfl⟩ := List.mem_map.mp hslot
      have hbounds := liveFrom_bounds hmem'
      have hspan : 0 < entry'.span := by
        rw [TypeEntry.span]
        omega
      simp only [slotOf]
      omega
    have hafter : ∀ slot ∈ (liveFrom (32 + spanOf before + entry.span)
        after).map slotOf, slot.1 ≠ soff := by
      intro slot hslot
      obtain ⟨⟨soff', entry'⟩, hmem', rfl⟩ := List.mem_map.mp hslot
      have hbounds := liveFrom_bounds hmem'
      have hspan : 0 < entry.span := by
        rw [TypeEntry.span]
        omega
      simp only [slotOf]
      omega
    have hkept : ∀ {slots : List (ℕ × DocType)},
        (∀ slot ∈ slots, slot.1 ≠ soff) →
          slots.filter (·.1 ≠ soff) = slots := fun hne =>
      List.filter_eq_self.mpr (fun slot hslot => by simpa using hne slot hslot)
    rw [← htrim.liveFrom_eq 32, liveFrom_append, liveFrom_append,
      entry.spanOf_cleared, TypeEntry.cleared, liveFrom_replicate,
      List.nil_append, h.live, liveFrom_append, liveFrom, ← hsoff,
      List.map_append, List.map_append, List.map_cons, List.filter_append,
      hkept hbefore, List.filter_cons_of_neg (by simp [slotOf])]
    rw [hsoff, ← hsoff, hkept (hsoff ▸ hafter)]

theorem TypesInv.step (h : TypesInv state entries) {call : TypesCall}
    (hlegal : call.Legal state) :
    ∃ state' entries', typesStep call state = some state' ∧
      TypesInv state' entries' := by
  cases call with
  | write type => exact h.write hlegal
  | delete soff => exact h.delete hlegal

theorem TypesInv.law (h : TypesInv state entries) : TypesLaw state := by
  have hlayout := h.tight.toTypesLayout
  have hlip := h.tight.lip
  have hrange : ∀ {soff entry}, (soff, entry) ∈ liveFrom 32 entries →
      state.sect.typeNames soff = entry.ranges :=
    fun hmem => hlayout.typeNames_eq hmem
  constructor
  · intro slot hslot
    obtain ⟨soff, entry, hmem, rfl⟩ := h.exists_live hslot
    have hbounds := liveFrom_bounds hmem
    rw [← entry.span_eq]
    simp only [sizeofSectHeadEntity]
    omega
  · rcases h.tight.last with hnil | ⟨rest, entry, hsplit⟩
    · left
      rw [hlip, hnil]
      exact ⟨h.live_eq_nil (by rw [hnil]; rfl), rfl⟩
    · right
      have hmem : (32 + spanOf rest, entry) ∈ liveFrom 32 entries := by
        rw [hsplit, liveFrom_append]
        exact List.mem_append_right _ List.mem_cons_self
      refine ⟨_, h.mem_live hmem, ?_⟩
      rw [hlip, hsplit, spanOf_append, spanOf_cons, Option.elim_some,
        spanOf_nil, ← entry.span_eq]
      ring
  · intro slot hslot range hmemRange
    obtain ⟨soff, entry, hmem, rfl⟩ := h.exists_live hslot
    rw [hrange hmem] at hmemRange
    have hbounds := TypeEntry.mem_ranges hmemRange
    have hinside := hlayout.inside hmem
    have hstop := entry.stop_le
    simp only [SECTION_SIZE]
    omega
  · rcases h.tight.lowest with htop | ⟨soff, entry, hmem, hstart⟩
    · left
      refine ⟨h.live_eq_nil ?_, htop⟩
      rw [List.eq_nil_iff_forall_not_mem]
      rintro ⟨soff, entry⟩ hmem
      have hinside := hlayout.inside hmem
      have hadd := entry.start_add
      have hstop := entry.stop_le
      have hcnt := entry.named.name.cnt_pos
      have hrecSz := TypeEntry.typeRecSz_eq entry.type
      omega
    · right
      obtain ⟨range, hmemRange, hlow⟩ := entry.ranges_lowest
      exact ⟨_, h.mem_live hmem, range, by rw [hrange hmem]; exact hmemRange,
        hlow.trans hstart⟩
  · exact h.tight.lip_le
  · exact h.tight.free
  · rw [h.live, List.pairwise_map]
    refine (liveFrom_pairwise 32 entries).imp ?_
    intro first second hle
    rw [TypeEntry.span_eq] at hle
    exact hle
  · have hflat : state.live.flatMap (fun slot =>
        state.sect.typeNames slot.1) =
          (liveFrom 32 entries).flatMap (fun live => live.2.ranges) := by
      rw [h.live, List.flatMap_map]
      apply List.flatMap_congr
      rintro ⟨soff, entry⟩ hmem
      exact hrange hmem
    rw [hflat, List.pairwise_flatMap]
    refine ⟨fun live _ => live.2.ranges_apart, ?_⟩
    refine hlayout.apart.imp ?_
    intro first second hle range hmem range' hmem'
    have hbounds := TypeEntry.mem_ranges hmem
    have hbounds' := TypeEntry.mem_ranges hmem'
    exact .inr (by omega)
  · intro slot hslot
    obtain ⟨soff, entry, hmem, rfl⟩ := h.exists_live hslot
    rw [hrange hmem]
    exact hlayout.ranges_spelt hmem
  · intro call hlegal
    obtain ⟨state', -, hstep, -⟩ := h.step hlegal
    exact ⟨state', hstep⟩

end Inv

/-! ## The run -/

theorem TypesRun.inv {offset : ℕ} {file₀ : Storage} {state : TypesState}
    (run : TypesRun offset file₀ state) :
    ∃ entries, TypesInv state entries := by
  apply run.invariant
  · rintro ⟨sect, live⟩ ⟨hlive, head₀, hctor⟩
    obtain ⟨sect', hctor', htight, -⟩ :=
      sectTypesCtor_tight offset head₀ file₀
    rw [hctor'] at hctor
    injection hctor with _ hsect
    exact ⟨[], hsect ▸ htight, hlive⟩
  · rintro state call state' ⟨entries, hinv⟩ hlegal hstep
    obtain ⟨state'', entries', hstep', hinv'⟩ := hinv.step hlegal
    rw [hstep', Option.some.injEq] at hstep
    exact ⟨entries', hstep ▸ hinv'⟩

/-- A types section is tight after every step, and every call returns. -/
theorem typesRun_law {offset : ℕ} {file₀ : Storage} {state : TypesState}
    (run : TypesRun offset file₀ state) : TypesLaw state := by
  obtain ⟨entries, hinv⟩ := run.inv
  exact hinv.law

/-- Two types of which the first, with an attribute, is deleted again. -/
theorem typesRun_law_two : ∃ state : TypesState,
    TypesLaw state ∧ state.live.map Prod.fst = [80] := by
  have init : TypesRun 8 Storage.empty
      ⟨Sect.synced ⟨⟨8160, 0, 32, 8192, 8⟩, Storage.empty⟩, []⟩ :=
    .init ⟨rfl, ⟨0, 0, 0, 0, 0⟩, rfl⟩
  obtain ⟨state, run, hlive⟩ := Run.exists_of_any typesStep
    (fun state call => decide (call.Legal state))
    [.write ⟨stringCtor [116], [⟨stringCtor [97], .int32⟩]⟩,
      .write ⟨stringCtor [117], []⟩, .delete 32]
    (fun state => state.live.map Prod.fst == [80])
    id (by simp) init (by decide_cbv)
  exact ⟨state, typesRun_law run, by simpa using hlive⟩

end NosqlDbms
