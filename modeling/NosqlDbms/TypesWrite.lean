import NosqlDbms.TypesLayout
import Mathlib.Tactic

/-!
# Writing and reading types

A type that fits is appended to the layout, one that does not changes nothing.
A read at a live type returns it, and the walk over the section meets every
live type and passes the zero slots as types without a name.
-/

namespace NosqlDbms

/-! ## A name and its slot -/

/-- `raised` is `sect` after one name and its slot were written. -/
structure Sect.NamedBy (sect raised : Sect) (name : Str)
    (slot : List Byte) : Prop where
  head : raised.head = (sect.head.lower name.cnt).raise 24
  slot_bytes : raised.file.bytes
    (sect.head.fileOffset + sect.head.lstItmPtr) 24 = slot
  name_bytes : raised.file.bytes
    (sect.head.fileOffset + (sect.head.fstRecPtr - name.cnt)) name.cnt =
      name.val
  keep : ∀ position, 32 ≤ position →
    (position < sect.head.lstItmPtr ∨
      sect.head.lstItmPtr + 24 ≤ position) →
    (position < sect.head.fstRecPtr - name.cnt ∨
      sect.head.fstRecPtr ≤ position) →
    raised.file.cell (sect.head.fileOffset + position) =
      sect.file.cell (sect.head.fileOffset + position)
  within : ∀ reads, sect.Within raised reads
  size_slot : sect.head.fileOffset + (sect.head.lstItmPtr + 24) ≤
    raised.file.size
  size_name : 0 < name.cnt →
    sect.head.fileOffset + sect.head.fstRecPtr ≤ raised.file.size

theorem sectTypesNamed_spec {sect : Sect} (name : Str) {slot : List Byte}
    (hslot : slot.length = 24) (hlip : 32 ≤ sect.head.lstItmPtr)
    (hfit : sect.head.lstItmPtr + 24 + name.cnt ≤ sect.head.fstRecPtr)
    (hfrp : sect.head.fstRecPtr ≤ 8192)
    (hfree : sect.head.freeSpace =
      sect.head.fstRecPtr - sect.head.lstItmPtr) :
    ∃ lowered named slotted raised,
      sectHeadShiftFrp (sizeNeg name.cnt) sect = .ok () lowered ∧
      lowered.head = sect.head.lower name.cnt ∧
      sectHeadWrite lowered.head.fstRecPtr name.val lowered =
        .ok () named ∧
      sectHeadWrite lowered.head.lstItmPtr slot named = .ok () slotted ∧
      sectHeadShiftLip 24 slotted = .ok () raised ∧
      sect.NamedBy raised name slot := by
  have hcnt : name.val.length = name.cnt := rfl
  obtain ⟨lowered, hlowered⟩ : ∃ lowered,
      lowered = sect.withHead (sect.head.lower name.cnt) := ⟨_, rfl⟩
  have hheadLowered : lowered.head = sect.head.lower name.cnt := by
    rw [hlowered, Sect.withHead_head]
  have hlipLowered : lowered.head.lstItmPtr = sect.head.lstItmPtr := by
    rw [hheadLowered, SectHead.lower]
  have hfrpLowered : lowered.head.fstRecPtr =
      sect.head.fstRecPtr - name.cnt := by
    rw [hheadLowered, SectHead.lower]
  obtain ⟨named, hnamed⟩ : ∃ named,
      named = lowered.putAt lowered.head.fstRecPtr name.val := ⟨_, rfl⟩
  obtain ⟨slotted, hslotted⟩ : ∃ slotted,
      slotted = named.putAt lowered.head.lstItmPtr slot := ⟨_, rfl⟩
  have hheadSlotted : slotted.head = sect.head.lower name.cnt := by
    rw [hslotted, hnamed, Sect.putAt_head, Sect.putAt_head, hheadLowered]
  obtain ⟨raised, hraised⟩ : ∃ raised,
      raised = slotted.withHead (slotted.head.raise 24) := ⟨_, rfl⟩
  have hshift : sectHeadShiftFrp (sizeNeg name.cnt) sect =
      .ok () lowered := by
    rw [hlowered]
    exact sectHeadShiftFrp_neg (by omega) (by omega) (by omega) (by omega)
  have hwrite : sectHeadWrite lowered.head.fstRecPtr name.val lowered =
      .ok () named := by
    rw [hnamed]
    exact sectHeadWrite_of_lt _ (by omega)
  have hwriteSlot : sectHeadWrite lowered.head.lstItmPtr slot named =
      .ok () slotted := by
    rw [hslotted]
    exact sectHeadWrite_of_lt _ (by omega)
  have hshiftLip : sectHeadShiftLip 24 slotted = .ok () raised := by
    rw [hraised]
    apply sectHeadShiftLip_of_le <;>
      rw [hheadSlotted, SectHead.lower] <;> simp only <;> omega
  obtain ⟨sync₁, sync₂, hlength₁, hlength₂, hfile⟩ : ∃ sync₁ sync₂ : List Byte,
      sync₁.length = 32 ∧ sync₂.length = 32 ∧ raised.file =
        (((sect.file.write sect.head.fileOffset sync₁).put
          (sect.head.fileOffset + (sect.head.fstRecPtr - name.cnt))
            name.val).put (sect.head.fileOffset + sect.head.lstItmPtr)
              slot).write sect.head.fileOffset sync₂ := by
    refine ⟨_, _, (sect.head.lower name.cnt).length_bytes,
      ((sect.head.lower name.cnt).raise 24).length_bytes, ?_⟩
    rw [hraised, Sect.withHead_file, hheadSlotted, hslotted,
      Sect.putAt_file, hnamed, Sect.putAt_head, Sect.putAt_file,
      hheadLowered, hlowered, Sect.withHead_file]
    rfl
  refine ⟨lowered, named, slotted, raised, hshift, hheadLowered, hwrite,
    hwriteSlot, hshiftLip, ?_, ?_, ?_, ?_, ?_, ?_, ?_⟩
  · rw [hraised, Sect.withHead_head, hheadSlotted]
  · rw [hfile, Storage.bytes_write_of_out (by omega), ← hslot,
      Storage.bytes_put_same]
  · rw [hfile, Storage.bytes_write_of_out (by omega),
      Storage.bytes_put_of_out (by omega), ← hcnt, Storage.bytes_put_same]
  · intro position hlow hslot' hname
    rw [hfile, Storage.cell_write_of_out (by omega),
      Storage.cell_put_of_out (by omega), Storage.cell_put_of_out (by omega),
      Storage.cell_write_of_out (by omega)]
  · intro reads
    unfold Sect.Within
    rw [hfile]
    refine (Storage.Within.write ?_ ?_).trans
      ((Storage.Within.put ?_ ?_).trans ((Storage.Within.put ?_ ?_).trans
        (Storage.Within.write ?_ ?_))) <;> omega
  · have hne : slot ≠ [] := by
      intro hnil
      rw [hnil] at hslot
      cases hslot
    have hstop := Storage.stop_le_put
      (((sect.file.write sect.head.fileOffset sync₁).put
        (sect.head.fileOffset + (sect.head.fstRecPtr - name.cnt)) name.val))
      (sect.head.fileOffset + sect.head.lstItmPtr) hne
    have hmono := Storage.size_le_write
      ((((sect.file.write sect.head.fileOffset sync₁).put
        (sect.head.fileOffset + (sect.head.fstRecPtr - name.cnt))
          name.val)).put (sect.head.fileOffset + sect.head.lstItmPtr) slot)
      sect.head.fileOffset sync₂
    rw [hfile]
    omega
  · intro hpos
    have hne : name.val ≠ [] := List.ne_nil_of_length_pos hpos
    rw [hfile]
    refine le_trans ?_ (Storage.size_le_write _ _ _)
    refine le_trans ?_ (Storage.size_le_put _ _ _)
    refine le_trans ?_ (Storage.stop_le_put _ _ hne)
    omega

/-! ## Writing a type -/

/-- `after` is `sect` after slots and names of some attributes were written. -/
structure Sect.AttrsBy (sect after : Sect) (attrs : List Attr) : Prop where
  head : after.head = { sect.head with
    freeSpace := sect.head.freeSpace - (24 * attrs.length + attrRecSz attrs)
    lstItmPtr := sect.head.lstItmPtr + 24 * attrs.length
    fstRecPtr := sect.head.fstRecPtr - attrRecSz attrs }
  slots : after.file.bytes
    (sect.head.fileOffset + sect.head.lstItmPtr) (24 * attrs.length) =
      attrSlots sect.head.fstRecPtr attrs
  record : after.file.bytes
    (sect.head.fileOffset + (sect.head.fstRecPtr - attrRecSz attrs))
      (attrRecSz attrs) = attrRecord attrs
  keep : ∀ position, 32 ≤ position →
    (position < sect.head.lstItmPtr ∨
      sect.head.lstItmPtr + 24 * attrs.length ≤ position) →
    (position < sect.head.fstRecPtr - attrRecSz attrs ∨
      sect.head.fstRecPtr ≤ position) →
    after.file.cell (sect.head.fileOffset + position) =
      sect.file.cell (sect.head.fileOffset + position)
  within : ∀ reads, sect.Within after reads
  size_slots : 0 < attrs.length →
    sect.head.fileOffset +
      (sect.head.lstItmPtr + 24 * attrs.length) ≤ after.file.size

theorem sectTypesWriteAttrs_spec {attrs : List Attr} {sect : Sect}
    (hlip : 32 ≤ sect.head.lstItmPtr)
    (hfit : sect.head.lstItmPtr + 24 * attrs.length + attrRecSz attrs ≤
      sect.head.fstRecPtr)
    (hfrp : sect.head.fstRecPtr ≤ 8192)
    (hfree : sect.head.freeSpace =
      sect.head.fstRecPtr - sect.head.lstItmPtr) :
    ∃ after, sectTypesWriteAttrs attrs sect = .ok () after ∧
      sect.AttrsBy after attrs := by
  induction attrs generalizing sect with
  | nil =>
      exact ⟨sect, rfl, rfl, rfl, rfl, fun _ _ _ _ => rfl,
        fun _ => Storage.Within.refl, fun hpos => absurd hpos (lt_irrefl 0)⟩
  | cons attr rest ih =>
      rw [List.length_cons, attrRecSz_cons] at hfit
      obtain ⟨lowered, named, slotted, raised, hshift, hhead, hwrite,
        hwriteSlot, hshiftLip, hraised⟩ := @sectTypesNamed_spec sect attr.name
          (AttrEntity.bytes ⟨attr.name.cnt,
            sect.head.fstRecPtr - attr.name.cnt, attr.type.code⟩)
          (AttrEntity.length_bytes _) hlip (by omega) hfrp hfree
      have hfrpLowered : lowered.head.fstRecPtr =
          sect.head.fstRecPtr - attr.name.cnt := by
        rw [hhead, SectHead.lower]
      have hlipRaised : raised.head.lstItmPtr =
          sect.head.lstItmPtr + 24 := by
        rw [hraised.head, SectHead.raise, SectHead.lower]
      have hfrpRaised : raised.head.fstRecPtr =
          sect.head.fstRecPtr - attr.name.cnt := by
        rw [hraised.head, SectHead.raise, SectHead.lower]
      have hfreeRaised : raised.head.freeSpace =
          sect.head.freeSpace - attr.name.cnt - 24 := by
        rw [hraised.head, SectHead.raise, SectHead.lower]
      have hoffRaised : raised.head.fileOffset = sect.head.fileOffset := by
        rw [hraised.head, SectHead.raise, SectHead.lower]
      obtain ⟨after, hrest, hafter⟩ := @ih raised (by omega) (by omega)
        (by omega) (by omega)
      have hslots := hafter.slots
      have hrecord := hafter.record
      have hkeep := hafter.keep
      have hsize := (hafter.within True).size_le
      rw [hoffRaised, hlipRaised, hfrpRaised] at hslots hkeep
      rw [hoffRaised, hfrpRaised] at hrecord
      refine ⟨after, ?_, ?_, ?_, ?_, ?_, ?_, ?_⟩
      · rw [sectTypesWriteAttrs, Prog.bind_of_ok hshift,
          Prog.bind_of_ok (Sect.getHead_apply lowered),
          Prog.bind_of_ok hwrite]
        rw [← hfrpLowered] at hwriteSlot
        rw [sectTypesWrtAtr, Prog.bind_of_ok hwriteSlot, sizeofAttrEntity,
          Prog.bind_of_ok hshiftLip, hrest]
      · rw [hafter.head, hraised.head]
        simp only [SectHead.raise, SectHead.lower, List.length_cons,
          attrRecSz_cons, SectHead.mk.injEq, and_true, true_and]
        omega
      · have hfirst : after.file.bytes
            (sect.head.fileOffset + sect.head.lstItmPtr) 24 =
            raised.file.bytes
              (sect.head.fileOffset + sect.head.lstItmPtr) 24 :=
          Storage.bytes_congr_at (fun position hlow hhigh =>
            hkeep position (by omega) (by omega) (by omega))
        rw [List.length_cons, Nat.mul_succ, Nat.add_comm (24 * rest.length),
          Storage.bytes_add, hfirst, hraised.slot_bytes, attrSlots, Nat.add_assoc, hslots]
      · have hfirst : after.file.bytes (sect.head.fileOffset +
            (sect.head.fstRecPtr - attr.name.cnt)) attr.name.cnt =
            raised.file.bytes (sect.head.fileOffset +
              (sect.head.fstRecPtr - attr.name.cnt)) attr.name.cnt :=
          Storage.bytes_congr_at (fun position hlow hhigh =>
            hkeep position (by omega) (by omega) (by omega))
        have hstart : sect.head.fileOffset + (sect.head.fstRecPtr -
            attr.name.cnt - attrRecSz rest) + attrRecSz rest =
              sect.head.fileOffset +
                (sect.head.fstRecPtr - attr.name.cnt) := by
          omega
        rw [attrRecSz_cons, Nat.sub_add_eq, Nat.add_comm attr.name.cnt,
          Storage.bytes_add, hrecord, hstart, hfirst, hraised.name_bytes,
          attrRecord]
      · intro position hlow hslot hname
        rw [List.length_cons] at hslot
        rw [attrRecSz_cons] at hname
        rw [hkeep position hlow (by omega) (by omega)]
        exact hraised.keep position hlow (by omega) (by omega)
      · intro reads
        exact (hraised.within reads).trans_moved hoffRaised
          (hafter.within reads)
      · intro _
        have hslotSize := hraised.size_slot
        rw [List.length_cons]
        rcases Nat.eq_zero_or_pos rest.length with hnil | hpos
        · omega
        · have hrestSize := hafter.size_slots hpos
          omega

theorem typePhSz_eq (type : DocType) :
    typePhSz type = 24 + 24 * type.attrList.length + typeRecSz type := by
  rw [typePhSz, typeItmSz, sizeofTypeEntity, sizeofAttrEntity, Nat.mul_comm]

theorem sectTypesWrite_refused {sect : Sect} {type : DocType}
    (hfree : sect.head.freeSpace < typePhSz type) :
    sectTypesWrite type sect = .failed sect := by
  simp only [sectTypesWrite, Prog.bind_apply, Sect.getHead_apply,
    if_pos hfree, Prog.fail_apply]

/-- The new type lies right below the names there were, and nothing else
changes. -/
structure TypeEntry.Added (entry : TypeEntry) (sect sect' : Sect) : Prop where
  stop : entry.stop = sect.head.fstRecPtr
  frp : sect'.head.fstRecPtr = entry.start
  keep : ∀ position, 32 ≤ position →
    (position < sect.head.lstItmPtr ∨ sect.head.fstRecPtr ≤ position) →
      sect'.file.cell (sect.head.fileOffset + position) =
        sect.file.cell (sect.head.fileOffset + position)

/-- A type that fits gets the first slot above the items. -/
theorem TypesLayout.write_spec {sect : Sect}
    {entries : List (Option TypeEntry)} {type : DocType}
    (h : TypesLayout sect entries) (hnamed : type.Named)
    (hfree : typePhSz type ≤ sect.head.freeSpace) :
    ∃ entry sect', sectTypesWrite type sect =
        .ok sect.head.lstItmPtr sect' ∧
      entry.type = type ∧
      TypesLayout sect' (entries ++ [some entry]) ∧
      sect'.head.fileOffset = sect.head.fileOffset ∧
      (∀ reads, sect.Within sect' reads) ∧ entry.Added sect sect' := by
  have hlip := h.lip
  have hlipLe := h.lip_le
  have hfrpLe := h.frp_le
  have hfreeEq := h.free
  have hphSz := typePhSz_eq type
  have hrecSz := TypeEntry.typeRecSz_eq type
  let entry : TypeEntry := {
    type := type
    stop := sect.head.fstRecPtr
    named := hnamed
    start_ge := by omega
    stop_le := hfrpLe }
  have hstart : entry.start = sect.head.fstRecPtr - typeRecSz type := rfl
  have hspan : entry.span = 24 + 24 * type.attrList.length := rfl
  obtain ⟨lowered, named, slotted, raised, hshift, hhead, hwrite,
    hwriteSlot, hshiftLip, hraised⟩ := @sectTypesNamed_spec sect type.name
      (TypeEntity.bytes ⟨type.name.cnt,
        sect.head.fstRecPtr - type.name.cnt, type.attrList.length⟩)
      (TypeEntity.length_bytes _) (by omega) (by omega) hfrpLe hfreeEq
  have hfrpLowered : lowered.head.fstRecPtr =
      sect.head.fstRecPtr - type.name.cnt := by
    rw [hhead, SectHead.lower]
  have hlipLowered : lowered.head.lstItmPtr = sect.head.lstItmPtr := by
    rw [hhead, SectHead.lower]
  have hheadNamed : named.head = lowered.head := by
    rw [sectHeadWrite_of_lt _ (by omega)] at hwrite
    injection hwrite with _ hsect
    rw [← hsect, Sect.putAt_head]
  have hlipRaised : raised.head.lstItmPtr =
      sect.head.lstItmPtr + 24 := by
    rw [hraised.head, SectHead.raise, SectHead.lower]
  have hfrpRaised : raised.head.fstRecPtr =
      sect.head.fstRecPtr - type.name.cnt := by
    rw [hraised.head, SectHead.raise, SectHead.lower]
  have hfreeRaised : raised.head.freeSpace =
      sect.head.freeSpace - type.name.cnt - 24 := by
    rw [hraised.head, SectHead.raise, SectHead.lower]
  have hoffRaised : raised.head.fileOffset = sect.head.fileOffset := by
    rw [hraised.head, SectHead.raise, SectHead.lower]
  obtain ⟨after, hattrs, hafter⟩ :=
    @sectTypesWriteAttrs_spec type.attrList raised (by omega) (by omega)
      (by omega) (by omega)
  have hslots := hafter.slots
  have hrecord := hafter.record
  have hkeep := hafter.keep
  rw [hoffRaised, hlipRaised, hfrpRaised] at hslots hkeep
  rw [hoffRaised, hfrpRaised] at hrecord
  have hlipAfter : after.head.lstItmPtr =
      sect.head.lstItmPtr + entry.span := by
    rw [hafter.head, hspan]
    simp only
    omega
  have hfrpAfter : after.head.fstRecPtr = entry.start := by
    rw [hafter.head, hstart]
    simp only
    omega
  have hoffAfter : after.head.fileOffset = sect.head.fileOffset := by
    rw [hafter.head]
    exact hoffRaised
  have hwithin : ∀ reads, sect.Within after reads := fun reads =>
    (hraised.within reads).trans_moved hoffRaised (hafter.within reads)
  have hsizeSlot := hraised.size_slot
  have hsizeName := hraised.size_name hnamed.name.cnt_pos
  have hsizeRaised := (hraised.within True).size_le
  have hsizeAfter := (hafter.within True).size_le
  have hkept : ∀ position, 32 ≤ position →
      (position < sect.head.lstItmPtr ∨ sect.head.fstRecPtr ≤ position) →
      after.file.cell (sect.head.fileOffset + position) =
        sect.file.cell (sect.head.fileOffset + position) := by
    intro position hlow hside
    rw [hkeep position hlow (by omega) (by omega)]
    exact hraised.keep position hlow (by omega) (by omega)
  have hlive : liveFrom 32 (entries ++ [some entry]) =
      liveFrom 32 entries ++ [(sect.head.lstItmPtr, entry)] := by
    rw [liveFrom_append, ← hlip]
    rfl
  refine ⟨entry, after, ?_, rfl, ⟨?_, ?_, ?_, ?_, ?_, ?_, ?_, ?_, ?_, ?_⟩,
    hoffAfter, hwithin, ⟨rfl, hfrpAfter, hkept⟩⟩
  · have htest : ¬ sect.head.freeSpace < typePhSz type := by omega
    rw [← hfrpLowered] at hwriteSlot
    rw [sectTypesWrite, Prog.bind_of_ok (Sect.getHead_apply sect),
      if_neg htest, Prog.bind_of_ok hshift,
      Prog.bind_of_ok (Sect.getHead_apply lowered), Prog.bind_of_ok hwrite,
      sectTypesWrtType, Prog.bind_of_ok hwriteSlot, sizeofTypeEntity,
      Prog.bind_of_ok hshiftLip, Prog.bind_of_ok hattrs, Prog.pure_apply,
      hlipLowered]
  · rw [hlipAfter, hlip, spanOf_append, spanOf_cons, Option.elim_some,
      spanOf_nil]
    ring
  · omega
  · omega
  · rw [hafter.head]
    simp only
    omega
  · rw [slotsAt_append, ← hlip]
    refine ⟨h.slots.congr hoffAfter (fun position hlow hhigh =>
      hkept position hlow (by omega)), ?_, trivial⟩
    have hfirst : after.file.bytes
        (sect.head.fileOffset + sect.head.lstItmPtr) 24 =
        raised.file.bytes
          (sect.head.fileOffset + sect.head.lstItmPtr) 24 :=
      Storage.bytes_congr_at (fun position hlow hhigh =>
        hkeep position (by omega) (by omega) (by omega))
    rw [hoffAfter, hspan, Storage.bytes_add, hfirst, hraised.slot_bytes,
      Nat.add_assoc, hslots]
    rfl
  · intro soff entry' hmem
    rw [hlive, List.mem_append, List.mem_singleton] at hmem
    rw [hoffAfter]
    rcases hmem with hold | hnew
    · have hin := h.inside hold
      have hadd := entry'.start_add
      have hstop := entry'.stop_le
      rw [Storage.bytes_congr_at (fun position hlow hhigh =>
        hkept position (by omega) (by omega))]
      exact h.record hold
    · rw [Prod.mk.injEq] at hnew
      rw [hnew.2]
      have hname : after.file.bytes (sect.head.fileOffset +
          (sect.head.fstRecPtr - type.name.cnt)) type.name.cnt =
          raised.file.bytes (sect.head.fileOffset +
            (sect.head.fstRecPtr - type.name.cnt)) type.name.cnt :=
        Storage.bytes_congr_at (fun position hlow hhigh =>
          hkeep position (by omega) (by omega) (by omega))
      have hsplit : sect.head.fstRecPtr - type.name.cnt -
          attrRecSz type.attrList = entry.start := by
        omega
      have hnext : sect.head.fileOffset + entry.start +
          attrRecSz type.attrList = sect.head.fileOffset +
            (sect.head.fstRecPtr - type.name.cnt) := by
        omega
      rw [hsplit] at hrecord
      have htotal : typeRecSz entry.type =
          attrRecSz type.attrList + type.name.cnt := by
        rw [Nat.add_comm]
        exact hrecSz
      rw [htotal, Storage.bytes_add, hrecord, hnext, hname,
        hraised.name_bytes]
      rfl
  · intro soff entry' hmem
    rw [hlive, List.mem_append, List.mem_singleton] at hmem
    rcases hmem with hold | hnew
    · have hin := h.inside hold
      omega
    · rw [Prod.mk.injEq] at hnew
      rw [hnew.2, hfrpAfter]
  · rw [hlive, List.pairwise_append]
    refine ⟨h.apart, List.pairwise_singleton _ _, ?_⟩
    intro first hfirst second hsecond
    rw [List.mem_singleton.mp hsecond]
    exact h.inside hfirst
  · rw [hoffAfter, hlipAfter, hspan]
    rcases Nat.eq_zero_or_pos type.attrList.length with hnil | hpos
    · omega
    · have hattrsSize := hafter.size_slots hpos
      omega
  · intro hlt
    rw [hoffAfter]
    rcases Nat.lt_or_ge sect.head.fstRecPtr 8192 with hold | htop
    · have hrecords := h.size_records hold
      omega
    · omega

theorem TypesLayout.write {sect : Sect}
    {entries : List (Option TypeEntry)} {type : DocType}
    (h : TypesLayout sect entries) (hnamed : type.Named)
    (hfree : typePhSz type ≤ sect.head.freeSpace) :
    ∃ entry sect', sectTypesWrite type sect =
        .ok sect.head.lstItmPtr sect' ∧
      entry.type = type ∧
      TypesLayout sect' (entries ++ [some entry]) ∧
      sect'.head.fileOffset = sect.head.fileOffset ∧
      ∀ reads, sect.Within sect' reads := by
  obtain ⟨entry, sect', hwrite, htype, hlayout, hoffset, hwithin, -⟩ :=
    h.write_spec hnamed hfree
  exact ⟨entry, sect', hwrite, htype, hlayout, hoffset, hwithin⟩

end NosqlDbms
