import NosqlDbms.TypesRead
import Mathlib.Tactic

/-!
# Deleting types

A deletion zeroes the slots and the names of a type and compresses both
borders.  The name of the lowest attribute says where the names begin; it is
found through the last slot, which is the slot of the type itself when there
are no attributes.  Slots of live types and names are never zero, so both
scans stop in front of what is live.
-/

namespace NosqlDbms

/-! ## The last slot of a type -/

theorem AttrEntity.isZeroed_bytes {entity : AttrEntity}
    (h : 0 < entity.nameSize) : isZeroed entity.bytes = false := by
  rw [Bool.eq_false_iff, Ne, isZeroed_iff, length_bytes]
  intro hzero
  have hwords : entity.nameSize = 0 :=
    wordsBytes_eq_zero_iff.mp hzero entity.nameSize List.mem_cons_self
  omega

theorem attrSlots_last {attrs : List Attr} (hne : attrs ≠ [])
    (hwords : ∀ attr ∈ attrs, attr.name.Word) (top : ℕ) :
    ∃ front last, attrSlots top attrs = front ++ AttrEntity.bytes last ∧
      last.namePtr = top - attrRecSz attrs ∧ 0 < last.nameSize := by
  induction attrs generalizing top with
  | nil => exact absurd rfl hne
  | cons attr rest ih =>
      have hword := hwords attr List.mem_cons_self
      rw [attrSlots, attrRecSz_cons, Nat.sub_add_eq]
      by_cases hnil : rest = []
      · subst hnil
        exact ⟨[], _, List.append_nil _, rfl, hword.cnt_pos⟩
      · obtain ⟨front, last, hslots, hptr, hpos⟩ := ih hnil
          (fun attr' hmem => hwords attr' (List.mem_cons_of_mem _ hmem))
          (top - attr.name.cnt)
        exact ⟨_ ++ front, last, by rw [hslots, List.append_assoc], hptr,
          hpos⟩

theorem TypeEntry.slots_last (entry : TypeEntry) :
    ∃ front last, entry.slots = front ++ AttrEntity.bytes last ∧
      last.namePtr = entry.start ∧ 0 < last.nameSize := by
  have hrecSz := typeRecSz_eq entry.type
  by_cases hnil : entry.type.attrList = []
  · refine ⟨[], ⟨entry.type.name.cnt, entry.stop - entry.type.name.cnt, 0⟩,
      ?_, ?_, entry.named.name.cnt_pos⟩
    · rw [slots, hnil]
      rfl
    · rw [start, hrecSz, hnil]
      rfl
  · obtain ⟨front, last, hslots, hptr, hpos⟩ :=
      attrSlots_last hnil entry.named.attrs
        (entry.stop - entry.type.name.cnt)
    refine ⟨_ ++ front, last, by rw [slots, hslots, List.append_assoc], ?_,
      hpos⟩
    rw [hptr, start, hrecSz, Nat.sub_add_eq]

section Layout

variable {sect sect' : Sect} {entries : List (Option TypeEntry)}

theorem TypesLayout.last_slot (h : TypesLayout sect entries) {soff : ℕ}
    {entry : TypeEntry} (hmem : (soff, entry) ∈ liveFrom 32 entries) :
    ∃ last : AttrEntity,
      sect.file.bytes
        (sect.head.fileOffset + (soff + entry.span - 24)) 24 = last.bytes ∧
      last.namePtr = entry.start ∧ 0 < last.nameSize := by
  obtain ⟨-, -, hslots⟩ := h.slotsAt_of_mem hmem
  obtain ⟨front, last, hsplit, hptr, hpos⟩ := entry.slots_last
  have hspan : entry.span = 24 + 24 * entry.type.attrList.length := rfl
  have hlength : front.length + 24 = entry.span := by
    rw [← entry.length_slots, hsplit, List.length_append,
      AttrEntity.length_bytes]
  refine ⟨last, ?_, hptr, hpos⟩
  have hcount : entry.span = (entry.span - 24) + 24 := by omega
  rw [hcount, Storage.bytes_add, hsplit] at hslots
  obtain ⟨-, hlast⟩ := List.append_inj hslots
    (by rw [Storage.length_bytes]; omega)
  have hposition : sect.head.fileOffset + (soff + entry.span - 24) =
      sect.head.fileOffset + soff + (entry.span - 24) := by
    omega
  rw [hposition, hlast]

/-! ## Zeroing slots and names -/

theorem spanOf_replicate (count : ℕ) :
    spanOf (List.replicate count none) = 24 * count := by
  simp [spanOf, Nat.mul_comm]

theorem liveFrom_replicate (soff count : ℕ) :
    liveFrom soff (List.replicate count none) = [] := by
  induction count generalizing soff with
  | zero => rfl
  | succ count ih => exact ih (soff + 24)

theorem slotsAt_replicate {soff count : ℕ}
    (hzero : ∀ position, soff ≤ position → position < soff + 24 * count →
      sect.file.cell (sect.head.fileOffset + position) = 0) :
    SlotsAt sect soff (List.replicate count none) := by
  induction count generalizing soff with
  | zero => trivial
  | succ count ih =>
      refine ⟨?_, ih (fun position hlow hhigh =>
        hzero position (by omega) (by omega))⟩
      rw [Storage.bytes_eq_iff (by simp)]
      intro index hindex
      rw [List.length_replicate] at hindex
      rw [List.getElem_replicate, Nat.add_assoc]
      exact hzero _ (by omega) (by omega)

def TypeEntry.cleared (entry : TypeEntry) : List (Option TypeEntry) :=
  List.replicate (1 + entry.type.attrList.length) none

theorem TypeEntry.spanOf_cleared (entry : TypeEntry) :
    spanOf entry.cleared = entry.span := by
  rw [cleared, spanOf_replicate, span]
  ring

theorem TypesLayout.clear {before after : List (Option TypeEntry)}
    {entry : TypeEntry} (h : TypesLayout sect
      (before ++ some entry :: after))
    (hhead : sect'.head = sect.head)
    (hsize : sect.file.size ≤ sect'.file.size)
    (hslots : ∀ position, 32 + spanOf before ≤ position →
      position < 32 + spanOf before + entry.span →
      sect'.file.cell (sect.head.fileOffset + position) = 0)
    (hkeep : ∀ position, 32 ≤ position →
      (position < 32 + spanOf before ∨
        32 + spanOf before + entry.span ≤ position) →
      (position < entry.start ∨ entry.stop ≤ position) →
      sect'.file.cell (sect.head.fileOffset + position) =
        sect.file.cell (sect.head.fileOffset + position)) :
    TypesLayout sect' (before ++ (entry.cleared ++ after)) := by
  have hlip := h.lip
  have hlipLe := h.lip_le
  have hlive : liveFrom 32 (before ++ some entry :: after) =
      liveFrom 32 before ++ (32 + spanOf before, entry) ::
        liveFrom (32 + spanOf before + entry.span) after := by
    rw [liveFrom_append, liveFrom]
  have hliveCleared : liveFrom 32 (before ++ (entry.cleared ++ after)) =
      liveFrom 32 before ++
        liveFrom (32 + spanOf before + entry.span) after := by
    rw [liveFrom_append, liveFrom_append, entry.spanOf_cleared,
      TypeEntry.cleared, liveFrom_replicate, List.nil_append]
  have hself : (32 + spanOf before, entry) ∈
      liveFrom 32 (before ++ some entry :: after) := by
    rw [hlive]
    exact List.mem_append_right _ List.mem_cons_self
  have hin := h.inside hself
  have hspanLip : 32 + spanOf before + entry.span + spanOf after =
      sect.head.lstItmPtr := by
    rw [hlip, spanOf_append, spanOf_cons, Option.elim_some]
    omega
  -- The other names lie wholly below or above those of the type.
  have hother : ∀ {soff entry'}, (soff, entry') ∈
      liveFrom 32 before ++
        liveFrom (32 + spanOf before + entry.span) after →
      (soff, entry') ∈ liveFrom 32 (before ++ some entry :: after) ∧
        (entry'.stop ≤ entry.start ∨ entry.stop ≤ entry'.start) := by
    intro soff entry' hmem
    have hapart := h.apart
    rw [hlive, List.pairwise_append] at hapart
    rw [hlive]
    rcases List.mem_append.mp hmem with hbefore | hafter
    · exact ⟨List.mem_append_left _ hbefore,
        Or.inr (hapart.2.2 _ hbefore _ List.mem_cons_self)⟩
    · exact ⟨List.mem_append_right _ (List.mem_cons_of_mem _ hafter),
        Or.inl ((List.pairwise_cons.mp hapart.2.1).1 _ hafter)⟩
  constructor
  · rw [hhead, spanOf_append, spanOf_append, entry.spanOf_cleared]
    omega
  · rw [hhead]
    exact hlipLe
  · rw [hhead]
    exact h.frp_le
  · rw [hhead]
    exact h.free
  · obtain ⟨hbefore, -, hafter⟩ := slotsAt_append.mp h.slots
    rw [slotsAt_append, slotsAt_append, entry.spanOf_cleared]
    refine ⟨hbefore.congr (by rw [hhead]) (fun position hlow hhigh =>
        hkeep position hlow (by omega) (by omega)), ?_,
      hafter.congr (by rw [hhead]) (fun position hlow hhigh =>
        hkeep position (by omega) (by omega) (by omega))⟩
    apply slotsAt_replicate
    intro position hlow hhigh
    rw [hhead]
    apply hslots position hlow
    rw [TypeEntry.span]
    omega
  · intro soff entry' hmem
    rw [hliveCleared] at hmem
    obtain ⟨hmem', hapart⟩ := hother hmem
    have hin' := h.inside hmem'
    have hadd := entry'.start_add
    rw [hhead, Storage.bytes_congr_at (fun position hlow hhigh =>
      hkeep position (by omega) (by omega) (by omega))]
    exact h.record hmem'
  · intro soff entry' hmem
    rw [hliveCleared] at hmem
    rw [hhead]
    exact h.inside (hother hmem).1
  · rw [hliveCleared]
    have hapart := h.apart
    rw [hlive, List.pairwise_append] at hapart
    rw [List.pairwise_append]
    exact ⟨hapart.1, (List.pairwise_cons.mp hapart.2.1).2,
      fun first hfirst second hsecond => hapart.2.2 first hfirst second
        (List.mem_cons_of_mem _ hsecond)⟩
  · rw [hhead]
    exact h.size_slots.trans hsize
  · intro hlt
    rw [hhead] at hlt ⊢
    exact (h.size_records hlt).trans hsize

/-! ## Compressing the borders -/

theorem TypesLayout.retract (h : TypesLayout sect (entries ++ [none]))
    (hhead : sect'.head = { sect.head with
      lstItmPtr := sect.head.lstItmPtr - 24
      freeSpace := sect.head.freeSpace + 24 })
    (hcell : sect'.file.cell = sect.file.cell)
    (hsize : sect'.file.size = sect.file.size) :
    TypesLayout sect' entries := by
  have hlip := h.lip
  have hlipLe := h.lip_le
  have hfrpLe := h.frp_le
  have hfree := h.free
  have hsizeSlots := h.size_slots
  have hlive : liveFrom 32 (entries ++ [none]) = liveFrom 32 entries := by
    rw [liveFrom_append]
    exact List.append_nil _
  have hbytes : ∀ offset length, sect'.file.bytes offset length =
      sect.file.bytes offset length := fun offset length =>
    Storage.bytes_congr (fun _ _ _ => congrFun hcell _)
  rw [spanOf_append, spanOf_cons, Option.elim_none, spanOf_nil] at hlip
  constructor
  · rw [hhead]
    simp only
    omega
  · rw [hhead]
    simp only
    omega
  · rw [hhead]
    exact hfrpLe
  · rw [hhead]
    simp only
    omega
  · exact (slotsAt_append.mp h.slots).1.congr (by rw [hhead])
      (fun _ _ _ => congrFun hcell _)
  · intro soff entry hmem
    rw [hhead, hbytes]
    exact h.record (by rw [hlive]; exact hmem)
  · intro soff entry hmem
    rw [hhead]
    exact h.inside (by rw [hlive]; exact hmem)
  · rw [← hlive]
    exact h.apart
  · rw [hhead, hsize]
    simp only
    omega
  · rw [hhead, hsize]
    exact h.size_records

/-- The last slots are those of a live type. -/
def LiveLast (entries : List (Option TypeEntry)) : Prop :=
  entries = [] ∨ ∃ rest entry, entries = rest ++ [some entry]

theorem TypesLayout.below (h : TypesLayout sect entries) :
    (entries = [] ∧ sect.head.lstItmPtr = 32) ∨
      (∃ rest, entries = rest ++ [none] ∧
        sect.file.bytes (sect.head.fileOffset +
          (sect.head.lstItmPtr - 24)) 24 = List.replicate 24 0) ∨
      ∃ last : AttrEntity, LiveLast entries ∧ 0 < last.nameSize ∧
        sect.file.bytes (sect.head.fileOffset +
          (sect.head.lstItmPtr - 24)) 24 = last.bytes := by
  have hlip := h.lip
  rcases List.eq_nil_or_concat' entries with hnil | ⟨rest, last, hsplit⟩
  · left
    rw [hnil, spanOf_nil] at hlip
    exact ⟨hnil, hlip⟩
  · right
    cases last with
    | none =>
        left
        refine ⟨rest, hsplit, ?_⟩
        have hslots := h.slots
        rw [hsplit] at hslots
        rw [hsplit, spanOf_append, spanOf_cons, Option.elim_none,
          spanOf_nil] at hlip
        have hposition : sect.head.lstItmPtr - 24 = 32 + spanOf rest := by
          omega
        rw [hposition]
        exact (slotsAt_append.mp hslots).2.1
    | some entry =>
        right
        have hmem : (32 + spanOf rest, entry) ∈ liveFrom 32 entries := by
          rw [hsplit, liveFrom_append]
          exact List.mem_append_right _ List.mem_cons_self
        obtain ⟨last, hbytes, -, hpos⟩ := h.last_slot hmem
        rw [hsplit, spanOf_append, spanOf_cons, Option.elim_some,
          spanOf_nil] at hlip
        have hposition : sect.head.lstItmPtr - 24 =
            32 + spanOf rest + entry.span - 24 := by
          omega
        exact ⟨last, .inr ⟨rest, entry, hsplit⟩, hpos,
          by rw [hposition]; exact hbytes⟩

theorem TypesLayout.read_below (h : TypesLayout sect entries) :
    ∃ data read, (sectHeadRead (sizeSub sect.head.lstItmPtr 24) 24).status
        sect = .ok data read ∧ sect.Quiet read ∧
      (read.head.lstItmPtr ≠ 32 → data = some (read.file.bytes
        (read.head.fileOffset + (read.head.lstItmPtr - 24)) 24)) := by
  have hlip := h.lip
  have hlipLe := h.lip_le
  have hfrpLe := h.frp_le
  have hsize := h.size_slots
  by_cases hlow : sect.head.lstItmPtr = 32
  · obtain ⟨data, read, hread, hquiet, -⟩ :=
      sectHeadRead_status (sizeSub sect.head.lstItmPtr 24) 24 sect
    refine ⟨data, read, hread, hquiet, fun hne => ?_⟩
    rw [hquiet.head] at hne
    exact absurd hlow hne
  · have hsub : sizeSub sect.head.lstItmPtr 24 =
        sect.head.lstItmPtr - 24 := sizeSub_of_le (by omega) (by omega)
    obtain ⟨read, hread, hquiet, -⟩ :=
      sectHeadRead_quiet sect (sect.head.lstItmPtr - 24) 24 (by omega)
        (fun _ => by omega)
    refine ⟨some (sect.file.bytes (sect.head.fileOffset +
      (sect.head.lstItmPtr - 24)) 24), read, ?_, hquiet, fun _ => ?_⟩
    · rw [hsub]
      exact Prog.status_of_ok hread
    · rw [hquiet.head, hquiet.bytes]

/-- `entries` is `rest` with some zero slots behind it. -/
def TrimmedTo (entries rest : List (Option TypeEntry)) : Prop :=
  ∃ count, entries = rest ++ List.replicate count none

theorem TrimmedTo.refl (entries : List (Option TypeEntry)) :
    TrimmedTo entries entries := ⟨0, by simp⟩

theorem TrimmedTo.snoc {rest : List (Option TypeEntry)}
    (h : TrimmedTo entries rest) : TrimmedTo (entries ++ [none]) rest := by
  obtain ⟨count, hsplit⟩ := h
  refine ⟨count + 1, ?_⟩
  rw [hsplit, List.append_assoc, List.replicate_succ']

theorem TrimmedTo.liveFrom_eq {rest : List (Option TypeEntry)}
    (h : TrimmedTo entries rest) (soff : ℕ) :
    liveFrom soff entries = liveFrom soff rest := by
  obtain ⟨count, hsplit⟩ := h
  rw [hsplit, liveFrom_append, liveFrom_replicate, List.append_nil]

theorem TypesLayout.retract_loop (fuel : ℕ) {data : Option (List Byte)}
    (h : TypesLayout sect entries)
    (hfuel : entries.length < fuel)
    (hdata : sect.head.lstItmPtr ≠ 32 → data = some (sect.file.bytes
      (sect.head.fileOffset + (sect.head.lstItmPtr - 24)) 24)) :
    ∃ sect' rest, cmprsLipLoop 24 fuel data sect =
        .ok () sect' ∧
      TypesLayout sect' rest ∧ TrimmedTo entries rest ∧ LiveLast rest ∧
      sect.Moved sect' ∧
      sect'.head.fstRecPtr = sect.head.fstRecPtr := by
  induction fuel generalizing sect entries data with
  | zero => omega
  | succ fuel ih =>
      have hlip := h.lip
      have hlipLe := h.lip_le
      have hfrpLe := h.frp_le
      have hfree := h.free
      have hsize := h.size_slots
      by_cases hbottom : sect.head.lstItmPtr = 32
      · have hlength := length_le_spanOf entries
        have hempty : entries = [] :=
          List.eq_nil_of_length_eq_zero (by omega)
        exact ⟨sect, entries, cmprsLipLoop_bottom hbottom, h, .refl entries,
          .inl hempty, .refl, rfl⟩
      · rw [hdata hbottom]
        rcases h.below with ⟨-, hlow⟩ | ⟨rest, hsplit, hzero⟩ |
          ⟨last, hlive, hpos, hbytes⟩
        · exact absurd hlow hbottom
        · subst hsplit
          rw [spanOf_append, spanOf_cons, Option.elim_none, spanOf_nil]
            at hlip
          obtain ⟨next, hnext⟩ : ∃ next : Sect, next =
              { sect with head := { sect.head with
                  lstItmPtr := sizeSub sect.head.lstItmPtr 24
                  freeSpace := sizeAdd sect.head.freeSpace 24 } } :=
            ⟨_, rfl⟩
          have hheadNext : next.head = { sect.head with
              lstItmPtr := sect.head.lstItmPtr - 24
              freeSpace := sect.head.freeSpace + 24 } := by
            rw [hnext, ← sizeSub_of_le (by omega : 24 ≤ _) (by omega),
              ← sizeAdd_of_lt (by omega : _ + 24 < _)]
          have hlipNext : next.head.lstItmPtr =
              sect.head.lstItmPtr - 24 := by
            rw [hheadNext]
          have hfileNext : next.file = sect.file := by
            rw [hnext]
          have hmoved : sect.Moved next := by
            rw [hnext]
            exact ⟨rfl, rfl, rfl, rfl⟩
          have hlayout : TypesLayout next rest :=
            h.retract hheadNext (by rw [hfileNext]) (by rw [hfileNext])
          obtain ⟨data', read, hread, hquiet, hdata'⟩ := hlayout.read_below
          obtain ⟨sect', rest', hloop, hlayout', htrim, hlive, hmoved',
            hfrp⟩ := ih (hlayout.quiet hquiet)
              (by rw [List.length_append] at hfuel; simpa using hfuel)
              hdata'
          refine ⟨sect', rest', ?_, hlayout', htrim.snoc, hlive,
            (hmoved.trans (.of_quiet hquiet)).trans hmoved',
            by rw [hfrp, hquiet.head, hheadNext]⟩
          rw [hzero, cmprsLipLoop_zero hbottom (by decide) hnext hread]
          exact hloop
        · refine ⟨sect, entries, ?_, h, .refl entries, hlive, .refl, rfl⟩
          rw [hbytes]
          exact cmprsLipLoop_live (AttrEntity.isZeroed_bytes hpos)

theorem nextNonzero_le_of_ne {cell : ℕ → Byte} {fuel position stop : ℕ}
    (hle : position ≤ stop) (hstop : cell stop ≠ 0) :
    nextNonzero cell fuel position ≤ stop := by
  induction fuel generalizing position with
  | zero => exact hle
  | succ fuel ih =>
      rw [nextNonzero]
      split
      next hzero =>
        have hne : position ≠ stop := by
          rintro rfl
          exact hstop hzero
        exact ih (by omega)
      next => exact hle

theorem TypesLayout.scanStop_le (h : TypesLayout sect entries) {soff : ℕ}
    {entry : TypeEntry} (hmem : (soff, entry) ∈ liveFrom 32 entries) :
    sect.scanStop ≤ entry.start := by
  have hrecSz := TypeEntry.typeRecSz_eq entry.type
  have hcnt := entry.named.name.cnt_pos
  have hlength := entry.length_record
  have hbytes := h.record hmem
  rw [Storage.bytes_eq_iff hlength] at hbytes
  have hfirst := hbytes 0 (by omega)
  apply nextNonzero_le_of_ne (h.inside hmem)
  rw [Nat.add_zero] at hfirst
  rw [hfirst]
  exact entry.record_ne_zero _ (List.getElem_mem _)

theorem TypesLayout.advance (h : TypesLayout sect entries)
    (hmoved : sect.Moved sect')
    (hlip : sect'.head.lstItmPtr = sect.head.lstItmPtr)
    (hfrp : sect'.head.fstRecPtr = sect.scanStop)
    (hfree : sect'.head.freeSpace + sect.head.fstRecPtr =
      sect.head.freeSpace + sect'.head.fstRecPtr) :
    TypesLayout sect' entries := by
  have hlipEq := h.lip
  have hlipLe := h.lip_le
  have hfrpLe := h.frp_le
  have hfreeEq := h.free
  have hge : sect.head.fstRecPtr ≤ sect.scanStop := le_nextNonzero _ _ _
  have hle : sect.scanStop ≤ 8192 := by
    have hbound := nextNonzero_le (fun position =>
      sect.file.cell (sect.head.fileOffset + position))
      (8192 - sect.head.fstRecPtr) sect.head.fstRecPtr
    rw [Sect.scanStop]
    omega
  have hbytes : ∀ offset length, sect'.file.bytes offset length =
      sect.file.bytes offset length := fun offset length =>
    Storage.bytes_congr (fun _ _ _ => congrFun hmoved.cell _)
  constructor
  · rw [hlip]
    exact hlipEq
  · omega
  · omega
  · omega
  · exact h.slots.congr hmoved.fileOffset
      (fun _ _ _ => congrFun hmoved.cell _)
  · intro soff entry hmem
    rw [hmoved.fileOffset, hbytes]
    exact h.record hmem
  · intro soff entry hmem
    rw [hfrp]
    exact h.scanStop_le hmem
  · exact h.apart
  · rw [hmoved.fileOffset, hmoved.size, hlip]
    exact h.size_slots
  · intro hlt
    rw [hmoved.fileOffset, hmoved.size]
    exact h.size_records (by omega)

theorem TypesLayout.synced (h : TypesLayout sect entries) :
    TypesLayout sect.synced entries :=
  h.frame rfl (fun _ hposition _ => sect.cell_synced hposition)
    (Storage.size_le_write _ _ _)

/-- Only the borders and the header of the section change, and the record
border stops where the scan does. -/
structure Sect.Compressed (sect sect' : Sect) : Prop where
  fileOffset : sect'.head.fileOffset = sect.head.fileOffset
  confined : Storage.Confined sect.head.fileOffset
    (sect.head.fileOffset + 8192) sect.file sect'.file
  keep : ∀ position, 32 ≤ position →
    sect'.file.cell (sect.head.fileOffset + position) =
      sect.file.cell (sect.head.fileOffset + position)
  scan : sect'.head.fstRecPtr = sect.scanStop

/-- Compressing both borders trims the zero slots at the end. -/
theorem TypesLayout.compress (h : TypesLayout sect entries) :
    ∃ lip frp rest, sectHeadCmprsLip 24 sect = .ok () lip ∧
      sectHeadCmprsFrp lip = .ok () frp ∧
      TypesLayout frp rest ∧ TrimmedTo entries rest ∧ LiveLast rest ∧
      sect.Compressed frp := by
  have hlength := length_le_spanOf entries
  have hlip := h.lip
  obtain ⟨data, read, hread, hquiet, hdata⟩ := h.read_below
  obtain ⟨lip, rest, hloop, hlayoutLip, htrim, hlive, hmovedLip,
    hfrpLip⟩ := (h.quiet hquiet).retract_loop (sect.head.lstItmPtr + 1)
      (by omega) hdata
  have hcmprsLip : sectHeadCmprsLip 24 sect = .ok () lip.synced :=
    sectHeadCmprsLip_of_loop hread hloop
  have hfrpLe := hlayoutLip.frp_le
  have hfree := hlayoutLip.free
  have hsynced := hlayoutLip.synced
  obtain ⟨frp, hscan, hmovedFrp, hlipFrp, hfrp, hsum⟩ :=
    cmprsFrpLoop_scan (sizeSub SECTION_SIZE lip.head.fstRecPtr + 1) none
      hsynced.frp_le (by rw [hsynced.free]; omega) hsynced.size_records
      (by
        have hsub : sizeSub SECTION_SIZE lip.head.fstRecPtr =
            8192 - lip.head.fstRecPtr :=
          sizeSub_of_le hfrpLe (by simp only [SECTION_SIZE]; omega)
        rw [hsub, Sect.synced_head]
        omega)
  have hcmprsFrp : sectHeadCmprsFrp lip.synced = .ok () frp.synced := by
    rw [sectHeadCmprsFrp, Prog.bind_of_ok (Sect.getHead_apply _),
      Sect.synced_head, Prog.bind_of_ok hscan]
    rfl
  have hoffLip : lip.head.fileOffset = sect.head.fileOffset := by
    rw [hmovedLip.fileOffset, hquiet.head]
  have hoffFrp : frp.head.fileOffset = sect.head.fileOffset := by
    rw [hmovedFrp.fileOffset, Sect.synced_head, hoffLip]
  have hheader : ∀ head : SectHead, head.bytes.length = 32 :=
    SectHead.length_bytes
  have hlipCell : ∀ position, 32 ≤ position →
      lip.synced.file.cell (sect.head.fileOffset + position) =
        sect.file.cell (sect.head.fileOffset + position) := by
    intro position hlow
    have hcell := congrFun (hmovedLip.cell.trans hquiet.cell)
      (sect.head.fileOffset + position)
    rw [← hcell]
    exact Storage.cell_write_of_out (by rw [hheader]; omega)
  have hfrpSynced : lip.synced.head.fstRecPtr = sect.head.fstRecPtr := by
    rw [Sect.synced_head, hfrpLip, hquiet.head]
  have hfrpLow : 32 ≤ sect.head.fstRecPtr := by
    have hlipLe := h.lip_le
    omega
  refine ⟨lip.synced, frp.synced, rest, hcmprsLip, hcmprsFrp,
    (hsynced.advance hmovedFrp hlipFrp hfrp hsum).synced, htrim, hlive,
    hoffFrp, ?_, ?_, ?_⟩
  · have hquiet' : Storage.Confined sect.head.fileOffset
        (sect.head.fileOffset + 8192) sect.file lip.file :=
      ⟨fun _ _ => congrFun (hmovedLip.cell.trans hquiet.cell) _,
        (hmovedLip.size.trans hquiet.size).ge⟩
    have hmoved : Storage.Confined sect.head.fileOffset
        (sect.head.fileOffset + 8192) lip.synced.file frp.file :=
      ⟨fun _ _ => congrFun hmovedFrp.cell _, hmovedFrp.size.ge⟩
    exact (hquiet'.trans (.write hoffLip.ge (by rw [hheader]; omega))).trans
      (hmoved.trans (.write hoffFrp.ge (by rw [hheader]; omega)))
  · intro position hlow
    rw [← hlipCell position hlow, ← congrFun hmovedFrp.cell]
    exact Storage.cell_write_of_out (by rw [hheader]; omega)
  · rw [Sect.synced_head, hfrp, Sect.scanStop, Sect.scanStop, hfrpSynced,
      Sect.synced_head, hoffLip]
    exact nextNonzero_congr (fun position hlow _ =>
      hlipCell position (by omega))

theorem lstAtrSoff_eq {soff : ℕ} (entry : TypeEntry)
    (hle : soff + entry.span ≤ 8192) :
    lstAtrSoff soff entry.type.attrList.length = soff + entry.span - 24 := by
  have hspan : entry.span = 24 + 24 * entry.type.attrList.length := rfl
  rw [lstAtrSoff_of_le (by omega)]
  omega

/-- The section in between: slots and names of the type are zero, and the
borders are not compressed. -/
structure TypeEntry.Zeroed (entry : TypeEntry) (soff : ℕ)
    (sect cleared : Sect) : Prop where
  head : cleared.head = sect.head
  confined : Storage.Confined sect.head.fileOffset
    (sect.head.fileOffset + 8192) sect.file cleared.file
  names : ∀ position, entry.start ≤ position → position < entry.stop →
    cleared.file.cell (sect.head.fileOffset + position) = 0
  keep : ∀ position, 32 ≤ position →
    (position < soff ∨ soff + entry.span ≤ position) →
    (position < entry.start ∨ entry.stop ≤ position) →
      cleared.file.cell (sect.head.fileOffset + position) =
        sect.file.cell (sect.head.fileOffset + position)

/-- A deletion takes the type out of the layout, and zero slots at the end. -/
theorem TypesLayout.delete_spec {before after : List (Option TypeEntry)}
    {entry : TypeEntry} (h : TypesLayout sect
      (before ++ some entry :: after)) :
    ∃ cleared sect' rest, sectTypesDelete (32 + spanOf before) sect =
        .ok () sect' ∧
      entry.Zeroed (32 + spanOf before) sect cleared ∧
      TypesLayout cleared (before ++ (entry.cleared ++ after)) ∧
      cleared.Compressed sect' ∧ TypesLayout sect' rest ∧
      TrimmedTo (before ++ (entry.cleared ++ after)) rest ∧
      LiveLast rest := by
  obtain ⟨soff, hsoff⟩ : ∃ soff, soff = 32 + spanOf before := ⟨_, rfl⟩
  have hmem : (soff, entry) ∈
      liveFrom 32 (before ++ some entry :: after) := by
    rw [liveFrom_append, hsoff]
    exact List.mem_append_right _ List.mem_cons_self
  obtain ⟨hlow, hhigh, hslots⟩ := h.slotsAt_of_mem hmem
  obtain ⟨last, hlast, hptr, hpos⟩ := h.last_slot hmem
  have hin := h.inside hmem
  have hlipLe := h.lip_le
  have hfrpLe := h.frp_le
  have hsizeSlots := h.size_slots
  have hstop := entry.stop_le
  have hstart := entry.start_add
  have hspan : entry.span = 24 + 24 * entry.type.attrList.length := rfl
  have hrecSz := TypeEntry.typeRecSz_eq entry.type
  have hcnt := entry.named.name.cnt_pos
  obtain ⟨read₁, hread₁, hquiet₁, -⟩ :=
    sectHeadRead_quiet sect soff 24 (by omega) (fun _ => by omega)
  rw [hspan, Storage.bytes_add, TypeEntry.slots] at hslots
  obtain ⟨hslot, -⟩ := List.append_inj hslots (by simp)
  have hrdType : sectTypesRdType soff sect = .ok
      ⟨entry.type.name.cnt, entry.stop - entry.type.name.cnt,
        entry.type.attrList.length⟩ read₁ := by
    rw [sectTypesRdType, sizeofTypeEntity, Prog.bind_of_ok hread₁, hslot,
      TypeEntity.ofBytes_bytes, Prog.pure_apply]
  obtain ⟨read₂, hread₂, hquiet₂, -⟩ :=
    sectHeadRead_quiet read₁ (soff + entry.span - 24) 24 (by omega)
      (fun _ => by
        rw [hquiet₁.head, hquiet₁.size]
        omega)
  rw [hquiet₁.head, hquiet₁.bytes, hlast] at hread₂
  have hrdAtr : sectTypesRdAtr
      (lstAtrSoff soff entry.type.attrList.length) read₁ =
        .ok last read₂ := by
    rw [lstAtrSoff_eq entry (by omega), sectTypesRdAtr,
      sizeofAttrEntity, Prog.bind_of_ok hread₂, AttrEntity.ofBytes_bytes,
      Prog.pure_apply]
  have hquiet := hquiet₁.trans hquiet₂
  obtain ⟨slotless, hslotless⟩ : ∃ slotless,
      slotless = read₂.putAt soff (List.replicate entry.span 0) :=
    ⟨_, rfl⟩
  obtain ⟨cleared, hcleared⟩ : ∃ cleared, cleared =
      slotless.putAt entry.start
        (List.replicate (typeRecSz entry.type) 0) := ⟨_, rfl⟩
  have hheadSlotless : slotless.head = sect.head := by
    rw [hslotless, Sect.putAt_head, hquiet.head]
  have hheadCleared : cleared.head = sect.head := by
    rw [hcleared, Sect.putAt_head, hheadSlotless]
  have hfileCleared : cleared.file = (read₂.file.put
      (sect.head.fileOffset + soff) (List.replicate entry.span 0)).put
        (sect.head.fileOffset + entry.start)
          (List.replicate (typeRecSz entry.type) 0) := by
    rw [hcleared, Sect.putAt_file, hheadSlotless, hslotless,
      Sect.putAt_file, hquiet.head]
  have hconfined : Storage.Confined sect.head.fileOffset
      (sect.head.fileOffset + 8192) sect.file cleared.file := by
    rw [hfileCleared]
    have hread : Storage.Confined sect.head.fileOffset
        (sect.head.fileOffset + 8192) sect.file read₂.file :=
      ⟨fun _ _ => congrFun hquiet.cell _, hquiet.size.ge⟩
    refine (hread.trans (.put ?_ ?_)).trans (.put ?_ ?_) <;>
      (try rw [List.length_replicate]) <;> omega
  have hzeroed : entry.Zeroed soff sect cleared := by
    refine ⟨hheadCleared, hconfined, ?_, ?_⟩
    · intro position hfrom hto
      rw [hfileCleared]
      exact Storage.cell_put_zeros _ (by omega) (by omega)
    · intro position _ hslot' hname'
      rw [hfileCleared, Storage.cell_put_of_out
          (by rw [List.length_replicate]; omega),
        Storage.cell_put_of_out (by rw [List.length_replicate]; omega),
        hquiet.cell]
  have hlayout : TypesLayout cleared (before ++ (entry.cleared ++ after)) := by
    refine h.clear hheadCleared hconfined.size_le ?_ ?_
    · intro position hfrom hto
      rw [← hsoff] at hfrom hto
      rw [hfileCleared, Storage.cell_put_of_out
        (by rw [List.length_replicate]; omega)]
      exact Storage.cell_put_zeros _ (by omega) (by omega)
    · intro position hlow hslot' hname'
      rw [← hsoff] at hslot'
      exact hzeroed.keep position hlow hslot' hname'
  obtain ⟨lip, frp, rest, hcmprsLip, hcmprsFrp, hlayoutFrp, htrim, hlive,
    hcompressed⟩ := hlayout.compress
  refine ⟨cleared, frp, rest, ?_, hsoff ▸ hzeroed, hlayout, hcompressed,
    hlayoutFrp, htrim, hlive⟩
  have hitmSz : sizeAdd 24
      (entry.type.attrList.length * 24 % sizeMax) = entry.span := by
    rw [sizeMax, Nat.mod_eq_of_lt (by omega), sizeAdd_of_lt (by omega),
      hspan, Nat.mul_comm]
  have hrecSz' : sizeSub (sizeAdd (entry.stop - entry.type.name.cnt)
      entry.type.name.cnt) last.namePtr = typeRecSz entry.type := by
    rw [sizeAdd_of_lt (by omega), hptr, sizeSub_of_le (by omega) (by omega)]
    omega
  rw [← hsoff, sectTypesDelete, Prog.bind_of_ok hrdType,
    Prog.bind_of_ok hrdAtr]
  simp only
  rw [sizeofTypeEntity, sizeofAttrEntity, hitmSz, hrecSz', hptr,
    Prog.bind_of_ok (sectHeadWrite_of_lt _ (by omega)), ← hslotless,
    Prog.bind_of_ok (sectHeadWrite_of_lt _ (by omega)), ← hcleared,
    Prog.bind_of_ok hcmprsLip, hcmprsFrp]

theorem TypesLayout.delete {before after : List (Option TypeEntry)}
    {entry : TypeEntry} (h : TypesLayout sect
      (before ++ some entry :: after)) :
    ∃ sect' rest, sectTypesDelete (32 + spanOf before) sect =
        .ok () sect' ∧
      TypesLayout sect' rest ∧
      TrimmedTo (before ++ (entry.cleared ++ after)) rest ∧
      sect'.head.fileOffset = sect.head.fileOffset ∧
      Storage.Confined sect.head.fileOffset
        (sect.head.fileOffset + 8192) sect.file sect'.file := by
  obtain ⟨cleared, sect', rest, hdelete, hzeroed, -, hcompressed, hlayout,
    htrim, -⟩ := h.delete_spec
  have hconfined := hcompressed.confined
  rw [hzeroed.head] at hconfined
  refine ⟨sect', rest, hdelete, hlayout, htrim, ?_,
    hzeroed.confined.trans hconfined⟩
  rw [hcompressed.fileOffset, hzeroed.head]

end Layout

end NosqlDbms
