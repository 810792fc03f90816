import NosqlDbms.TypesWrite
import Mathlib.Tactic

/-!
# Reading and finding types

A read at a live type returns it.  The walk over the section meets every live
type and passes the zero slots one by one, as types without a name, so a name
is found exactly when a live type has it.
-/

namespace NosqlDbms

theorem sectTypesReadAttrs_spec {attrs : List Attr} {sect : Sect}
    {soff top : ℕ}
    (hslots : sect.file.bytes (sect.head.fileOffset + soff)
      (24 * attrs.length) = attrSlots top attrs)
    (hrecord : sect.file.bytes
      (sect.head.fileOffset + (top - attrRecSz attrs)) (attrRecSz attrs) =
        attrRecord attrs)
    (hsoff : soff + 24 * attrs.length ≤ 8192)
    (htop : attrRecSz attrs ≤ top) (htopLe : top ≤ 8192)
    (hsize : 0 < attrs.length → sect.head.fileOffset +
      (soff + 24 * attrs.length) ≤ sect.file.size)
    (hend : 0 < attrRecSz attrs →
      sect.head.fileOffset + 8192 ≤ sect.file.size) :
    ∃ sect', sectTypesReadAttrs attrs.length soff sect = .ok attrs sect' ∧
      sect.Quiet sect' ∧ ∀ reads, sect.Within sect' reads := by
  induction attrs generalizing sect soff top with
  | nil => exact ⟨sect, rfl, ⟨rfl, rfl, rfl⟩, fun _ => Storage.Within.refl⟩
  | cons attr rest ih =>
      rw [attrRecSz_cons] at hrecord htop hend
      rw [List.length_cons] at hsoff hsize
      have hsplit : 24 * (attr :: rest).length = 24 + 24 * rest.length := by
        rw [List.length_cons]
        ring
      rw [hsplit, Storage.bytes_add, attrSlots] at hslots
      obtain ⟨hslot, hslots'⟩ := List.append_inj hslots (by simp)
      have hstart : sect.head.fileOffset +
          (top - (attr.name.cnt + attrRecSz rest)) + attrRecSz rest =
            sect.head.fileOffset + (top - attr.name.cnt) := by
        omega
      rw [Nat.add_comm attr.name.cnt (attrRecSz rest), Storage.bytes_add,
        Nat.add_comm (attrRecSz rest) attr.name.cnt, hstart, attrRecord]
        at hrecord
      obtain ⟨hrecord', hname⟩ := List.append_inj hrecord (by simp)
      obtain ⟨read₁, hread₁, hquiet₁, hwithin₁⟩ :=
        sectHeadRead_quiet sect soff 24 (by omega)
          (fun _ => by
            have hle := hsize (by omega)
            omega)
      rw [hslot] at hread₁
      obtain ⟨read₂, hread₂, hquiet₂, hwithin₂⟩ :=
        sectHeadRead_quiet read₁ (top - attr.name.cnt) attr.name.cnt
          (by omega)
          (fun hpos => by
            have hle := hend (by omega)
            rw [hquiet₁.head, hquiet₁.size]
            omega)
      rw [hquiet₁.head, hquiet₁.bytes, hname] at hread₂
      have hquiet := hquiet₁.trans hquiet₂
      have hadd : sizeAdd soff sizeofAttrEntity = soff + 24 :=
        sizeAdd_of_lt (by simp only [sizeofAttrEntity]; omega)
      obtain ⟨sect', hrest, hquiet₃, hwithin₃⟩ :=
        @ih read₂ (soff + 24) (top - attr.name.cnt)
          (by
            rw [hquiet.head, hquiet.bytes, ← Nat.add_assoc]
            exact hslots')
          (by
            have hsub : top - attr.name.cnt - attrRecSz rest =
                top - (attr.name.cnt + attrRecSz rest) := by
              omega
            rw [hquiet.head, hquiet.bytes, hsub]
            exact hrecord')
          (by omega) (by omega) (by omega)
          (fun _ => by
            have hle := hsize (by omega)
            rw [hquiet.head, hquiet.size]
            omega)
          (fun hpos => by
            rw [hquiet.head, hquiet.size]
            exact hend (by omega))
      refine ⟨sect', ?_, hquiet.trans hquiet₃, fun reads =>
        ((hwithin₁ reads).trans hquiet₁.head (hwithin₂ reads)).trans
          hquiet.head (hwithin₃ reads)⟩
      rw [List.length_cons, sectTypesReadAttrs]
      have hrdAtr : sectTypesRdAtr soff sect = .ok
          ⟨attr.name.cnt, top - attr.name.cnt, attr.type.code⟩ read₁ := by
        rw [sectTypesRdAtr, sizeofAttrEntity, Prog.bind_of_ok hread₁,
          AttrEntity.ofBytes_bytes, Prog.pure_apply]
      rw [Prog.bind_of_ok hrdAtr, Prog.bind_of_ok hread₂]
      simp only [JsonType.ofCode?_code]
      rw [hadd, Prog.bind_of_ok hrest, Prog.pure_apply, stringCtor_val]

section Layout

variable {sect : Sect} {entries : List (Option TypeEntry)}

theorem TypesLayout.read (h : TypesLayout sect entries) {soff : ℕ}
    {entry : TypeEntry} (hmem : (soff, entry) ∈ liveFrom 32 entries) :
    ∃ sect', sectTypesRead soff sect =
        .ok (entry.type, entry.span) sect' ∧
      sect.Quiet sect' ∧ ∀ reads, sect.Within sect' reads := by
  obtain ⟨hlow, hhigh, hslots⟩ := h.slotsAt_of_mem hmem
  have hrecord := h.record hmem
  have hin := h.inside hmem
  have hlipLe := h.lip_le
  have hfrpLe := h.frp_le
  have hsizeSlots := h.size_slots
  have hstop := entry.stop_le
  have hstart := entry.start_add
  have hspan : entry.span =
    24 + 24 * entry.type.attrList.length := rfl
  have hcnt := entry.named.name.cnt_pos
  have hrecSz := TypeEntry.typeRecSz_eq entry.type
  have hend := h.size_records (by omega)
  rw [hspan, Storage.bytes_add, TypeEntry.slots] at hslots
  obtain ⟨hslot, hattrSlots⟩ := List.append_inj hslots (by simp)
  have hname : sect.head.fileOffset + entry.start +
      attrRecSz entry.type.attrList =
        sect.head.fileOffset + (entry.stop - entry.type.name.cnt) := by
    omega
  have hstartEq : entry.start = entry.stop - entry.type.name.cnt -
      attrRecSz entry.type.attrList := by
    omega
  rw [hrecSz, Nat.add_comm entry.type.name.cnt, Storage.bytes_add, hname,
    TypeEntry.record] at hrecord
  obtain ⟨hattrRecord, hnameBytes⟩ := List.append_inj hrecord (by simp)
  rw [hstartEq] at hattrRecord
  obtain ⟨read₁, hread₁, hquiet₁, hwithin₁⟩ :=
    sectHeadRead_quiet sect soff 24 (by omega) (fun _ => by omega)
  rw [hslot] at hread₁
  obtain ⟨read₂, hread₂, hquiet₂, hwithin₂⟩ :=
    sectHeadRead_quiet read₁ (entry.stop - entry.type.name.cnt)
      entry.type.name.cnt (by omega)
      (fun _ => by
        rw [hquiet₁.head, hquiet₁.size]
        omega)
  rw [hquiet₁.head, hquiet₁.bytes, hnameBytes] at hread₂
  have hquiet := hquiet₁.trans hquiet₂
  obtain ⟨sect', hattrs, hquiet₃, hwithin₃⟩ :=
    @sectTypesReadAttrs_spec entry.type.attrList read₂ (soff + 24)
      (entry.stop - entry.type.name.cnt)
      (by
        rw [hquiet.head, hquiet.bytes, ← Nat.add_assoc]
        exact hattrSlots)
      (by
        rw [hquiet.head, hquiet.bytes]
        exact hattrRecord)
      (by omega) (by omega) (by omega)
      (fun _ => by
        rw [hquiet.head, hquiet.size]
        omega)
      (fun _ => by
        rw [hquiet.head, hquiet.size]
        exact hend)
  have hadd : sizeAdd soff sizeofTypeEntity = soff + 24 :=
    sizeAdd_of_lt (by simp only [sizeofTypeEntity]; omega)
  have hrdType : sectTypesRdType soff sect = .ok
      ⟨entry.type.name.cnt, entry.stop - entry.type.name.cnt,
        entry.type.attrList.length⟩ read₁ := by
    rw [sectTypesRdType, sizeofTypeEntity, Prog.bind_of_ok hread₁,
      TypeEntity.ofBytes_bytes, Prog.pure_apply]
  refine ⟨sect', ?_, hquiet.trans hquiet₃, fun reads =>
    ((hwithin₁ reads).trans hquiet₁.head (hwithin₂ reads)).trans
      hquiet.head (hwithin₃ reads)⟩
  rw [sectTypesRead, Prog.bind_of_ok hrdType, Prog.bind_of_ok hread₂]
  simp only
  rw [hadd, Prog.bind_of_ok hattrs, Prog.pure_apply, stringCtor_val, hspan,
    sizeofTypeEntity, sizeofAttrEntity, Nat.mul_comm]

/-- The type without a name and attributes that a zero slot reads as. -/
def namelessType : DocType where
  name := stringCtor []
  attrList := []

theorem sectTypesRead_zero {soff : ℕ}
    (hzero : sect.file.bytes (sect.head.fileOffset + soff) 24 =
      List.replicate 24 0)
    (hsoff : soff + 24 ≤ 8192)
    (hsize : sect.head.fileOffset + (soff + 24) ≤ sect.file.size) :
    ∃ sect', sectTypesRead soff sect = .ok (namelessType, 24) sect' ∧
      sect.Quiet sect' ∧ ∀ reads, sect.Within sect' reads := by
  obtain ⟨read, hread, hquiet, hwithin⟩ :=
    sectHeadRead_quiet sect soff 24 hsoff (fun _ => by omega)
  have hrdType : sectTypesRdType soff sect = .ok ⟨0, 0, 0⟩ read := by
    rw [sectTypesRdType, sizeofTypeEntity, Prog.bind_of_ok hread, hzero,
      TypeEntity.ofBytes_zeros, Prog.pure_apply]
  refine ⟨read, ?_, hquiet, hwithin⟩
  rw [sectTypesRead, Prog.bind_of_ok hrdType,
    Prog.bind_of_ok (sectHeadRead_zero 0 read)]
  rfl

/-! ## The walk over the section -/

/-- What the walk reads, zero slots included. -/
def loadedFrom : ℕ → List (Option TypeEntry) → List (ℕ × DocType)
  | _, [] => []
  | soff, none :: rest => (soff, namelessType) :: loadedFrom (soff + 24) rest
  | soff, some entry :: rest =>
      (soff, entry.type) :: loadedFrom (soff + entry.span) rest

theorem length_le_spanOf (entries : List (Option TypeEntry)) :
    entries.length ≤ spanOf entries := by
  induction entries with
  | nil => exact le_rfl
  | cons entry rest ih =>
      rw [List.length_cons, spanOf_cons]
      cases entry with
      | none =>
          rw [Option.elim_none]
          omega
      | some entry =>
          have hspan : entry.span =
            24 + 24 * entry.type.attrList.length := rfl
          rw [Option.elim_some]
          omega

theorem sectTypesLoadFrom_spec (h : TypesLayout sect entries)
    {before after : List (Option TypeEntry)}
    (hsplit : entries = before ++ after) {fuel : ℕ}
    (hfuel : after.length < fuel) :
    ∃ sect', sectTypesLoadFrom fuel (32 + spanOf before) sect =
        .ok (loadedFrom (32 + spanOf before) after) sect' ∧
      sect.Quiet sect' ∧ ∀ reads, sect.Within sect' reads := by
  induction fuel generalizing sect before after with
  | zero => omega
  | succ fuel ih =>
      have hlip := h.lip
      have hlipLe := h.lip_le
      have hfrpLe := h.frp_le
      have hslots := h.slots
      have hsize := h.size_slots
      rw [hsplit, spanOf_append] at hlip
      rw [hsplit] at hslots
      obtain ⟨-, hslots'⟩ := slotsAt_append.mp hslots
      rw [sectTypesLoadFrom, Prog.bind_of_ok (Sect.getHead_apply sect)]
      cases after with
      | nil =>
          rw [if_neg (by rw [hlip, spanOf_nil]; omega)]
          exact ⟨sect, rfl, ⟨rfl, rfl, rfl⟩, fun _ => Storage.Within.refl⟩
      | cons first rest =>
          rw [spanOf_cons] at hlip
          obtain ⟨type, span, read, hread, hquiet, hwithin, hspan, hpos,
            hloaded⟩ : ∃ type span read,
              sectTypesRead (32 + spanOf before) sect =
                .ok (type, span) read ∧ sect.Quiet read ∧
              (∀ reads, sect.Within read reads) ∧
              first.elim 24 TypeEntry.span = span ∧ 0 < span ∧
              loadedFrom (32 + spanOf before) (first :: rest) =
                (32 + spanOf before, type) ::
                  loadedFrom (32 + spanOf before + span) rest := by
            cases first with
            | none =>
                rw [Option.elim_none] at hlip
                obtain ⟨read, hread, hquiet, hwithin⟩ :=
                  sectTypesRead_zero hslots'.1 (by omega) (by omega)
                exact ⟨namelessType, 24, read, hread, hquiet, hwithin, rfl,
                  by omega, rfl⟩
            | some entry =>
                obtain ⟨read, hread, hquiet, hwithin⟩ := h.read
                  (show (32 + spanOf before, entry) ∈ liveFrom 32 entries by
                    rw [hsplit, liveFrom_append]
                    exact List.mem_append_right _ List.mem_cons_self)
                have hspan : entry.span =
                  24 + 24 * entry.type.attrList.length := rfl
                exact ⟨entry.type, entry.span, read, hread, hquiet, hwithin,
                  rfl, by omega, rfl⟩
          rw [hspan] at hlip
          have hadd : sizeAdd (32 + spanOf before) span =
              32 + spanOf (before ++ [first]) := by
            rw [spanOf_append, spanOf_cons, spanOf_nil, hspan, Nat.add_zero,
              ← Nat.add_assoc]
            exact sizeAdd_of_lt (by omega)
          have hsplit' : entries = before ++ [first] ++ rest := by
            rw [hsplit, List.append_assoc]
            rfl
          obtain ⟨sect', hrest, hquiet', hwithin'⟩ :=
            ih (h.quiet hquiet) hsplit' (by simpa using hfuel)
          refine ⟨sect', ?_, hquiet.trans hquiet', fun reads =>
            (hwithin reads).trans hquiet.head (hwithin' reads)⟩
          rw [if_pos (by omega), Prog.bind_of_ok hread, hadd,
            Prog.bind_of_ok hrest, Prog.pure_apply, hloaded]
          congr 3
          rw [spanOf_append, spanOf_cons, spanOf_nil, hspan, Nat.add_zero,
            Nat.add_assoc]

theorem TypesLayout.load (h : TypesLayout sect entries) :
    ∃ sect', sectTypesLoad sect = .ok (loadedFrom 32 entries) sect' ∧
      sect.Quiet sect' ∧ ∀ reads, sect.Within sect' reads := by
  have hlip := h.lip
  have hlength := length_le_spanOf entries
  obtain ⟨sect', hload, hquiet, hwithin⟩ :=
    @sectTypesLoadFrom_spec sect entries h [] entries rfl
      (sect.head.lstItmPtr + 1) (by omega)
  rw [spanOf_nil, Nat.add_zero] at hload
  refine ⟨sect', ?_, hquiet, hwithin⟩
  rw [sectTypesLoad, Prog.bind_of_ok (Sect.getHead_apply sect)]
  exact hload

/-! ## Finding a name -/

/-- The first live type of the name. -/
def findLive (name : Str) (live : List (ℕ × TypeEntry)) :
    Option (ℕ × TypeEntry) :=
  live.find? (fun entry => decide (entry.2.type.name = name))

theorem find_loadedFrom {name : Str} (soff : ℕ)
    (entries : List (Option TypeEntry))
    (hname : none ∈ entries → name.val ≠ []) :
    (loadedFrom soff entries).find?
        (fun entry => stringCmp entry.2.name name == 0) =
      (findLive name (liveFrom soff entries)).map
        (fun entry => (entry.1, entry.2.type)) := by
  induction entries generalizing soff with
  | nil => rfl
  | cons entry rest ih =>
      cases entry with
      | none =>
          have hne : (stringCmp namelessType.name name == 0) = false := by
            rw [beq_eq_false_iff_ne, Ne, stringCmp_eq_zero_iff]
            intro heq
            apply hname List.mem_cons_self
            rw [← heq]
            rfl
          rw [loadedFrom, List.find?_cons_of_neg (by rw [hne]; simp),
            ih _ (fun hmem => hname (List.mem_cons_of_mem _ hmem)), liveFrom]
      | some entry =>
          rw [loadedFrom, liveFrom, findLive]
          by_cases heq : entry.type.name = name
          · have hcmp : (stringCmp entry.type.name name == 0) = true := by
              rw [beq_iff_eq, stringCmp_eq_zero_iff]
              exact heq
            rw [List.find?_cons_of_pos (by exact hcmp),
              List.find?_cons_of_pos (by simpa using heq)]
            rfl
          · have hcmp : (stringCmp entry.type.name name == 0) = false := by
              rw [beq_eq_false_iff_ne, Ne, stringCmp_eq_zero_iff]
              exact heq
            rw [List.find?_cons_of_neg (by simpa using hcmp),
              ih _ (fun hmem => hname (List.mem_cons_of_mem _ hmem)),
              List.find?_cons_of_neg (by simpa using heq)]
            rfl

theorem TypesLayout.find_some (h : TypesLayout sect entries) {name : Str}
    (hname : none ∈ entries → name.val ≠ []) {soff : ℕ} {entry : TypeEntry}
    (hfind : findLive name (liveFrom 32 entries) = some (soff, entry)) :
    ∃ sect', sectTypesFind name sect = .ok (soff, entry.type) sect' ∧
      sect.Quiet sect' ∧ ∀ reads, sect.Within sect' reads := by
  obtain ⟨sect', hload, hquiet, hwithin⟩ := h.load
  refine ⟨sect', ?_, hquiet, hwithin⟩
  rw [sectTypesFind, Prog.bind_of_ok hload, find_loadedFrom _ _ hname, hfind]
  rfl

theorem TypesLayout.find_none (h : TypesLayout sect entries) {name : Str}
    (hname : none ∈ entries → name.val ≠ [])
    (hfind : findLive name (liveFrom 32 entries) = none) :
    ∃ sect', sectTypesFind name sect = .failed sect' ∧
      sect.Quiet sect' ∧ ∀ reads, sect.Within sect' reads := by
  obtain ⟨sect', hload, hquiet, hwithin⟩ := h.load
  refine ⟨sect', ?_, hquiet, hwithin⟩
  rw [sectTypesFind, Prog.bind_of_ok hload, find_loadedFrom _ _ hname, hfind]
  rfl

end Layout

end NosqlDbms
