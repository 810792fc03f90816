import NosqlDbms.ExtentsRefused
import NosqlDbms.Types
import Mathlib.Tactic

/-!
# The layout of a types section

From the header on, the slots of a types section are those of types and zero
slots that deletions left behind.  `TypesLayout sect entries` lists them in
order.  Names have no zero byte, so neither scan of a deletion runs into a
live type.
-/

namespace NosqlDbms

/-! ## What a type looks like in the section -/

@[simp] theorem TypeEntity.length_bytes (entity : TypeEntity) :
    entity.bytes.length = 24 := by
  simp [TypeEntity.bytes]

@[simp] theorem AttrEntity.length_bytes (entity : AttrEntity) :
    entity.bytes.length = 24 := by
  simp [AttrEntity.bytes]

@[simp] theorem TypeEntity.ofBytes_bytes (entity : TypeEntity) :
    TypeEntity.ofBytes entity.bytes = entity := by
  have hword (index : ℕ) (hindex : index < 3) :
      wordAt entity.bytes index =
        [entity.nameSize, entity.namePtr, entity.attrCnt][index] :=
    wordAt_wordsBytes hindex
  simp only [TypeEntity.ofBytes, hword 0 (by omega), hword 1 (by omega),
    hword 2 (by omega)]
  rfl

@[simp] theorem AttrEntity.ofBytes_bytes (entity : AttrEntity) :
    AttrEntity.ofBytes entity.bytes = entity := by
  have hword (index : ℕ) (hindex : index < 3) :
      wordAt entity.bytes index =
        [entity.nameSize, entity.namePtr, entity.attrType][index] :=
    wordAt_wordsBytes hindex
  simp only [AttrEntity.ofBytes, hword 0 (by omega), hword 1 (by omega),
    hword 2 (by omega)]
  rfl

theorem TypeEntity.ofBytes_zeros :
    TypeEntity.ofBytes (List.replicate 24 0) = ⟨0, 0, 0⟩ := by
  have hzeros : (⟨0, 0, 0⟩ : TypeEntity).bytes = List.replicate 24 0 :=
    wordsBytes_eq_zero_iff.mpr (by simp)
  rw [← hzeros, TypeEntity.ofBytes_bytes]

/-- A name as the client's grammar admits it: neither empty nor with a NUL. -/
structure Str.Word (str : Str) : Prop where
  ne_nil : str.val ≠ []
  nulFree : ∀ char ∈ str.val, char ≠ 0

theorem Str.Word.cnt_pos {str : Str} (h : str.Word) : 0 < str.cnt :=
  List.length_pos_of_ne_nil h.ne_nil

structure DocType.Named (type : DocType) : Prop where
  name : type.name.Word
  attrs : ∀ attr ∈ type.attrList, attr.name.Word

instance (str : Str) : Decidable str.Word :=
  decidable_of_iff (str.val ≠ [] ∧ ∀ char ∈ str.val, char ≠ 0)
    ⟨fun h => ⟨h.1, h.2⟩, fun h => ⟨h.ne_nil, h.nulFree⟩⟩

instance (type : DocType) : Decidable type.Named :=
  decidable_of_iff (type.name.Word ∧ ∀ attr ∈ type.attrList, attr.name.Word)
    ⟨fun h => ⟨h.1, h.2⟩, fun h => ⟨h.name, h.attrs⟩⟩

/-- The slots of the attributes, whose names end at `top` and below. -/
def attrSlots (top : ℕ) : List Attr → List Byte
  | [] => []
  | attr :: rest =>
      AttrEntity.bytes
          ⟨attr.name.cnt, top - attr.name.cnt, attr.type.code⟩ ++
        attrSlots (top - attr.name.cnt) rest

/-- The names of the attributes as they lie in the section. -/
def attrRecord : List Attr → List Byte
  | [] => []
  | attr :: rest => attrRecord rest ++ attr.name.val

def attrRecSz (attrs : List Attr) : ℕ :=
  (attrs.map (fun attr => attr.name.cnt)).sum

@[simp] theorem attrRecSz_cons (attr : Attr) (rest : List Attr) :
    attrRecSz (attr :: rest) = attr.name.cnt + attrRecSz rest := by
  simp [attrRecSz]

@[simp] theorem length_attrSlots (top : ℕ) (attrs : List Attr) :
    (attrSlots top attrs).length = 24 * attrs.length := by
  induction attrs generalizing top with
  | nil => rfl
  | cons attr rest ih =>
      rw [attrSlots, List.length_append, ih, AttrEntity.length_bytes,
        List.length_cons]
      ring

@[simp] theorem length_attrRecord (attrs : List Attr) :
    (attrRecord attrs).length = attrRecSz attrs := by
  induction attrs with
  | nil => rfl
  | cons attr rest ih =>
      rw [attrRecord, List.length_append, ih, attrRecSz_cons, Nat.add_comm]
      rfl

/-- A live type of a section; its names end at `stop`. -/
structure TypeEntry where
  type : DocType
  stop : ℕ
  named : type.Named
  start_ge : 32 + 24 + typeRecSz type ≤ stop
  stop_le : stop ≤ 8192

namespace TypeEntry

def start (entry : TypeEntry) : ℕ := entry.stop - typeRecSz entry.type

def span (entry : TypeEntry) : ℕ := 24 + 24 * entry.type.attrList.length

def slots (entry : TypeEntry) : List Byte :=
  TypeEntity.bytes ⟨entry.type.name.cnt,
      entry.stop - entry.type.name.cnt, entry.type.attrList.length⟩ ++
    attrSlots (entry.stop - entry.type.name.cnt) entry.type.attrList

def record (entry : TypeEntry) : List Byte :=
  attrRecord entry.type.attrList ++ entry.type.name.val

@[simp] theorem length_slots (entry : TypeEntry) :
    entry.slots.length = entry.span := by
  simp [slots, span]

theorem typeRecSz_eq (type : DocType) :
    typeRecSz type = type.name.cnt + attrRecSz type.attrList := rfl

@[simp] theorem length_record (entry : TypeEntry) :
    entry.record.length = typeRecSz entry.type := by
  rw [record, List.length_append, length_attrRecord, typeRecSz_eq,
    Nat.add_comm]
  rfl

theorem start_add (entry : TypeEntry) :
    entry.start + typeRecSz entry.type = entry.stop := by
  have hge := entry.start_ge
  rw [start]
  omega

end TypeEntry

theorem attrRecord_ne_zero {attrs : List Attr}
    (h : ∀ attr ∈ attrs, attr.name.Word) :
    ∀ char ∈ attrRecord attrs, char ≠ 0 := by
  induction attrs with
  | nil => simp [attrRecord]
  | cons attr rest ih =>
      intro char hmem
      rw [attrRecord, List.mem_append] at hmem
      rcases hmem with hrest | hname
      · exact ih (fun attr' hmem' => h attr' (List.mem_cons_of_mem _ hmem'))
          char hrest
      · exact (h attr List.mem_cons_self).nulFree char hname

theorem TypeEntry.record_ne_zero (entry : TypeEntry) :
    ∀ char ∈ entry.record, char ≠ 0 := by
  intro char hmem
  rw [record, List.mem_append] at hmem
  rcases hmem with hattrs | hname
  · exact attrRecord_ne_zero entry.named.attrs char hattrs
  · exact entry.named.name.nulFree char hname

/-! ## The slots of a section in order -/

/-- The live types with their offsets, `none` being a zero slot. -/
def liveFrom : ℕ → List (Option TypeEntry) → List (ℕ × TypeEntry)
  | _, [] => []
  | soff, none :: rest => liveFrom (soff + 24) rest
  | soff, some entry :: rest =>
      (soff, entry) :: liveFrom (soff + entry.span) rest

def spanOf (entries : List (Option TypeEntry)) : ℕ :=
  (entries.map (fun entry => entry.elim 24 TypeEntry.span)).sum

@[simp] theorem spanOf_nil : spanOf [] = 0 := rfl

@[simp] theorem spanOf_cons (entry : Option TypeEntry)
    (rest : List (Option TypeEntry)) :
    spanOf (entry :: rest) = entry.elim 24 TypeEntry.span + spanOf rest := by
  simp [spanOf]

@[simp] theorem spanOf_append (first second : List (Option TypeEntry)) :
    spanOf (first ++ second) = spanOf first + spanOf second := by
  simp [spanOf]

theorem liveFrom_append (soff : ℕ) (first second : List (Option TypeEntry)) :
    liveFrom soff (first ++ second) =
      liveFrom soff first ++ liveFrom (soff + spanOf first) second := by
  induction first generalizing soff with
  | nil => simp [liveFrom]
  | cons entry rest ih =>
      cases entry with
      | none =>
          rw [List.cons_append, liveFrom, liveFrom, ih, spanOf_cons,
            ← Nat.add_assoc]
          rfl
      | some entry =>
          rw [List.cons_append, liveFrom, liveFrom, ih, spanOf_cons,
            List.cons_append, ← Nat.add_assoc]
          rfl

/-- The bytes of the slots from `soff` on. -/
def SlotsAt (sect : Sect) : ℕ → List (Option TypeEntry) → Prop
  | _, [] => True
  | soff, none :: rest =>
      sect.file.bytes (sect.head.fileOffset + soff) 24 =
        List.replicate 24 0 ∧ SlotsAt sect (soff + 24) rest
  | soff, some entry :: rest =>
      sect.file.bytes (sect.head.fileOffset + soff) entry.span =
        entry.slots ∧ SlotsAt sect (soff + entry.span) rest

theorem slotsAt_append {sect : Sect} {soff : ℕ}
    {first second : List (Option TypeEntry)} :
    SlotsAt sect soff (first ++ second) ↔
      SlotsAt sect soff first ∧ SlotsAt sect (soff + spanOf first) second := by
  induction first generalizing soff with
  | nil => simp [SlotsAt]
  | cons entry rest ih =>
      cases entry with
      | none =>
          rw [List.cons_append, SlotsAt, SlotsAt, ih, spanOf_cons,
            ← Nat.add_assoc, and_assoc]
          rfl
      | some entry =>
          rw [List.cons_append, SlotsAt, SlotsAt, ih, spanOf_cons,
            ← Nat.add_assoc, and_assoc]
          rfl

theorem SlotsAt.congr {sect sect' : Sect} {soff : ℕ}
    {entries : List (Option TypeEntry)} (h : SlotsAt sect soff entries)
    (hoffset : sect'.head.fileOffset = sect.head.fileOffset)
    (hcell : ∀ position, soff ≤ position →
      position < soff + spanOf entries →
      sect'.file.cell (sect.head.fileOffset + position) =
        sect.file.cell (sect.head.fileOffset + position)) :
    SlotsAt sect' soff entries := by
  induction entries generalizing soff with
  | nil => trivial
  | cons entry rest ih =>
      rw [spanOf_cons] at hcell
      cases entry with
      | none =>
          simp only [Option.elim_none] at hcell
          refine ⟨?_, ih h.2 (fun position hlow hhigh =>
            hcell position (by omega) (by omega))⟩
          rw [hoffset, Storage.bytes_congr_at (fun position hlow hhigh =>
            hcell position hlow (by omega))]
          exact h.1
      | some entry =>
          simp only [Option.elim_some] at hcell
          refine ⟨?_, ih h.2 (fun position hlow hhigh =>
            hcell position (by omega) (by omega))⟩
          rw [hoffset, Storage.bytes_congr_at (fun position hlow hhigh =>
            hcell position hlow (by omega))]
          exact h.1

theorem mem_liveFrom {soff soff' : ℕ} {entries : List (Option TypeEntry)}
    {entry : TypeEntry} (hmem : (soff', entry) ∈ liveFrom soff entries) :
    ∃ before after, entries = before ++ some entry :: after ∧
      soff' = soff + spanOf before := by
  induction entries generalizing soff with
  | nil => simp [liveFrom] at hmem
  | cons first rest ih =>
      cases first with
      | none =>
          obtain ⟨before, after, hsplit, hsoff⟩ := ih hmem
          refine ⟨none :: before, after, by rw [hsplit, List.cons_append], ?_⟩
          rw [hsoff, spanOf_cons, ← Nat.add_assoc]
          rfl
      | some first =>
          rcases List.mem_cons.mp hmem with hfirst | hrest
          · rw [Prod.mk.injEq] at hfirst
            exact ⟨[], rest, by rw [hfirst.2, List.nil_append],
              by simp [hfirst.1]⟩
          · obtain ⟨before, after, hsplit, hsoff⟩ := ih hrest
            refine ⟨some first :: before, after,
              by rw [hsplit, List.cons_append], ?_⟩
            rw [hsoff, spanOf_cons, ← Nat.add_assoc]
            rfl

structure TypesLayout (sect : Sect) (entries : List (Option TypeEntry)) :
    Prop where
  lip : sect.head.lstItmPtr = 32 + spanOf entries
  lip_le : sect.head.lstItmPtr ≤ sect.head.fstRecPtr
  frp_le : sect.head.fstRecPtr ≤ 8192
  free : sect.head.freeSpace =
    sect.head.fstRecPtr - sect.head.lstItmPtr
  slots : SlotsAt sect 32 entries
  record : ∀ {soff entry}, (soff, entry) ∈ liveFrom 32 entries →
    sect.file.bytes (sect.head.fileOffset + entry.start)
      (typeRecSz entry.type) = entry.record
  inside : ∀ {soff entry}, (soff, entry) ∈ liveFrom 32 entries →
    sect.head.fstRecPtr ≤ entry.start
  apart : (liveFrom 32 entries).Pairwise (fun first second =>
    second.2.stop ≤ first.2.start)
  size_slots : sect.head.fileOffset + sect.head.lstItmPtr ≤ sect.file.size
  size_records : sect.head.fstRecPtr < 8192 →
    sect.head.fileOffset + 8192 ≤ sect.file.size

section Layout

variable {sect sect' : Sect} {entries : List (Option TypeEntry)}

theorem TypesLayout.frame (h : TypesLayout sect entries)
    (hhead : sect'.head = sect.head)
    (hcell : ∀ position, 32 ≤ position → position < 8192 →
      sect'.file.cell (sect.head.fileOffset + position) =
        sect.file.cell (sect.head.fileOffset + position))
    (hsize : sect.file.size ≤ sect'.file.size) :
    TypesLayout sect' entries := by
  have hlip := h.lip
  have hlipLe := h.lip_le
  have hfrpLe := h.frp_le
  constructor
  · rw [hhead]
    exact hlip
  · rw [hhead]
    exact hlipLe
  · rw [hhead]
    exact hfrpLe
  · rw [hhead]
    exact h.free
  · exact h.slots.congr (by rw [hhead])
      (fun position hlow hhigh => hcell position hlow (by omega))
  · intro soff entry hmem
    have hin := h.inside hmem
    have hadd := entry.start_add
    have hstop := entry.stop_le
    rw [hhead, Storage.bytes_congr_at (fun position hlow hhigh =>
      hcell position (by omega) (by omega))]
    exact h.record hmem
  · rw [hhead]
    exact h.inside
  · exact h.apart
  · rw [hhead]
    exact h.size_slots.trans hsize
  · intro hlt
    rw [hhead] at hlt ⊢
    exact (h.size_records hlt).trans hsize

theorem TypesLayout.quiet (h : TypesLayout sect entries)
    (hquiet : sect.Quiet sect') : TypesLayout sect' entries :=
  h.frame hquiet.head (fun _ _ _ => congrFun hquiet.cell _)
    hquiet.size.ge

theorem TypesLayout.slotsAt_of_mem (h : TypesLayout sect entries)
    {soff : ℕ} {entry : TypeEntry}
    (hmem : (soff, entry) ∈ liveFrom 32 entries) :
    32 ≤ soff ∧ soff + entry.span ≤ sect.head.lstItmPtr ∧
      sect.file.bytes (sect.head.fileOffset + soff) entry.span =
        entry.slots := by
  obtain ⟨before, after, hsplit, hsoff⟩ := mem_liveFrom hmem
  have hslots := h.slots
  have hlip := h.lip
  rw [hsplit] at hslots
  rw [hsplit, spanOf_append, spanOf_cons, Option.elim_some] at hlip
  obtain ⟨-, hrest⟩ := slotsAt_append.mp hslots
  rw [← hsoff] at hrest
  exact ⟨by omega, by omega, hrest.1⟩

end Layout

end NosqlDbms
