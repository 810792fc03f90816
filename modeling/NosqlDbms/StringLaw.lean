import NosqlDbms.HeadSynced
import NosqlDbms.Network
import Mathlib.Tactic

/-!
# Counted strings, stored and compared

A string as `string_ctor` builds it, as it comes back from an extents section
and as `string_cmp` orders it.  What a section returns is what was stored, and
the order is one; the bytes are lost before, where `strncpy` meets a NUL.
-/

namespace NosqlDbms

/-! ## Reading what was just written -/

theorem writtenSect_spelt {sect : Sect} {key : Str} {value : JsonValue}
    {entity : Entity} (hbordered : sect.head.Bordered)
    (hfit : sect.head.lstItmPtr + 80 + key.cnt + jsonValSize value ≤
      sect.head.fstRecPtr)
    (htype : entity.type = value.type.code)
    (hkeySize : entity.keySize = key.cnt)
    (hvalSize : entity.valSize = jsonValSize value)
    (hkeyPtr : entity.keyPtr = sect.head.fstRecPtr - key.cnt)
    (hvalPtr : entity.valPtr =
      sect.head.fstRecPtr - key.cnt - jsonValSize value) :
    (writtenSect sect key (jsonValPtr value) entity).Spelt
      sect.head.lstItmPtr entity key value := by
  have hlow := hbordered.lip_ge
  have hfrp := hbordered.frp_le
  simp only [sizeofSectHeadEntity, SECTION_SIZE] at hlow hfrp
  have hval := length_jsonValPtr value
  have hcnt : key.val.length = key.cnt := rfl
  have hslot := @writtenSect_size_slot sect key (jsonValPtr value) entity
  have hrecord : jsonValPtr value ++ key.val ≠ [] →
      sect.head.fileOffset + sect.head.fstRecPtr ≤
        (writtenSect sect key (jsonValPtr value) entity).file.size :=
    writtenSect_size_record (by omega)
  have hrecordSize : 0 < entity.keySize + entity.valSize →
      sect.head.fileOffset + sect.head.fstRecPtr ≤
        (writtenSect sect key (jsonValPtr value) entity).file.size := by
    intro hpos
    apply hrecord
    intro hnil
    have hlength := congrArg List.length hnil
    rw [List.length_append, List.length_nil] at hlength
    omega
  have hbytes := @writtenSect_record sect key (jsonValPtr value) entity hlow
    (by omega)
  rw [Storage.bytes_add] at hbytes
  obtain ⟨hvalBytes, hkeyBytes⟩ := List.append_inj hbytes (by simp)
  constructor
  · omega
  · exact hslot
  · exact writtenSect_slot hlow
  · exact htype
  · omega
  · intro hpos
    have hsize := hrecordSize (by omega)
    change sect.head.fileOffset + entity.keyPtr + entity.keySize ≤ _
    omega
  · have hoffset : sect.head.fileOffset +
        (sect.head.fstRecPtr - key.cnt - (jsonValPtr value).length) +
          (jsonValPtr value).length =
        sect.head.fileOffset + entity.keyPtr := by omega
    rw [hoffset] at hkeyBytes
    rw [hkeySize]
    exact hkeyBytes
  · omega
  · intro hpos
    have hsize := hrecordSize (by omega)
    change sect.head.fileOffset + entity.valPtr + entity.valSize ≤ _
    omega
  · rw [hvalSize, ← hval, hvalPtr, ← hval]
    exact hvalBytes

/-- What a write in a section with its borders in order has stored is read
back as it was given. -/
theorem sectExtRead_sectExtWrite {sect written : Sect} {key : Str}
    {value : JsonValue} {dad bro son typePtr soff : ℕ} {entity : Entity}
    (hbalanced : sect.head.Balanced 80) (hbordered : sect.head.Bordered)
    (hwrite : sectExtWrite key (jsonValPtr value)
      (entityInit key value dad bro son typePtr) sect =
        .ok (soff, entity) written) :
    ∃ read, sectExtRead soff written = .ok (entity, key, value) read := by
  have hlow := hbordered.lip_ge
  have hle := hbordered.lip_le
  have hfrp := hbordered.frp_le
  simp only [sizeofSectHeadEntity, SECTION_SIZE] at hlow hfrp
  have hfree := hbalanced.free_eq hle
  have hval := length_jsonValPtr value
  by_cases hfit : 80 + key.cnt + (jsonValPtr value).length ≤
      sect.head.freeSpace
  · rw [sectExtWrite_of_fit (by omega) (by omega) hfrp hfit
      hbalanced.free_lt] at hwrite
    obtain ⟨hpair, rfl⟩ := Outcome.ok.inj hwrite
    obtain ⟨rfl, rfl⟩ := Prod.mk.inj hpair
    have hspelt := @writtenSect_spelt sect key value
      ((entityInit key value dad bro son typePtr).placed sect.head key
        (jsonValPtr value)) hbordered (by omega) rfl rfl rfl rfl
      (by rw [← hval]; rfl)
    obtain ⟨read, hread, -⟩ := hspelt.read
    exact ⟨_, hread⟩
  · rw [sectExtWrite_refused (by omega)] at hwrite
    cases hwrite

/-! ## The law -/

/-- A string with the bytes, stored as a key in any section with its borders
in order, is read back with the bytes. -/
def KeyKept (chars : List Byte) : Prop :=
  ∀ {sect written : Sect} {value : JsonValue}
    {dad bro son typePtr soff : ℕ} {entity : Entity},
    sect.head.Balanced 80 → sect.head.Bordered →
    sectExtWrite (stringCtor chars) (jsonValPtr value)
      (entityInit (stringCtor chars) value dad bro son typePtr) sect =
        .ok (soff, entity) written →
    ∃ key read, sectExtRead soff written = .ok (entity, key, value) read ∧
      key.val = chars

/-- The same, stored as a value. -/
def ValueKept (chars : List Byte) : Prop :=
  ∀ {sect written : Sect} {key : Str} {dad bro son typePtr soff : ℕ}
    {entity : Entity},
    sect.head.Balanced 80 → sect.head.Bordered →
    sectExtWrite key (jsonValPtr (.string (stringCtor chars)))
      (entityInit key (.string (stringCtor chars)) dad bro son typePtr)
        sect = .ok (soff, entity) written →
    ∃ str read,
      sectExtRead soff written = .ok (entity, key, .string str) read ∧
        str.val = chars

/-- The strings built from a family of byte sequences are exact, also behind a
section, and ordered. -/
structure StringLaw (family : Set (List Byte)) : Prop where
  exact : ∀ chars ∈ family, (stringCtor chars).val = chars
  key : ∀ chars ∈ family, KeyKept chars
  value : ∀ chars ∈ family, ValueKept chars
  swap : ∀ first ∈ family, ∀ second ∈ family,
    stringCmp (stringCtor first) (stringCtor second) < 0 ↔
      0 < stringCmp (stringCtor second) (stringCtor first)
  trans : ∀ first ∈ family, ∀ second ∈ family, ∀ third ∈ family,
    stringCmp (stringCtor first) (stringCtor second) ≤ 0 →
    stringCmp (stringCtor second) (stringCtor third) ≤ 0 →
      stringCmp (stringCtor first) (stringCtor third) ≤ 0
  total : ∀ first ∈ family, ∀ second ∈ family,
    stringCmp (stringCtor first) (stringCtor second) ≤ 0 ∨
      stringCmp (stringCtor second) (stringCtor first) ≤ 0
  zero : ∀ first ∈ family, ∀ second ∈ family,
    stringCmp (stringCtor first) (stringCtor second) = 0 ↔ first = second

theorem keyKept_of_exact {chars : List Byte}
    (hexact : (stringCtor chars).val = chars) : KeyKept chars := by
  intro sect written value dad bro son typePtr soff entity hbalanced
    hbordered hwrite
  obtain ⟨read, hread⟩ :=
    sectExtRead_sectExtWrite hbalanced hbordered hwrite
  exact ⟨_, read, hread, hexact⟩

theorem valueKept_of_exact {chars : List Byte}
    (hexact : (stringCtor chars).val = chars) : ValueKept chars := by
  intro sect written key dad bro son typePtr soff entity hbalanced
    hbordered hwrite
  obtain ⟨read, hread⟩ :=
    sectExtRead_sectExtWrite hbalanced hbordered hwrite
  exact ⟨_, read, hread, hexact⟩

/-- The law holds of the families without a byte to cut off. -/
theorem stringLaw_iff (family : Set (List Byte)) :
    StringLaw family ↔ ∀ chars ∈ family, Network.CutsNothing chars := by
  constructor
  · intro h chars hmem
    exact (Network.strncpy_eq_self_iff chars).mp (h.exact chars hmem)
  · intro h
    have hexact : ∀ chars ∈ family, (stringCtor chars).val = chars :=
      fun chars hmem => (Network.strncpy_eq_self_iff chars).mpr (h chars hmem)
    constructor
    · exact hexact
    · exact fun chars hmem => keyKept_of_exact (hexact chars hmem)
    · exact fun chars hmem => valueKept_of_exact (hexact chars hmem)
    · exact fun first _ second _ => stringCmp_swaps _ _
    · exact fun first _ second _ third _ => stringCmp_trans _ _ _
    · exact fun first _ second _ => stringCmp_swaps.total _ _
    · intro first hfirst second hsecond
      rw [stringCmp_eq_zero_iff]
      constructor
      · intro heq
        rw [← hexact first hfirst, heq, hexact second hsecond]
      · rintro rfl
        rfl

/-- The string built from `a`, NUL and `b` has lost the `b`. -/
theorem stringLaw_fails : ¬ StringLaw Set.univ := by
  intro h
  have hexact := h.exact [97, 0, 98] (Set.mem_univ _)
  exact absurd hexact (by decide)

end NosqlDbms
