import NosqlDbms.ExtentsRun
import Mathlib.Tactic

/-!
# Deleting everything

Records written one after another into a fresh section and then deleted in any
order.  If no deletion leaves a lowest record behind that begins with a zero
byte, the header ends up as that of a fresh section.
-/

namespace NosqlDbms

/-- What one call of `sect_ext_write` is given. -/
structure ExtentsRecord where
  key : Str
  value : JsonValue
  dad : ℕ
  bro : ℕ
  son : ℕ
  typePtr : ℕ

def ExtentsRecord.bytes (record : ExtentsRecord) : List Byte :=
  jsonValPtr record.value ++ record.key.val

def ExtentsRecord.entity (record : ExtentsRecord) : Entity :=
  entityInit record.key record.value record.dad record.bro record.son
    record.typePtr

/-- Write the records one after another; returns their slots. -/
def sectExtWriteAll : List ExtentsRecord → Prog Sect (List ℕ)
  | [] => pure []
  | record :: rest => do
      let written ← sectExtWrite record.key (jsonValPtr record.value)
        record.entity
      let slots ← sectExtWriteAll rest
      return written.1 :: slots

def sectExtDeleteAll : List ℕ → Prog Sect Unit
  | [] => pure ()
  | soff :: rest => do
      let _ ← sectExtDelete soff
      sectExtDeleteAll rest

/-- The first byte of the lowest record once the slots `gone` are deleted.
`stored` lists slots and records in the order of writing. -/
def lowestByte (stored : List (ℕ × List Byte)) (gone : List ℕ) :
    Option Byte :=
  ((stored.filter (fun entry =>
    !gone.contains entry.1 && !entry.2.isEmpty)).getLast?).bind
      (fun entry => entry.2.head?)

/-- No deletion but the last ones leaves a record behind that begins with a
zero byte and is the lowest one. -/
def KeepsBorders (stored : List (ℕ × List Byte)) (order : List ℕ) : Prop :=
  ∀ gone rest, order = gone ++ rest → gone ≠ [] →
    lowestByte stored gone ≠ some 0

/-! ## The items after the writes -/

/-- `stored` spells the items, in the order of their slots. -/
structure Items.Stored (items : Items) (stored : List (ℕ × List Byte)) :
    Prop where
  sorted : stored.Pairwise (fun first second => first.1 < second.1)
  sound : ∀ entry ∈ stored,
    ∃ item, items entry.1 = some item ∧ item.record = entry.2
  complete : ∀ soff item, items soff = some item →
    (soff, item.record) ∈ stored

theorem Items.Stored.snoc {items : Items} {stored : List (ℕ × List Byte)}
    {soff : ℕ} {item : Item} (h : items.Stored stored)
    (hfresh : ∀ soff' item', items soff' = some item' → soff' < soff) :
    (items.insert soff item).Stored (stored ++ [(soff, item.record)]) := by
  have hbelow : ∀ entry ∈ stored, entry.1 < soff := by
    intro entry hmem
    obtain ⟨item', hitem', -⟩ := h.sound entry hmem
    exact hfresh entry.1 item' hitem'
  constructor
  · rw [List.pairwise_append]
    refine ⟨h.sorted, List.pairwise_singleton _ _, ?_⟩
    intro entry hmem last hlast
    rw [List.mem_singleton.mp hlast]
    exact hbelow entry hmem
  · intro entry hmem
    rcases List.mem_append.mp hmem with hold | hnew
    · obtain ⟨item', hitem', hrecord⟩ := h.sound entry hold
      have hne : entry.1 ≠ soff := (hbelow entry hold).ne
      exact ⟨item', by rw [Items.insert_of_ne hne]; exact hitem', hrecord⟩
    · rw [List.mem_singleton.mp hnew]
      exact ⟨item, Items.insert_self _ _ _, rfl⟩
  · intro soff' item' hitem'
    rcases Items.insert_eq_some.mp hitem' with ⟨rfl, rfl⟩ | ⟨-, hold⟩
    · exact List.mem_append_right _ (List.mem_singleton_self _)
    · exact List.mem_append_left _ (h.complete soff' item' hold)

theorem sectExtWriteAll_spec {records : List ExtentsRecord} {sect sect' : Sect}
    {items : Items} {stored : List (ℕ × List Byte)} {slots : List ℕ}
    (h : Layout sect items) (hstored : items.Stored stored)
    (hwrite : sectExtWriteAll records sect = .ok slots sect') :
    ∃ items', Layout sect' items' ∧
      items'.Stored (stored ++ slots.zip (records.map (·.bytes))) ∧
      slots.length = records.length ∧
      sect'.head.fileOffset = sect.head.fileOffset := by
  induction records generalizing sect items stored slots with
  | nil =>
      injection hwrite with hslots hsect
      subst hslots hsect
      exact ⟨items, h, by simpa using hstored, rfl, rfl⟩
  | cons record rest ih =>
      rw [sectExtWriteAll] at hwrite
      obtain ⟨written, next, hfirst, hwrite⟩ := Prog.bind_eq_ok hwrite
      obtain ⟨slots', last, hrest, hwrite⟩ := Prog.bind_eq_ok hwrite
      injection hwrite with hslots hsect
      subst hslots hsect
      have hlength : (jsonValPtr record.value).length =
          jsonValSize record.value := length_jsonValPtr record.value
      have hfree : 80 + record.key.cnt + (jsonValPtr record.value).length ≤
          sect.head.freeSpace := by
        by_contra hlt
        rw [sectExtWrite_refused (by omega)] at hfirst
        cases hfirst
      obtain ⟨item, sect₁, hcall, -, hrecord, hlayout, -, hhead⟩ :=
        h.write record.entity rfl hlength.symm hfree
      rw [hcall] at hfirst
      injection hfirst with hwritten hnext
      subst hwritten hnext
      have hfresh : ∀ soff' item', items soff' = some item' →
          soff' < sect.head.lstItmPtr := by
        intro soff' item' hitem'
        have hslot := h.slot hitem'
        omega
      obtain ⟨items', hlayout', hstored', hlength', hoffset⟩ :=
        ih hlayout (hstored.snoc hfresh) hrest
      refine ⟨items', hlayout', ?_, by simp [hlength'], ?_⟩
      · rw [hrecord] at hstored'
        simpa [ExtentsRecord.bytes] using hstored'
      · rw [hoffset, hhead]
        rfl

/-! ## Deleting them -/

theorem Items.Stored.borderSafe {items : Items}
    {stored : List (ℕ × List Byte)} {gone : List ℕ}
    (h : items.Stored stored) (hbyte : lowestByte stored gone ≠ some 0) :
    (items.without gone).BorderSafe := by
  rintro soff item ⟨hwithout, hne, hlowest⟩ hzero
  apply hbyte
  obtain ⟨hout, hitem⟩ := Items.without_eq_some.mp hwithout
  have hkept : ∀ {entry : ℕ × List Byte}, entry ∈ stored.filter
      (fun entry => !gone.contains entry.1 && !entry.2.isEmpty) ↔
      entry ∈ stored ∧ entry.1 ∉ gone ∧ entry.2 ≠ [] := by
    intro entry
    simp [List.mem_filter]
  have hmem : (soff, item.record) ∈ stored.filter
      (fun entry => !gone.contains entry.1 && !entry.2.isEmpty) :=
    hkept.mpr ⟨h.complete soff item hitem, hout, hne⟩
  have hsorted := h.sorted.filter
    (fun entry => !gone.contains entry.1 && !entry.2.isEmpty)
  obtain ⟨front, last, hsplit⟩ : ∃ front last, stored.filter
      (fun entry => !gone.contains entry.1 && !entry.2.isEmpty) =
        front ++ [last] :=
    ⟨_, _, (List.dropLast_append_getLast (List.ne_nil_of_mem hmem)).symm⟩
  rw [hsplit] at hmem hsorted
  -- Whatever comes after the border item would own a lower record.
  have hlast : last = (soff, item.record) := by
    rcases List.mem_append.mp hmem with hfront | hend
    · have hlt : soff < last.1 :=
        (List.pairwise_append.mp hsorted).2.2 _ hfront last (by simp)
      have hlastMem : last ∈ stored.filter
          (fun entry => !gone.contains entry.1 && !entry.2.isEmpty) := by
        rw [hsplit]
        simp
      obtain ⟨hstored, hout', hne'⟩ := hkept.mp hlastMem
      obtain ⟨item', hitem', hrecord'⟩ := h.sound last hstored
      have hempty := hlowest last.1 item' hlt
        (Items.without_eq_some.mpr ⟨hout', hitem'⟩)
      rw [hrecord'] at hempty
      exact absurd hempty hne'
    · exact (List.mem_singleton.mp hend).symm
  rw [lowestByte, hsplit, List.getLast?_concat, hlast]
  exact hzero

theorem Items.without_append_singleton (items : Items) (gone : List ℕ)
    (soff : ℕ) :
    items.without (gone ++ [soff]) = (items.without gone).erase soff := by
  funext soff'
  by_cases heq : soff' = soff
  · simp [Items.without, heq, Items.erase_self]
  · simp [Items.without, Items.erase_of_ne heq, heq]

theorem sectExtDeleteAll_spec {order gone : List ℕ} {sect : Sect}
    {items : Items} (h : Layout sect (items.without gone))
    (hlive : ∀ soff ∈ order, ∃ item, items soff = some item)
    (hnodup : (gone ++ order).Nodup)
    (hsafe : ∀ first rest, order = first ++ rest → first ≠ [] →
      (items.without (gone ++ first)).BorderSafe) :
    ∃ sect', sectExtDeleteAll order sect = .ok () sect' ∧
      Layout sect' (items.without (gone ++ order)) ∧
      sect'.head.fileOffset = sect.head.fileOffset := by
  induction order generalizing sect gone with
  | nil => exact ⟨sect, rfl, by simpa using h, rfl⟩
  | cons soff rest ih =>
      obtain ⟨item, hitem⟩ := hlive soff (by simp)
      have hout : soff ∉ gone := by
        intro hmem
        exact (List.nodup_append.mp hnodup).2.2 soff hmem soff (by simp) rfl
      have hfirst := hsafe [soff] rest rfl (by simp)
      rw [Items.without_append_singleton] at hfirst
      obtain ⟨next, hdelete, hlayout, hoffset, -⟩ := h.delete
        (Items.without_eq_some.mpr ⟨hout, hitem⟩) hfirst
      rw [← Items.without_append_singleton] at hlayout
      obtain ⟨sect', hrest, hlayout', hoffset'⟩ :=
        ih hlayout (fun soff' hmem => hlive soff' (by simp [hmem]))
          (by simpa using hnodup) (by
            intro first rest' hsplit hne
            have hsafe' := hsafe (soff :: first) rest'
              (by rw [hsplit]; rfl) (by simp)
            simpa using hsafe')
      refine ⟨sect', ?_, by simpa using hlayout', hoffset'.trans hoffset⟩
      rw [sectExtDeleteAll, Prog.bind_of_ok hdelete, hrest]

theorem Layout.of_empty {sect : Sect} {items : Items}
    (h : Layout sect items) (hempty : ∀ soff, items soff = none) :
    sect.head.lstItmPtr = sizeofSectHeadEntity ∧
      sect.head.fstRecPtr = SECTION_SIZE ∧
      sect.head.freeSpace = SECTION_SIZE - sizeofSectHeadEntity := by
  have hlip : sect.head.lstItmPtr = 32 := by
    rcases h.border with hbottom | ⟨item, hitem⟩
    · exact hbottom
    · rw [hempty] at hitem
      cases hitem
  have hfrp : sect.head.fstRecPtr = 8192 := by
    rcases h.tight with htop | ⟨soff, item, hitem, -⟩
    · exact htop
    · rw [hempty] at hitem
      cases hitem
  refine ⟨hlip, hfrp, ?_⟩
  rw [h.free, hlip, hfrp]
  rfl

/-- Every deletion returns `OK` and the borders end up as at the start, when
no deletion leaves a lowest record behind that begins with a zero byte. -/
theorem sectExtDeleteAll_fresh {offset : ℕ} {head₀ : SectHead}
    {file₀ : Storage} {fresh full : Sect} {records : List ExtentsRecord}
    {slots order : List ℕ}
    (hctor : sectExtCtor offset ⟨head₀, file₀⟩ = .ok () fresh)
    (hwrite : sectExtWriteAll records fresh = .ok slots full)
    (horder : order.Perm slots)
    (hkeeps : KeepsBorders (slots.zip (records.map (·.bytes))) order) :
    ∃ sect, sectExtDeleteAll order full = .ok () sect ∧
      sect.head.lstItmPtr = sizeofSectHeadEntity ∧
      sect.head.fstRecPtr = SECTION_SIZE ∧
      sect.head.freeSpace = SECTION_SIZE - sizeofSectHeadEntity := by
  obtain ⟨sect₀, hctor', hlayout₀, -, -⟩ :=
    sectExtCtor_spec offset head₀ file₀
  rw [hctor'] at hctor
  injection hctor with _ hfresh
  subst hfresh
  have hstored₀ : Items.Stored (fun _ => none) [] :=
    ⟨List.Pairwise.nil, by simp, by simp⟩
  obtain ⟨items, hlayout, hstored, hlength, -⟩ :=
    sectExtWriteAll_spec hlayout₀ hstored₀ hwrite
  rw [List.nil_append] at hstored
  have hfst : (slots.zip (records.map (·.bytes))).map Prod.fst = slots :=
    List.map_fst_zip (by simp [hlength])
  have hslots : slots.Nodup := by
    have hsorted : slots.Pairwise (· < ·) := by
      rw [← hfst, List.pairwise_map]
      exact hstored.sorted
    exact hsorted.imp (fun hlt => hlt.ne)
  have hlive : ∀ soff ∈ order, ∃ item, items soff = some item := by
    intro soff hmem
    have hmem' : soff ∈ (slots.zip (records.map (·.bytes))).map Prod.fst := by
      rw [hfst]
      exact horder.mem_iff.mp hmem
    obtain ⟨entry, hentry, rfl⟩ := List.mem_map.mp hmem'
    obtain ⟨item, hitem, -⟩ := hstored.sound entry hentry
    exact ⟨item, hitem⟩
  obtain ⟨sect, hdelete, hlayout', -⟩ := sectExtDeleteAll_spec
    (by rw [Items.without_nil]; exact hlayout) hlive
    (by simpa using horder.nodup_iff.mpr hslots)
    (fun first rest hsplit hne => by
      simpa using hstored.borderSafe (hkeeps first rest hsplit hne))
  refine ⟨sect, hdelete, hlayout'.of_empty ?_⟩
  intro soff
  rw [List.nil_append]
  cases hsoff : items.without order soff with
  | none => rfl
  | some item =>
      obtain ⟨hout, hitem⟩ := Items.without_eq_some.mp hsoff
      have hmem : soff ∈ (slots.zip (records.map (·.bytes))).map Prod.fst :=
        List.mem_map.mpr ⟨_, hstored.complete soff item hitem, rfl⟩
      rw [hfst] at hmem
      exact absurd (horder.mem_iff.mpr hmem) hout

def twoSections : Sect where
  head := ⟨0, 0, 0, 0, 0⟩
  file := Storage.empty.write 8200
    (SectHead.bytes ⟨8160, 0, 32, 8192, 8200⟩)

def freshOfTwo : Sect :=
  Sect.synced { twoSections with head := ⟨8160, 0, 32, 8192, 8⟩ }

def exampleRecord (key : List Byte) (value : JsonValue) : ExtentsRecord :=
  ⟨stringCtor key, value, 0, 0, 0, 0⟩

theorem sectExtDeleteAll_fresh_two : ∃ full sect : Sect,
    sectExtWriteAll [exampleRecord [97] (.int32 1),
        exampleRecord [98] (.int32 2)] freshOfTwo = .ok [32, 112] full ∧
      sectExtDeleteAll [32, 112] full = .ok () sect ∧
      sect.head.fstRecPtr = SECTION_SIZE := by
  obtain ⟨slots, full, hwrite, hslots⟩ := Outcome.exists_of_holds
    (show (sectExtWriteAll [exampleRecord [97] (.int32 1),
      exampleRecord [98] (.int32 2)] freshOfTwo).holds
        (fun slots _ => slots == [32, 112]) = true by decide_cbv)
  rw [beq_iff_eq] at hslots
  subst hslots
  have hfirst : lowestByte ([32, 112].zip ([exampleRecord [97] (.int32 1),
      exampleRecord [98] (.int32 2)].map (·.bytes))) [32] ≠ some 0 := by
    decide_cbv
  have hboth : lowestByte ([32, 112].zip ([exampleRecord [97] (.int32 1),
      exampleRecord [98] (.int32 2)].map (·.bytes))) [32, 112] ≠
        some 0 := by
    decide_cbv
  have hkeeps : KeepsBorders ([32, 112].zip ([exampleRecord [97] (.int32 1),
      exampleRecord [98] (.int32 2)].map (·.bytes))) [32, 112] := by
    intro gone rest hsplit hne
    rcases gone with _ | ⟨first, _ | ⟨second, third⟩⟩
    · exact absurd rfl hne
    · rw [List.cons_append, List.cons.injEq] at hsplit
      exact hsplit.1 ▸ hfirst
    · simp only [List.cons_append, List.cons.injEq] at hsplit
      obtain ⟨rfl, rfl, hnil⟩ := hsplit
      rw [(List.append_eq_nil_iff.mp hnil.symm).1]
      exact hboth
  obtain ⟨sect, hdelete, -, hfrp, -⟩ := sectExtDeleteAll_fresh
    (show sectExtCtor 8 twoSections = .ok () freshOfTwo from rfl) hwrite
    (List.Perm.refl [32, 112]) hkeeps
  exact ⟨full, sect, hwrite, hdelete, hfrp⟩

/-- The scan enters the record of the second item after the deletion of the
first one, which is empty; the deletion of the second one then moves the
record border past the end of the section. -/
theorem sectExtDeleteAll_not_fresh : ¬ ∀ (offset : ℕ) (head₀ : SectHead)
    (file₀ : Storage) (fresh full : Sect) (records : List ExtentsRecord)
    (slots order : List ℕ),
    sectExtCtor offset ⟨head₀, file₀⟩ = .ok () fresh →
    sectExtWriteAll records fresh = .ok slots full → order.Perm slots →
    ∃ sect, sectExtDeleteAll order full = .ok () sect ∧
      sect.head.lstItmPtr = sizeofSectHeadEntity ∧
      sect.head.fstRecPtr = SECTION_SIZE ∧
      sect.head.freeSpace = SECTION_SIZE - sizeofSectHeadEntity := by
  intro hall
  obtain ⟨slots, full, hwrite, htest⟩ := Outcome.exists_of_holds
    (show (sectExtWriteAll [exampleRecord [] (.string (stringCtor [])),
      exampleRecord [98] (.int32 0)] freshOfTwo).holds
        (fun slots full => slots == [32, 112] &&
          (sectExtDeleteAll [32, 112] full).holds
            (fun _ sect => sect.head.fstRecPtr == 8208)) = true by
      decide_cbv)
  rw [Bool.and_eq_true, beq_iff_eq] at htest
  obtain ⟨rfl, hdelete⟩ := htest
  obtain ⟨_, sect, hreturn, hfrp⟩ := Outcome.exists_of_holds hdelete
  obtain ⟨sect', hdelete', -, hfrp', -⟩ := hall 8 twoSections.head
    twoSections.file freshOfTwo full _ [32, 112] [32, 112] rfl hwrite
    (List.Perm.refl _)
  rw [hreturn] at hdelete'
  injection hdelete' with _ hsame
  rw [← hsame, beq_iff_eq.mp hfrp] at hfrp'
  simp only [SECTION_SIZE] at hfrp'
  omega

end NosqlDbms
