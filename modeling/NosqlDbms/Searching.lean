import NosqlDbms.FailedCalls
import NosqlDbms.FileTypes
import Mathlib.Tactic

/-!
# Searching a file with contents

A search keeps the contents of all sections, so what it reads at the offset of
a node is the node, and at that of a type its name.
-/

namespace NosqlDbms

open Prog

/-! ## The header of a section is written again -/

/-- Nothing but the header of the section may have been written. -/
structure Sect.Reheaded (sect sect' : Sect) : Prop where
  head : sect'.head = sect.head
  confined : Storage.Confined sect.head.fileOffset
    (sect.head.fileOffset + 32) sect.file sect'.file

theorem Sect.Reheaded.refl (sect : Sect) : sect.Reheaded sect :=
  ⟨rfl, .refl⟩

theorem Sect.keptByReads_reheaded (sect : Sect) :
    Sect.KeptByReads sect.Reheaded where
  read := by
    intro soff size
    apply yields_of_final
    intro middle sect' h hfinal
    have hquiet := Sect.quiet_of_shown
      (keeps_sectHeadRead soff size middle sect' hfinal)
    refine ⟨hquiet.head.trans h.head, ?_, ?_⟩
    · intro index hout
      rw [hquiet.cell]
      exact h.confined.cell index hout
    · rw [hquiet.size]
      exact h.confined.size_le
  sync := by
    apply yields_of_final
    intro middle sect' h hfinal
    rw [sectHeadSync_apply, Outcome.final_ok, Option.some.injEq] at hfinal
    rw [← hfinal]
    refine ⟨h.head, h.confined.trans ?_⟩
    rw [← h.head]
    refine ⟨fun index hout => ?_, le_max_left _ _⟩
    apply Storage.cell_write_of_out
    rw [SectHead.length_bytes, sizeofSectHeadEntity]
    omega

section Search

variable {file : File} {contents : Contents}

theorem File.Holds.reheaded {head : SectHead} {sect' : Sect} {index : ℕ}
    {kind : SectKind} (h : file.Holds contents.Spelled)
    (hhead : file.headAt kind index = some head)
    (hreheaded : Sect.Reheaded ⟨head, file.storage⟩ sect') :
    (file.putSect kind index sect').Holds contents.Spelled := by
  have hout : ∀ position, 32 ≤ position → position < 8192 →
      sect'.file.cell (head.fileOffset + position) =
        file.storage.cell (head.fileOffset + position) := by
    intro position hlow _
    apply hreheaded.confined.cell
    right
    simp only
    omega
  have hconfined : Storage.Confined head.fileOffset
      (head.fileOffset + 8192) file.storage sect'.file := by
    refine ⟨fun position hposition => ?_, hreheaded.confined.size_le⟩
    apply hreheaded.confined.cell
    simp only
    omega
  apply h.putSect contents.local_spelled hhead
    (congrArg SectHead.fileOffset hreheaded.head) hconfined
  · have hsect := h.sect hhead
    cases kind with
    | extents =>
        exact Layout.frame hsect hreheaded.head hout
          hreheaded.confined.size_le
    | types =>
        exact TypesLayout.frame hsect hreheaded.head hout
          hreheaded.confined.size_le
  · exact fun _ hsect => hsect

/-- A file with these heads and contents. -/
structure File.SameAs (file : File) (contents : Contents) (file' : File) :
    Prop where
  heads : file'.heads = file.heads
  holds : file'.Holds contents.Spelled

theorem File.SameAs.sects {file' : File} (h : file.SameAs contents file')
    (kind : SectKind) : file'.sects kind = file.sects kind := by
  have hheads := h.heads
  rw [File.heads, File.heads, Prod.mk.injEq, Prod.mk.injEq] at hheads
  cases kind with
  | extents => exact hheads.2.1
  | types => exact hheads.2.2

theorem keptBySearch_sameAs :
    KeptBySearch (file.SameAs contents) := by
  have hcall : ∀ {kind : SectKind} {index : ℕ} {α : Type}
      {call : Prog Sect α},
      (∀ sect : Sect, call.Yields sect.Reheaded (fun _ => True)) →
      (File.onSect kind index call).Yields (file.SameAs contents)
        (fun _ => True) := by
    intro kind index α call hyields
    apply yields_of_putSect
    intro file' head sect' h hhead hfinal
    have hreheaded := ((hyields ⟨head, file'.storage⟩).final
      (.refl _) hfinal).1
    exact ⟨(File.heads_putSect hhead hreheaded.head).trans h.heads,
      h.holds.reheaded hhead hreheaded⟩
  constructor
  · exact fun index soff => hcall (fun sect =>
      sect.keptByReads_reheaded.extRead soff)
  · exact fun index => hcall (fun sect => sect.keptByReads_reheaded.extLoad)
  · exact fun index soff => hcall (fun sect =>
      sect.keptByReads_reheaded.typesReadName soff)

/-! ## What is read -/

theorem fileRead_entity {fuel foff : ℕ} {read : Json × Entity}
    {first : ℕ × Entity × Str × JsonValue} {file file₁ file' : File}
    (hfirst : fileAt .extents foff sectExtRead file = .ok first file₁)
    (hread : fileRead fuel foff file = .ok read file') :
    read.2 = first.2.1 := by
  cases fuel with
  | zero => cases hread
  | succ fuel =>
      rw [fileRead, bind_of_ok hfirst] at hread
      obtain ⟨_, _, -, hread⟩ := bind_eq_ok hread
      obtain ⟨_, _, -, hread⟩ := bind_eq_ok hread
      injection hread with hvalue _
      rw [← hvalue]

theorem File.Holds.read_entity {foff fuel : ℕ} {item : Item} {key : Str}
    {value : JsonValue} {read : Json × Entity} {file' : File}
    (h : file.Holds contents.Spelled)
    (hstores : file.Stores contents foff item)
    (hspells : item.Spells key value)
    (hread : fileRead fuel foff file = .ok read file') :
    read.2 = item.entity := by
  obtain ⟨index, file₁, hfirst, -⟩ := h.read_item hstores hspells
  rw [fileRead_entity hfirst hread]

theorem sectTypesReadName_of_read {soff : ℕ} {type : DocType × ℕ}
    {sect sect' : Sect} (hread : sectTypesRead soff sect = .ok type sect') :
    ∃ sect'', sectTypesReadName soff sect = .ok type.1.name sect'' := by
  obtain ⟨entity, sect₁, hentity, hread⟩ := bind_eq_ok hread
  obtain ⟨name, sect₂, hname, hread⟩ := bind_eq_ok hread
  obtain ⟨attrs, sect₃, -, hread⟩ := bind_eq_ok hread
  injection hread with htype _
  refine ⟨sect₂, ?_⟩
  rw [sectTypesReadName, bind_of_ok hentity, bind_of_ok hname, ← htype]
  rfl

theorem File.Holds.read_type_name {foff : ℕ} {entry : TypeEntry}
    (h : file.Holds contents.Spelled)
    (hentry : file.Catalogued contents foff entry) :
    ∃ file', fileReadTypeName foff file =
      .ok (some entry.type.name) file' := by
  obtain ⟨index, head, soff, hhead, hmem, rfl⟩ := hentry
  obtain ⟨sect', htype, -⟩ := (h.typesLayout hhead).read hmem
  obtain ⟨sect'', hname⟩ := sectTypesReadName_of_read htype
  have hat := h.placed.fileAt_ok hhead (h.live_lt hhead hmem) hname
  refine ⟨file.putSect .types index sect'', ?_⟩
  rw [fileReadTypeName, bind_of_ok (status_of_ok hat)]
  rfl

theorem File.Holds.read_typeName {foff : ℕ} {entry : TypeEntry}
    {name : Option Str} {file' : File} (h : file.Holds contents.Spelled)
    (hentry : file.Catalogued contents foff entry)
    (hread : fileReadTypeName foff file = .ok name file') :
    name = some entry.type.name := by
  obtain ⟨file'', hname⟩ := h.read_type_name hentry
  rw [hread] at hname
  injection hname

end Search

end NosqlDbms
