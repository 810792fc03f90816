import NosqlDbms.ExtentsRun
import NosqlDbms.FileSections
import NosqlDbms.TypesDelete
import Mathlib.Tactic

/-!
# What a file holds

The items of the extents sections and the entries of the types sections.  Seen
through the offsets of the file the items form one heap, `Stores`, and a
document that was written is a tree in this heap.
-/

namespace NosqlDbms

structure Contents where
  exts : ℕ → Items
  cats : ℕ → List (Option TypeEntry)

namespace Contents

/-- Each section has the layout of what it holds. -/
def Spelled (contents : Contents) : SectPred
  | .extents, index, sect => Layout sect (contents.exts index)
  | .types, index, sect => TypesLayout sect (contents.cats index)

theorem local_spelled (contents : Contents) : contents.Spelled.Local := by
  refine ⟨fun {kind index sect file} h hcell hsize => ?_⟩
  cases kind with
  | extents =>
      exact Layout.frame h rfl
        (fun position _ hlt => hcell position hlt) hsize
  | types =>
      exact TypesLayout.frame h rfl
        (fun position _ hlt => hcell position hlt) hsize

def setExt (contents : Contents) (index : ℕ) (items : Items) : Contents :=
  { contents with exts := Function.update contents.exts index items }

def setCat (contents : Contents) (index : ℕ)
    (entries : List (Option TypeEntry)) : Contents :=
  { contents with cats := Function.update contents.cats index entries }

section Set

variable {contents : Contents} {kind : SectKind} {index index' : ℕ}
  {items : Items} {entries : List (Option TypeEntry)} {sect : Sect}

@[simp] theorem exts_setExt_self :
    (contents.setExt index items).exts index = items :=
  Function.update_self ..

theorem exts_setExt_of_ne (hne : index' ≠ index) :
    (contents.setExt index items).exts index' = contents.exts index' :=
  Function.update_of_ne hne ..

@[simp] theorem cats_setCat_self :
    (contents.setCat index entries).cats index = entries :=
  Function.update_self ..

theorem cats_setCat_of_ne (hne : index' ≠ index) :
    (contents.setCat index entries).cats index' = contents.cats index' :=
  Function.update_of_ne hne ..

theorem spelled_setExt_of_ne (hne : (kind, index') ≠ (.extents, index))
    (h : contents.Spelled kind index' sect) :
    (contents.setExt index items).Spelled kind index' sect := by
  cases kind with
  | extents =>
      have hindex : index' ≠ index := fun heq => hne (by rw [heq])
      change Layout sect ((contents.setExt index items).exts index')
      rw [exts_setExt_of_ne hindex]
      exact h
  | types => exact h

theorem spelled_setCat_of_ne (hne : (kind, index') ≠ (.types, index))
    (h : contents.Spelled kind index' sect) :
    (contents.setCat index entries).Spelled kind index' sect := by
  cases kind with
  | extents => exact h
  | types =>
      have hindex : index' ≠ index := fun heq => hne (by rw [heq])
      change TypesLayout sect ((contents.setCat index entries).cats index')
      rw [cats_setCat_of_ne hindex]
      exact h

end Set

end Contents

theorem Sect.fresh_layout (offset : ℕ) (file : Storage) :
    Layout (Sect.fresh offset file) (fun _ => none) := by
  obtain ⟨sect, hctor, hlayout, -, -⟩ :=
    sectExtCtor_spec offset sectHeadNew file
  have heq : sectExtCtor offset ⟨sectHeadNew, file⟩ =
      .ok () (Sect.fresh offset file) := rfl
  rw [heq] at hctor
  injection hctor with _ hsect
  rw [hsect]
  exact hlayout

theorem Sect.fresh_typesLayout (offset : ℕ) (file : Storage) :
    TypesLayout (Sect.fresh offset file) [] where
  lip := rfl
  lip_le := (Sect.fresh_layout offset file).lip_le
  frp_le := le_rfl
  free := rfl
  slots := trivial
  record := fun hmem => absurd hmem List.not_mem_nil
  inside := fun hmem => absurd hmem List.not_mem_nil
  apart := List.Pairwise.nil
  size_slots := (Sect.fresh_layout offset file).size_slots
  size_records := (Sect.fresh_layout offset file).size_records

/-! ## The heap of the file -/

/-- A partial map from the offsets of the file, as a relation. -/
abbrev Heap : Type := ℕ → Item → Prop

def File.Stores (file : File) (contents : Contents) : Heap :=
  fun foff item => ∃ index head soff,
    file.headAt .extents index = some head ∧
      contents.exts index soff = some item ∧
      foff = head.fileOffset + soff

/-- What is in one heap and not in the other. -/
def Heap.added (heap heap' : Heap) : Heap := fun foff item =>
  heap' foff item ∧ ∀ item', ¬ heap foff item'

/-- The tree is stored from `foff` on: the first node has the given dad and
type, and links spell brothers and sons. -/
def Json.Stored (heap : Heap) : Json → ℕ → ℕ → ℕ → Prop
  | .null, _, _, foff => foff = 0
  | .node key value bro son, dad, typePtr, foff =>
      foff ≠ 0 ∧ ∃ item, heap foff item ∧ item.Spells key value ∧
        item.entity.famAddr.dadPtr = dad ∧
        item.entity.typePtr = typePtr ∧
        bro.Stored heap dad 0 item.entity.famAddr.broPtr ∧
        son.Stored heap foff 0 item.entity.famAddr.sonPtr

theorem Json.Stored.mono {heap heap' : Heap} {json : Json}
    {dad typePtr foff : ℕ} (h : json.Stored heap dad typePtr foff)
    (hheap : ∀ foff item, heap foff item → heap' foff item) :
    json.Stored heap' dad typePtr foff := by
  induction json generalizing dad typePtr foff with
  | null => exact h
  | node key value bro son ihBro ihSon =>
      obtain ⟨hne, item, hitem, hspells, hdad, htype, hbro, hson⟩ := h
      exact ⟨hne, item, hheap _ _ hitem, hspells, hdad, htype, ihBro hbro,
        ihSon hson⟩

namespace File

section Stores

variable {file : File} {contents : Contents} {foff : ℕ} {item : Item}
  {index : ℕ} {head : SectHead}

theorem Holds.stores_at (h : file.Holds contents.Spelled)
    (hstores : file.Stores contents foff item)
    (hhead : file.headAt .extents index = some head)
    (hlow : head.fileOffset ≤ foff)
    (hhigh : foff < head.fileOffset + 8192) :
    contents.exts index (foff - head.fileOffset) = some item := by
  obtain ⟨index', head', soff, hhead', hitem, rfl⟩ := hstores
  have hlayout : Layout ⟨head', file.storage⟩ (contents.exts index') :=
    h.sect hhead'
  have hslot := hlayout.border_lt hitem
  by_cases hindex : index' = index
  · subst hindex
    rw [hhead, Option.some.injEq] at hhead'
    subst hhead'
    rw [Nat.add_sub_cancel_left]
    exact hitem
  · have hapart := h.placed.apart hhead' hhead
      (fun heq => hindex (congrArg Prod.snd heq))
    omega

theorem Holds.stores_unique {item' : Item}
    (h : file.Holds contents.Spelled)
    (hstores : file.Stores contents foff item)
    (hstores' : file.Stores contents foff item') : item' = item := by
  obtain ⟨index, head, soff, hhead, hitem, rfl⟩ := hstores
  have hlayout : Layout ⟨head, file.storage⟩ (contents.exts index) :=
    h.sect hhead
  have hslot := hlayout.border_lt hitem
  have hat := h.stores_at hstores' hhead (by omega) (by omega)
  rw [Nat.add_sub_cancel_left, hitem, Option.some.injEq] at hat
  exact hat.symm

theorem Holds.stores_ne_zero (h : file.Holds contents.Spelled)
    (hstores : file.Stores contents foff item) : foff ≠ 0 := by
  obtain ⟨index, head, soff, hhead, -, rfl⟩ := hstores
  have hlow := h.placed.low hhead
  omega

end Stores

/-! ## Growing contents -/

/-- Nothing stored is lost, and the types sections stay as they are. -/
structure Grows (file : File) (contents : Contents) (file' : File)
    (contents' : Contents) : Prop where
  holds : file'.Holds contents'.Spelled
  cats : contents'.cats = contents.cats
  types : file'.sects .types = file.sects .types
  heads : ∀ {index head}, file.headAt .extents index = some head →
    ∃ head', file'.headAt .extents index = some head' ∧
      head'.fileOffset = head.fileOffset
  stores : ∀ {foff item}, file.Stores contents foff item →
    file'.Stores contents' foff item

namespace Grows

variable {file file' file'' : File} {contents contents' contents'' : Contents}

theorem refl (h : file.Holds contents.Spelled) :
    file.Grows contents file contents :=
  ⟨h, rfl, rfl, fun hhead => ⟨_, hhead, rfl⟩, fun hstores => hstores⟩

theorem trans (h : file.Grows contents file' contents')
    (h' : file'.Grows contents' file'' contents'') :
    file.Grows contents file'' contents'' where
  holds := h'.holds
  cats := h'.cats.trans h.cats
  types := h'.types.trans h.types
  heads := by
    intro index head hhead
    obtain ⟨head', hhead', hoffset'⟩ := h.heads hhead
    obtain ⟨head'', hhead'', hoffset''⟩ := h'.heads hhead'
    exact ⟨head'', hhead'', hoffset''.trans hoffset'⟩
  stores := fun hstores => h'.stores (h.stores hstores)

end Grows

theorem Stores.congr {file file' : File} {contents : Contents}
    {foff : ℕ} {item : Item}
    (hsects : file'.sects .extents = file.sects .extents)
    (h : file.Stores contents foff item) :
    file'.Stores contents foff item := by
  obtain ⟨index, head, soff, hhead, hitem, hfoff⟩ := h
  exact ⟨index, head, soff, by rw [headAt_congr hsects, hhead], hitem, hfoff⟩

theorem Holds.grows_of_sects {file file' : File} {contents : Contents}
    (h : file'.Holds contents.Spelled)
    (hsects : ∀ kind, file'.sects kind = file.sects kind) :
    file.Grows contents file' contents :=
  ⟨h, rfl, hsects .types,
    fun hhead => ⟨_, by rw [headAt_congr (hsects .extents), hhead], rfl⟩,
    fun hstores => hstores.congr (hsects .extents)⟩

end File

end NosqlDbms
