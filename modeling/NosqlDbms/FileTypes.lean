import NosqlDbms.FileWrite
import Mathlib.Tactic

/-!
# The types of a file

Adding, finding, deleting and reading types, seen through the offsets of the
file.  A type is added exactly when an empty section has room for it, and
stays where it was put until it is deleted.
-/

namespace NosqlDbms

/-! ## Offsets in one section -/

theorem liveFrom_le {soff soff' : ℕ} {entries : List (Option TypeEntry)}
    {entry : TypeEntry} (hmem : (soff', entry) ∈ liveFrom soff entries) :
    soff ≤ soff' := by
  obtain ⟨before, after, -, hsoff⟩ := mem_liveFrom hmem
  omega

theorem liveFrom_unique {soff soff' : ℕ}
    {entries : List (Option TypeEntry)} {first second : TypeEntry}
    (hfirst : (soff', first) ∈ liveFrom soff entries)
    (hsecond : (soff', second) ∈ liveFrom soff entries) :
    second = first := by
  induction entries generalizing soff with
  | nil => exact absurd hfirst List.not_mem_nil
  | cons entry rest ih =>
      cases entry with
      | none => exact ih hfirst hsecond
      | some entry =>
          have hspan : entry.span =
            24 + 24 * entry.type.attrList.length := rfl
          rw [liveFrom, List.mem_cons, Prod.mk.injEq] at hfirst hsecond
          rcases hfirst with ⟨hself, rfl⟩ | hfirst
          · rcases hsecond with ⟨-, rfl⟩ | hsecond
            · rfl
            · have hle := liveFrom_le hsecond
              omega
          · rcases hsecond with ⟨hself, -⟩ | hsecond
            · have hle := liveFrom_le hfirst
              omega
            · exact ih hfirst hsecond

theorem mem_liveFrom_cleared {before after : List (Option TypeEntry)}
    {entry entry' : TypeEntry} {soff' : ℕ} :
    (soff', entry') ∈ liveFrom 32 (before ++ (entry.cleared ++ after)) ↔
      (soff', entry') ∈ liveFrom 32 (before ++ some entry :: after) ∧
        soff' ≠ 32 + spanOf before := by
  have hspan : entry.span = 24 + 24 * entry.type.attrList.length := rfl
  rw [liveFrom_append, liveFrom_append, liveFrom_append,
    entry.spanOf_cleared, TypeEntry.cleared, liveFrom_replicate,
    List.nil_append, liveFrom, List.mem_append, List.mem_append,
    List.mem_cons]
  constructor
  · rintro (hbefore | hafter)
    · refine ⟨Or.inl hbefore, ?_⟩
      obtain ⟨front, back, hsplit, hsoff⟩ := mem_liveFrom hbefore
      have hspan' : entry'.span =
        24 + 24 * entry'.type.attrList.length := rfl
      rw [hsplit, spanOf_append, spanOf_cons, Option.elim_some]
      omega
    · have hle := liveFrom_le hafter
      exact ⟨Or.inr (Or.inr hafter), by omega⟩
  · rintro ⟨hbefore | heq | hafter, hne⟩
    · exact Or.inl hbefore
    · exact absurd (congrArg Prod.fst heq) hne
    · exact Or.inr hafter

namespace File

section Types

variable {file file' : File} {contents : Contents} {index foff : ℕ}
  {head : SectHead} {entry : TypeEntry} {type : DocType}

/-! ## The catalogue -/

/-- The type lies at the offset of the file. -/
def Catalogued (file : File) (contents : Contents) (foff : ℕ)
    (entry : TypeEntry) : Prop :=
  ∃ index head soff, file.headAt .types index = some head ∧
    (soff, entry) ∈ liveFrom 32 (contents.cats index) ∧
    foff = head.fileOffset + soff

theorem Holds.typesLayout (h : file.Holds contents.Spelled)
    (hhead : file.headAt .types index = some head) :
    TypesLayout ⟨head, file.storage⟩ (contents.cats index) :=
  h.sect hhead

theorem Holds.live_lt (h : file.Holds contents.Spelled)
    (hhead : file.headAt .types index = some head) {soff : ℕ}
    (hmem : (soff, entry) ∈ liveFrom 32 (contents.cats index)) :
    soff < 8192 := by
  have hlayout := h.typesLayout hhead
  obtain ⟨-, hhigh, -⟩ := hlayout.slotsAt_of_mem hmem
  have hlip := hlayout.lip_le
  have hfrp := hlayout.frp_le
  have hspan : entry.span = 24 + 24 * entry.type.attrList.length := rfl
  omega

theorem Holds.catalogued_unique (h : file.Holds contents.Spelled)
    {entry' : TypeEntry} (hfirst : file.Catalogued contents foff entry)
    (hsecond : file.Catalogued contents foff entry') : entry' = entry := by
  obtain ⟨index, head, soff, hhead, hmem, rfl⟩ := hfirst
  obtain ⟨index', head', soff', hhead', hmem', heq⟩ := hsecond
  have hlt := h.live_lt hhead hmem
  have hlt' := h.live_lt hhead' hmem'
  by_cases hindex : index' = index
  · subst hindex
    rw [hhead, Option.some.injEq] at hhead'
    subst hhead'
    have hsoff : soff' = soff := by omega
    subst hsoff
    exact liveFrom_unique hmem hmem'
  · have hapart := h.placed.apart hhead' hhead
      (fun heq => hindex (congrArg Prod.snd heq))
    omega

theorem Grows.catalogued_iff {contents' : Contents}
    (h : file.Grows contents file' contents') :
    file'.Catalogued contents' foff entry ↔
      file.Catalogued contents foff entry := by
  unfold Catalogued
  rw [h.cats]
  simp only [headAt_congr h.types]

/-- The types sections change, the extents sections do not. -/
structure Recatalogues (file : File) (contents : Contents) (file' : File)
    (contents' : Contents) : Prop where
  holds : file'.Holds contents'.Spelled
  exts : contents'.exts = contents.exts
  extents : file'.sects .extents = file.sects .extents

theorem Recatalogues.stores_iff {contents' : Contents} {item : Item}
    (h : file.Recatalogues contents file' contents') :
    file'.Stores contents' foff item ↔ file.Stores contents foff item := by
  unfold Stores
  rw [h.exts]
  simp only [headAt_congr h.extents]

theorem Recatalogues.trans {file'' : File} {contents' contents'' : Contents}
    (h : file.Recatalogues contents file' contents')
    (h' : file'.Recatalogues contents' file'' contents'') :
    file.Recatalogues contents file'' contents'' :=
  ⟨h'.holds, h'.exts.trans h.exts, h'.extents.trans h.extents⟩

theorem Quiet.recatalogues (h : file.Quiet file')
    (hholds : file.Holds contents.Spelled) :
    file.Recatalogues contents file' contents :=
  ⟨h.holds hholds contents.local_spelled, rfl, h.sects .extents⟩

theorem Quiet.catalogued_iff (h : file.Quiet file') :
    file'.Catalogued contents foff entry ↔
      file.Catalogued contents foff entry := by
  unfold Catalogued
  simp only [headAt_congr (h.sects .types)]

/-! ## Changing one section of types -/

theorem Holds.setCat {sect' : Sect} {entries : List (Option TypeEntry)}
    (h : file.Holds contents.Spelled)
    (hhead : file.headAt .types index = some head)
    (hoffset : sect'.head.fileOffset = head.fileOffset)
    (hconfined : Storage.Confined head.fileOffset (head.fileOffset + 8192)
      file.storage sect'.file)
    (hlayout : TypesLayout sect' entries) :
    file.Recatalogues contents (file.putSect .types index sect')
      (contents.setCat index entries) := by
  refine ⟨h.putSect contents.local_spelled hhead hoffset hconfined ?_
    (fun hne hsect => Contents.spelled_setCat_of_ne hne hsect), rfl,
    sects_putSect_of_ne (by decide)⟩
  change TypesLayout sect' ((contents.setCat index entries).cats index)
  rw [Contents.cats_setCat_self]
  exact hlayout

theorem catalogued_setCat {sect' : Sect}
    {entries : List (Option TypeEntry)}
    (hhead : file.headAt .types index = some head)
    (hoffset : sect'.head.fileOffset = head.fileOffset) :
    (file.putSect .types index sect').Catalogued
        (contents.setCat index entries) foff entry ↔
      (∃ soff, (soff, entry) ∈ liveFrom 32 entries ∧
        foff = head.fileOffset + soff) ∨
      ∃ index' head' soff, index' ≠ index ∧
        file.headAt .types index' = some head' ∧
        (soff, entry) ∈ liveFrom 32 (contents.cats index') ∧
        foff = head'.fileOffset + soff := by
  constructor
  · rintro ⟨index', head', soff, hhead', hmem, rfl⟩
    by_cases hindex : index' = index
    · subst hindex
      rw [headAt_putSect_self hhead, Option.some.injEq] at hhead'
      subst hhead'
      rw [Contents.cats_setCat_self] at hmem
      exact Or.inl ⟨soff, hmem, by rw [hoffset]⟩
    · rw [headAt_putSect_of_ne
        (fun heq => hindex (congrArg Prod.snd heq))] at hhead'
      rw [Contents.cats_setCat_of_ne hindex] at hmem
      exact Or.inr ⟨index', head', soff, hindex, hhead', hmem, rfl⟩
  · rintro (⟨soff, hmem, rfl⟩ |
      ⟨index', head', soff, hindex, hhead', hmem, rfl⟩)
    · refine ⟨index, sect'.head, soff, headAt_putSect_self hhead, ?_,
        by rw [hoffset]⟩
      rw [Contents.cats_setCat_self]
      exact hmem
    · refine ⟨index', head', soff, ?_, ?_, rfl⟩
      · rw [headAt_putSect_of_ne
          (fun heq => hindex (congrArg Prod.snd heq))]
        exact hhead'
      · rw [Contents.cats_setCat_of_ne hindex]
        exact hmem

theorem catalogued_split (hhead : file.headAt .types index = some head) :
    file.Catalogued contents foff entry ↔
      (∃ soff, (soff, entry) ∈ liveFrom 32 (contents.cats index) ∧
        foff = head.fileOffset + soff) ∨
      ∃ index' head' soff, index' ≠ index ∧
        file.headAt .types index' = some head' ∧
        (soff, entry) ∈ liveFrom 32 (contents.cats index') ∧
        foff = head'.fileOffset + soff := by
  constructor
  · rintro ⟨index', head', soff, hhead', hmem, rfl⟩
    by_cases hindex : index' = index
    · subst hindex
      rw [hhead, Option.some.injEq] at hhead'
      subst hhead'
      exact Or.inl ⟨soff, hmem, rfl⟩
    · exact Or.inr ⟨index', head', soff, hindex, hhead', hmem, rfl⟩
  · rintro (⟨soff, hmem, rfl⟩ | ⟨index', head', soff, -, hhead', hmem, rfl⟩)
    · exact ⟨index, head, soff, hhead, hmem, rfl⟩
    · exact ⟨index', head', soff, hhead', hmem, rfl⟩

/-! ## Adding -/

theorem Holds.types_takenWhere (h : file.Holds contents.Spelled)
    (hnamed : type.Named) : file.TakenWhere .types (sectTypesWrite type)
      (file.HasFree .types (typePhSz type)) := by
  refine takenWhere_hasFree (fun hlt => sectTypesWrite_refused hlt) ?_
  intro index head storage hhead hcell hsize hge
  have hlayout : TypesLayout ⟨head, storage⟩ (contents.cats index) :=
    contents.local_spelled.frame (h.sect hhead)
      (fun _ _ => congrFun hcell _) hsize.ge
  obtain ⟨entry, sect', hwrite, -⟩ := hlayout.write hnamed hge
  exact ⟨_, sect', hwrite⟩

structure TypePut (file : File) (contents : Contents) (type : DocType)
    (file' : File) (contents' : Contents) (foff : ℕ) (entry : TypeEntry) :
    Prop where
  recatalogues : file.Recatalogues contents file' contents'
  type_eq : entry.type = type
  fresh : ∀ entry', ¬ file.Catalogued contents foff entry'
  catalogued : ∀ {foff' entry'}, file'.Catalogued contents' foff' entry' ↔
    (foff' = foff ∧ entry' = entry) ∨
      file.Catalogued contents foff' entry'
  cleared : ∀ {index}, none ∈ contents'.cats index →
    none ∈ contents.cats index

theorem Holds.putType {value : ℕ} {sect' : Sect}
    (h : file.Holds contents.Spelled) (hnamed : type.Named)
    (hhead : file.headAt .types index = some head)
    (hroom : typePhSz type ≤ head.freeSpace)
    (hcall : sectTypesWrite type ⟨head, file.storage⟩ = .ok value sect') :
    ∃ entry contents', value < 8192 ∧
      sect'.head.fileOffset = head.fileOffset ∧
      file.TypePut contents type (file.putSect .types index sect') contents'
        (head.fileOffset + value) entry := by
  have hlayout := h.typesLayout hhead
  obtain ⟨entry, sect'', hwrite, htype, hlayout', hoffset, hwithin⟩ :=
    hlayout.write hnamed hroom
  rw [hcall] at hwrite
  injection hwrite with hvalue hsect
  subst hvalue hsect
  have hlive : liveFrom 32 (contents.cats index ++ [some entry]) =
      liveFrom 32 (contents.cats index) ++ [(head.lstItmPtr, entry)] := by
    rw [liveFrom_append, ← hlayout.lip]
    rfl
  have hnew : (head.lstItmPtr, entry) ∈
      liveFrom 32 (contents.cats index ++ [some entry]) := by
    rw [hlive]
    exact List.mem_append_right _ List.mem_cons_self
  obtain ⟨-, hhigh, -⟩ := hlayout'.slotsAt_of_mem hnew
  have hlipLe := hlayout'.lip_le
  have hfrpLe := hlayout'.frp_le
  have hspan : entry.span = 24 + 24 * entry.type.attrList.length := rfl
  have hlt : head.lstItmPtr < 8192 := by omega
  refine ⟨entry, contents.setCat index
    (contents.cats index ++ [some entry]), hlt, hoffset,
    h.setCat hhead hoffset (hwithin True).confined hlayout', htype, ?_, ?_,
    ?_⟩
  · rintro entry' ⟨index', head', soff, hhead', hmem, heq⟩
    have hsoff := h.live_lt hhead' hmem
    simp only at heq
    by_cases hindex : index' = index
    · subst hindex
      rw [hhead, Option.some.injEq] at hhead'
      subst hhead'
      obtain ⟨-, hhigh', -⟩ := hlayout.slotsAt_of_mem hmem
      have hspan' : entry'.span =
        24 + 24 * entry'.type.attrList.length := rfl
      simp only at hhigh'
      omega
    · have hapart := h.placed.apart hhead' hhead
        (fun heq => hindex (congrArg Prod.snd heq))
      omega
  · intro foff' entry'
    rw [catalogued_setCat hhead hoffset, catalogued_split hhead, hlive]
    simp only [List.mem_append, List.mem_singleton, Prod.mk.injEq]
    constructor
    · rintro (⟨soff, hmem | ⟨rfl, rfl⟩, rfl⟩ | hother)
      · exact Or.inr (Or.inl ⟨soff, hmem, rfl⟩)
      · exact Or.inl ⟨rfl, rfl⟩
      · exact Or.inr (Or.inr hother)
    · rintro (⟨rfl, rfl⟩ | ⟨soff, hmem, rfl⟩ | hother)
      · exact Or.inl ⟨_, Or.inr ⟨rfl, rfl⟩, rfl⟩
      · exact Or.inl ⟨soff, Or.inl hmem, rfl⟩
      · exact Or.inr hother
  · intro index' hcleared
    by_cases hindex : index' = index
    · rw [hindex, Contents.cats_setCat_self, List.mem_append] at hcleared
      rw [hindex]
      rcases hcleared with hcleared | hcleared
      · exact hcleared
      · cases List.mem_singleton.mp hcleared
    · rw [Contents.cats_setCat_of_ne hindex] at hcleared
      exact hcleared

theorem Holds.extended_types (h : file.Holds contents.Spelled) :
    file.Recatalogues contents (file.extended .types)
      (contents.setCat (file.sects .types).length []) := by
  refine ⟨h.extended contents.local_spelled (Contents.local_spelled _) ?_
    (fun hne hsect => Contents.spelled_setCat_of_ne hne hsect), rfl,
    sects_extended_of_ne file (by decide)⟩
  change TypesLayout _ ((contents.setCat (file.sects .types).length
    []).cats (file.sects .types).length)
  rw [Contents.cats_setCat_self]
  exact Sect.fresh_typesLayout _ _

theorem catalogued_extended :
    (file.extended .types).Catalogued
        (contents.setCat (file.sects .types).length []) foff entry ↔
      file.Catalogued contents foff entry := by
  constructor
  · rintro ⟨index, head, soff, hhead, hmem, rfl⟩
    rcases headAt_extended_cases hhead with ⟨heq, -⟩ | ⟨hne, hold⟩
    · rw [Prod.mk.injEq] at heq
      rw [heq.2, Contents.cats_setCat_self] at hmem
      exact absurd hmem List.not_mem_nil
    · rw [Contents.cats_setCat_of_ne
        (fun heq => hne (by rw [heq]))] at hmem
      exact ⟨index, head, soff, hold, hmem, rfl⟩
  · rintro ⟨index, head, soff, hhead, hmem, rfl⟩
    obtain ⟨hlt, -⟩ := List.getElem?_eq_some_iff.mp hhead
    refine ⟨index, head, soff, ?_, ?_, rfl⟩
    · rw [headAt, sects_extended_self, List.getElem?_append_left hlt]
      exact hhead
    · rw [Contents.cats_setCat_of_ne (Nat.ne_of_lt hlt)]
      exact hmem

theorem Holds.synced_types (h : file.Holds contents.Spelled) :
    file.Recatalogues contents { file with
      storage := file.storage.write 0 (wordBytes file.lstSectPtr) }
      contents :=
  ⟨h.putHeader contents.local_spelled _ (length_wordBytes _), rfl,
    sects_with_storage _ _ _⟩

theorem catalogued_with_storage (storage : Storage) :
    File.Catalogued { file with storage := storage } contents foff entry ↔
      file.Catalogued contents foff entry := by
  unfold Catalogued
  simp only [headAt_congr (sects_with_storage file storage .types)]

/-- A type is added exactly when an empty section has room for it. -/
theorem Holds.add_type (h : file.Holds contents.Spelled)
    (hnamed : type.Named) :
    (typePhSz type ≤ 8160 ∧ ∃ foff file' contents' entry,
      fileAddType type file = .ok foff file' ∧
      file.TypePut contents type file' contents' foff entry) ∨
    (8160 < typePhSz type ∧ ∃ file' contents',
      fileAddType type file = .failed file' ∧
      file.Recatalogues contents file' contents' ∧
      (∀ {foff entry}, file'.Catalogued contents' foff entry ↔
        file.Catalogued contents foff entry) ∧
      ∀ {index}, none ∈ contents'.cats index →
        none ∈ contents.cats index) := by
  rcases fileFit_spec (h.types_takenWhere hnamed) with
    ⟨file₁, index, head, value, sect', hfit, hquiet, hhead, htakes, hcall⟩ |
    ⟨file₁, hquiet, -, hfit⟩
  · left
    have hholds := hquiet.holds h contents.local_spelled
    have hlayout := hholds.typesLayout hhead
    have hroom := htakes head
      (by rw [← headAt_congr (hquiet.sects _), hhead])
    have hlip := hlayout.lip
    have hfrp := hlayout.frp_le
    have hfree := hlayout.free
    simp only at hlip hfrp hfree
    obtain ⟨entry, contents', hlt, hoffset, hput⟩ :=
      hholds.putType hnamed hhead hroom hcall
    refine ⟨by omega, head.fileOffset + value, _, contents', entry, ?_,
      ((hquiet.recatalogues h).trans hput.recatalogues).trans
        hput.recatalogues.holds.synced_types, hput.type_eq, ?_, ?_, ?_⟩
    · rw [fileAddType]
      refine (Prog.bind_of_ok hfit).trans ?_
      have hfileoff := fileSectFileoff_eq
        (@headAt_putSect_self _ _ _ _ sect' hhead)
        (show value < 2 ^ 63 by omega)
      rw [hoffset] at hfileoff
      exact (Prog.bind_of_ok hfileoff).trans rfl
    · intro entry' hold
      exact hput.fresh entry' (hquiet.catalogued_iff.mpr hold)
    · intro foff' entry'
      rw [catalogued_with_storage, hput.catalogued, hquiet.catalogued_iff]
    · exact hput.cleared
  · have hholds := hquiet.holds h contents.local_spelled
    have hgrows := (hquiet.recatalogues h).trans hholds.extended_types
    have hcatalogued : ∀ {foff entry},
        (file₁.extended .types).Catalogued (contents.setCat
            (file₁.sects .types).length []) foff entry ↔
          file.Catalogued contents foff entry := fun {foff entry} =>
      catalogued_extended.trans hquiet.catalogued_iff
    have hextended : ∀ {index}, none ∈ (contents.setCat
        (file₁.sects .types).length []).cats index →
        none ∈ contents.cats index := by
      intro index hcleared
      by_cases hindex : index = (file₁.sects .types).length
      · rw [hindex, Contents.cats_setCat_self] at hcleared
        cases hcleared
      · rw [Contents.cats_setCat_of_ne hindex] at hcleared
        exact hcleared
    obtain ⟨index, hindex⟩ : ∃ index, index = (file.sects .types).length :=
      ⟨_, rfl⟩
    have hlength : (file₁.sects .types).length = index := by
      rw [hquiet.sects, hindex]
    have hnew : (file₁.extended .types).headAt .types index = some
        (Sect.fresh file₁.lstSectPtr file₁.storage).head := by
      rw [← hlength]
      exact headAt_extended_new
    have hfreeSpace : (Sect.fresh file₁.lstSectPtr
      file₁.storage).head.freeSpace = 8160 := rfl
    rw [← hindex] at hfit
    rcases Nat.lt_or_ge 8160 (typePhSz type) with hlt | hge
    · right
      have hrefused : sectTypesWrite type
          ⟨_, (file₁.extended .types).storage⟩ = .failed _ :=
        sectTypesWrite_refused (by rw [hfreeSpace]; exact hlt)
      have hquiet' : (file₁.extended .types).Quiet _ :=
        Quiet.putSect hnew ⟨rfl, rfl, rfl⟩
      refine ⟨hlt, _, _, ?_,
        hgrows.trans (hquiet'.recatalogues hgrows.holds),
        hquiet'.catalogued_iff.trans hcatalogued, hextended⟩
      rw [fileAddType]
      exact Prog.bind_of_failed (hfit.trans
        (Prog.bind_of_failed (onSect_of_failed hnew hrefused)))
    · left
      have hlayout := hgrows.holds.typesLayout hnew
      obtain ⟨entry₀, sect', hwrite, -⟩ := hlayout.write hnamed
        (by rw [hfreeSpace]; exact hge)
      obtain ⟨entry, contents', hlt, hoffset, hput⟩ :=
        hgrows.holds.putType hnamed hnew (by rw [hfreeSpace]; exact hge)
          hwrite
      obtain ⟨fresh, hfresh⟩ : ∃ fresh, fresh =
        (Sect.fresh file₁.lstSectPtr file₁.storage).head := ⟨_, rfl⟩
      rw [← hfresh] at hnew hwrite hoffset hput hlt
      refine ⟨hge, fresh.fileOffset + fresh.lstItmPtr, _, contents', entry,
        ?_,
        (hgrows.trans hput.recatalogues).trans
          hput.recatalogues.holds.synced_types, hput.type_eq, ?_, ?_, ?_⟩
      · rw [fileAddType]
        refine (Prog.bind_of_ok (hfit.trans
          (Prog.bind_of_ok (onSect_of_ok hnew hwrite)))).trans ?_
        have hfileoff := fileSectFileoff_eq
          (@headAt_putSect_self _ _ _ _ sect' hnew)
          (Nat.lt_trans hlt (by norm_num))
        rw [hoffset] at hfileoff
        exact (Prog.bind_of_ok hfileoff).trans rfl
      · intro entry' hold
        exact hput.fresh entry' (hcatalogued.mpr hold)
      · intro foff' entry'
        rw [catalogued_with_storage, hput.catalogued, hcatalogued]
      · exact fun hcleared => hextended (hput.cleared hcleared)

/-! ## Finding, reading and deleting -/

theorem findLive_some {name : Str} {live : List (ℕ × TypeEntry)}
    {found : ℕ × TypeEntry} (h : findLive name live = some found) :
    found ∈ live ∧ found.2.type.name = name := by
  unfold findLive at h
  have htest := List.find?_some h
  exact ⟨List.mem_of_find?_eq_some h, of_decide_eq_true htest⟩

theorem findLive_none {name : Str} {live : List (ℕ × TypeEntry)}
    (h : findLive name live = none) {found : ℕ × TypeEntry}
    (hmem : found ∈ live) : found.2.type.name ≠ name := by
  intro hname
  have hall := List.find?_eq_none.mp h found hmem
  exact hall (decide_eq_true hname)

/-- What a search for a name comes to. -/
theorem Holds.find_type (h : file.Holds contents.Spelled) {name : Str}
    (hname : ∀ index, none ∈ contents.cats index → name.val ≠ []) :
    (∃ index head soff entry file',
      fileFindType name file = .ok (index, soff, entry.type) file' ∧
      file.Quiet file' ∧ file.headAt .types index = some head ∧
      (soff, entry) ∈ liveFrom 32 (contents.cats index) ∧
      entry.type.name = name) ∨
    ∃ file', fileFindType name file = .failed file' ∧ file.Quiet file' ∧
      ∀ {foff entry}, file.Catalogued contents foff entry →
        entry.type.name ≠ name := by
  have htaken : file.TakenWhere .types (sectTypesFind name) (fun index =>
      (findLive name (liveFrom 32 (contents.cats index))).isSome) := by
    intro index head storage hhead hcell hsize
    have hlayout : TypesLayout ⟨head, storage⟩ (contents.cats index) :=
      contents.local_spelled.frame (h.sect hhead)
        (fun _ _ => congrFun hcell _) hsize.ge
    cases hfind : findLive name (liveFrom 32 (contents.cats index)) with
    | none =>
        left
        obtain ⟨sect', hcall, hquiet, -⟩ := hlayout.find_none (hname index) hfind
        exact ⟨by simp [hfind], sect', hcall, hquiet⟩
    | some found =>
        right
        obtain ⟨sect', hcall, -⟩ := hlayout.find_some (hname index) hfind
        exact ⟨by simp [hfind], _, sect', hcall⟩
  rcases firstSect_spec htaken with ⟨file₁, hnone, hquiet, hall⟩ |
    ⟨file₁, index, head, value, sect', hsome, hfound, -⟩
  · right
    refine ⟨file₁, by rw [fileFindType, Prog.bind_of_ok hnone]; rfl, hquiet,
      ?_⟩
    rintro foff entry ⟨index, head, soff, hhead, hmem, -⟩
    obtain ⟨hlt, -⟩ := List.getElem?_eq_some_iff.mp hhead
    have hfind := hall index hlt
    rw [Bool.not_eq_true, Option.isSome_eq_false_iff,
      Option.isNone_iff_eq_none] at hfind
    exact findLive_none hfind hmem
  · left
    obtain ⟨hquiet, hhead, htakes, hcall⟩ := hfound
    have hholds := hquiet.holds h contents.local_spelled
    have hlayout := hholds.typesLayout hhead
    obtain ⟨⟨soff, entry⟩, hfind⟩ := Option.isSome_iff_exists.mp htakes
    obtain ⟨sect'', hcall', hquiet', -⟩ := hlayout.find_some (hname index) hfind
    rw [hcall'] at hcall
    injection hcall with hvalue hsect
    subst hvalue hsect
    obtain ⟨hmem, hname'⟩ := findLive_some hfind
    refine ⟨index, head, soff, entry, _, ?_,
      hquiet.trans (Quiet.putSect hhead hquiet'), ?_, hmem, hname'⟩
    · rw [fileFindType, Prog.bind_of_ok hsome]
      rfl
    · rw [← headAt_congr (hquiet.sects _), hhead]

theorem Holds.read_type (h : file.Holds contents.Spelled)
    (hentry : file.Catalogued contents foff entry) :
    ∃ file', fileReadType foff file = .ok entry.type file' ∧
      file.Quiet file' := by
  obtain ⟨index, head, soff, hhead, hmem, rfl⟩ := hentry
  obtain ⟨sect', hread, hquiet, -⟩ := (h.typesLayout hhead).read hmem
  refine ⟨_, ?_, Quiet.putSect hhead hquiet⟩
  rw [fileReadType, Prog.bind_of_ok
    (h.placed.fileAt_ok hhead (h.live_lt hhead hmem) hread)]
  rfl

/-- A deletion takes one type of the name away, the one a search finds. -/
theorem Holds.delete_type (h : file.Holds contents.Spelled) {name : Str}
    {soff : ℕ} {file₁ : File}
    (hfind : fileFindType name file = .ok (index, soff, entry.type) file₁)
    (hquiet : file.Quiet file₁)
    (hhead : file.headAt .types index = some head)
    (hmem : (soff, entry) ∈ liveFrom 32 (contents.cats index)) :
    ∃ file' contents', fileDeleteType name file = .ok () file' ∧
      file.Recatalogues contents file' contents' ∧
      ∀ {foff' entry'}, file'.Catalogued contents' foff' entry' ↔
        file.Catalogued contents foff' entry' ∧
          foff' ≠ head.fileOffset + soff := by
  have hholds := hquiet.holds h contents.local_spelled
  have hhead₁ : file₁.headAt .types index = some head := by
    rw [headAt_congr (hquiet.sects _), hhead]
  have hlayout := hholds.typesLayout hhead₁
  have hsoffLt := h.live_lt hhead hmem
  obtain ⟨before, after, hsplit, hsoff⟩ := mem_liveFrom hmem
  rw [hsplit] at hlayout
  obtain ⟨sect', rest, hdelete, hlayout', htrim, hoffset, hconfined⟩ :=
    hlayout.delete
  rw [← hsoff] at hdelete
  have hset := hholds.setCat hhead₁ hoffset hconfined hlayout'
  refine ⟨_, contents.setCat index rest, ?_,
    ((hquiet.recatalogues h).trans hset).trans hset.holds.synced_types, ?_⟩
  · rw [fileDeleteType, Prog.bind_of_ok hfind]
    simp only
    rw [Prog.bind_of_ok (onSect_of_ok hhead₁ hdelete), fileHeadSync_eq]
  · intro foff' entry'
    rw [catalogued_with_storage, catalogued_setCat hhead₁ hoffset,
      ← htrim.liveFrom_eq, ← hquiet.catalogued_iff,
      catalogued_split hhead₁]
    simp only [mem_liveFrom_cleared]
    rw [← hsplit, ← hsoff]
    constructor
    · rintro (⟨soff', ⟨hmem', hne⟩, rfl⟩ | hother)
      · exact ⟨Or.inl ⟨soff', hmem', rfl⟩, by omega⟩
      · refine ⟨Or.inr hother, ?_⟩
        obtain ⟨index', head', soff', hindex, hhead', hmem', rfl⟩ := hother
        have hlt' := hholds.live_lt hhead' hmem'
        have hapart := hholds.placed.apart hhead' hhead₁
          (fun heq => hindex (congrArg Prod.snd heq))
        omega
    · rintro ⟨⟨soff', hmem', rfl⟩ | hother, hne⟩
      · exact Or.inl ⟨soff', ⟨hmem', by omega⟩, rfl⟩
      · exact Or.inr hother

end Types

end File

end NosqlDbms
