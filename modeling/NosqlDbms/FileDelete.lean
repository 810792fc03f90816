import NosqlDbms.Documents
import NosqlDbms.Forest
import Mathlib.Tactic

/-!
# Deleting from a file

`file_delete` takes out a tree node by node.  As long as no deletion leaves a
lowest record behind that begins with a zero byte, exactly the slots of the
tree are cleared, in whatever sections they lie.
-/

namespace NosqlDbms

/-- The items that are left in a section from `low` on when those at the
offsets `gone` of the file are taken out. -/
def Items.outside (items : Items) (low : ℕ) (gone : List ℕ) : Items :=
  fun soff => if low + soff ∈ gone then none else items soff

section Outside

variable {items : Items} {low soff : ℕ} {gone gone' : List ℕ} {item : Item}

theorem Items.outside_eq_some : items.outside low gone soff = some item ↔
    low + soff ∉ gone ∧ items soff = some item := by
  by_cases hmem : low + soff ∈ gone <;> simp [Items.outside, hmem]

theorem Items.outside_outside : (items.outside low gone).outside low gone' =
    items.outside low (gone ++ gone') := by
  funext soff
  unfold Items.outside
  by_cases hmem : low + soff ∈ gone
  · simp [hmem]
  · simp [hmem]

theorem Items.outside_singleton : items.outside low [low + soff] =
    items.erase soff := by
  funext soff'
  by_cases heq : soff' = soff
  · rw [heq, Items.erase_self]
    simp [Items.outside]
  · rw [Items.erase_of_ne heq]
    simp [Items.outside, heq]

theorem Items.outside_eq_self
    (h : ∀ soff item, items soff = some item → low + soff ∉ gone) :
    items.outside low gone = items := by
  funext soff
  unfold Items.outside
  split
  next hmem =>
    cases hitem : items soff with
    | none => rfl
    | some item => exact absurd hmem (h soff item hitem)
  next => rfl

end Outside

namespace File

section Erase

variable {file file' file'' : File} {contents contents' contents'' : Contents}
  {gone gone' foffs : List ℕ} {foff index : ℕ} {head : SectHead} {item : Item}

/-- The items at the offsets `gone` were taken out. -/
structure Erases (file : File) (contents : Contents) (gone : List ℕ)
    (file' : File) (contents' : Contents) : Prop where
  holds : file'.Holds contents'.Spelled
  cats : contents'.cats = contents.cats
  types : file'.sects .types = file.sects .types
  offsets : ∀ index,
    (file'.headAt .extents index).map SectHead.fileOffset =
      (file.headAt .extents index).map SectHead.fileOffset
  exts : ∀ {index head}, file.headAt .extents index = some head →
    contents'.exts index = (contents.exts index).outside head.fileOffset gone

namespace Erases

theorem head_before (h : file.Erases contents gone file' contents') {head' : SectHead}
    (hhead' : file'.headAt .extents index = some head') :
    ∃ head, file.headAt .extents index = some head ∧
      head.fileOffset = head'.fileOffset := by
  have hoffset := h.offsets index
  rw [hhead', Option.map_some, eq_comm, Option.map_eq_some_iff] at hoffset
  exact hoffset

theorem refl (h : file.Holds contents.Spelled) :
    file.Erases contents [] file contents := by
  refine ⟨h, rfl, rfl, fun _ => rfl, fun _ => ?_⟩
  exact (Items.outside_eq_self (fun _ _ _ => List.not_mem_nil)).symm

theorem trans (h : file.Erases contents gone file' contents')
    (h' : file'.Erases contents' gone' file'' contents'') :
    file.Erases contents (gone ++ gone') file'' contents'' where
  holds := h'.holds
  cats := h'.cats.trans h.cats
  types := h'.types.trans h.types
  offsets := fun index => (h'.offsets index).trans (h.offsets index)
  exts := by
    intro index head hhead
    have hoffset := h.offsets index
    rw [hhead, Option.map_some, Option.map_eq_some_iff] at hoffset
    obtain ⟨head', hhead', heq⟩ := hoffset
    rw [h'.exts hhead', h.exts hhead, heq, Items.outside_outside]

theorem stores_iff (h : file.Erases contents gone file' contents') :
    file'.Stores contents' foff item ↔
      foff ∉ gone ∧ file.Stores contents foff item := by
  constructor
  · rintro ⟨index, head', soff, hhead', hitem, rfl⟩
    obtain ⟨head, hhead, hoffset⟩ := h.head_before hhead'
    rw [h.exts hhead, Items.outside_eq_some] at hitem
    rw [← hoffset]
    exact ⟨hitem.1, index, head, soff, hhead, hitem.2, rfl⟩
  · rintro ⟨hout, index, head, soff, hhead, hitem, rfl⟩
    have hoffset := h.offsets index
    rw [hhead, Option.map_some, Option.map_eq_some_iff] at hoffset
    obtain ⟨head', hhead', heq⟩ := hoffset
    refine ⟨index, head', soff, hhead', ?_, by rw [heq]⟩
    rw [h.exts hhead, Items.outside_eq_some]
    exact ⟨hout, hitem⟩

end Erases

/-- No deletion of one slot after the other leaves a lowest record behind that
begins with a zero byte. -/
def SafeWithout (file : File) (contents : Contents) (foffs : List ℕ) : Prop :=
  ∀ before foff after, foffs = before ++ foff :: after →
  ∀ index head, file.headAt .extents index = some head →
    head.fileOffset ≤ foff → foff < head.fileOffset + 8192 →
    ((contents.exts index).outside head.fileOffset
      (before ++ [foff])).BorderSafe

theorem SafeWithout.left (h : file.SafeWithout contents (gone ++ foffs)) :
    file.SafeWithout contents gone := by
  intro before foff after hsplit
  exact h before foff (after ++ foffs) (by rw [hsplit]; simp)

theorem SafeWithout.right (h : file.SafeWithout contents (gone ++ foffs))
    (herases : file.Erases contents gone file' contents') :
    file'.SafeWithout contents' foffs := by
  intro before foff after hsplit index head' hhead' hlow hhigh
  obtain ⟨head, hhead, hoffset⟩ := herases.head_before hhead'
  have hsafe := h (gone ++ before) foff after (by rw [hsplit]; simp) index
    head hhead (by omega) (by omega)
  rw [herases.exts hhead, ← hoffset, Items.outside_outside,
    ← List.append_assoc]
  exact hsafe

theorem Holds.delete_item (h : file.Holds contents.Spelled)
    (hstores : file.Stores contents foff item)
    (hsafe : file.SafeWithout contents [foff]) :
    ∃ index file' contents',
      fileAt .extents foff sectExtDelete file =
        .ok (index, item.entity) file' ∧
      file.Erases contents [foff] file' contents' := by
  obtain ⟨index, head, soff, hhead, hitem, rfl⟩ := hstores
  have hlayout : Layout ⟨head, file.storage⟩ (contents.exts index) :=
    h.sect hhead
  have hslot := hlayout.border_lt hitem
  have hborder := hsafe [] _ [] rfl index head hhead (by omega) (by omega)
  rw [List.nil_append, Items.outside_singleton] at hborder
  obtain ⟨sect', hdelete, hlayout', hoffset, hwithin⟩ :=
    hlayout.delete hitem hborder
  have hholds := h.setExt hhead hoffset (hwithin False False.elim).confined
    hlayout'
  refine ⟨index, _, _, h.placed.fileAt_ok hhead (by omega) hdelete, hholds,
    rfl, sects_putSect_of_ne (by decide), fun index' => ?_, ?_⟩
  · by_cases hindex : index' = index
    · rw [hindex, headAt_putSect_self hhead, hhead, Option.map_some,
        Option.map_some, hoffset]
    · rw [headAt_putSect_of_ne
        (fun heq => hindex (congrArg Prod.snd heq))]
  · intro index' head' hhead'
    by_cases hindex : index' = index
    · subst hindex
      rw [hhead, Option.some.injEq] at hhead'
      rw [Contents.exts_setExt_self, ← hhead', Items.outside_singleton]
    · rw [Contents.exts_setExt_of_ne hindex]
      refine (Items.outside_eq_self (fun soff' item' hitem' hmem => ?_)).symm
      have hlayout' : Layout ⟨head', file.storage⟩
          (contents.exts index') := h.sect hhead'
      have hslot' := hlayout'.border_lt hitem'
      have hapart := h.placed.apart hhead' hhead
        (fun heq => hindex (congrArg Prod.snd heq))
      have heq := List.mem_singleton.mp hmem
      omega

theorem Holds.functional (h : file.Holds contents.Spelled) :
    (file.Stores contents).Functional :=
  fun _ _ _ hitem hitem' => h.stores_unique hitem hitem'

theorem Erases.synced (h : file.Erases contents gone file' contents') :
    file.Erases contents gone { file' with
      storage := file'.storage.write 0 (wordBytes file'.lstSectPtr) }
      contents' where
  holds := h.holds.putHeader contents'.local_spelled _ (length_wordBytes _)
  cats := h.cats
  types := h.types
  offsets := h.offsets
  exts := h.exts

theorem Holds.delete_relative {relative : Json} {dad ptr fuel : ℕ}
    {goes : Bool} (h : file.Holds contents.Spelled)
    (hlaid : relative.Laid (file.Stores contents) dad 0 ptr foffs)
    (hgoes : goes = true ↔ ptr ≠ 0)
    (hdelete : relative.isNull = false → ∃ file' contents',
      fileDelete fuel ptr false file = .ok () file' ∧
      file.Erases contents foffs file' contents') :
    ∃ file' contents',
      (if goes = true then fileDelete fuel ptr false
        else pure () : Prog File Unit) file = .ok () file' ∧
      file.Erases contents foffs file' contents' := by
  cases relative with
  | null =>
      obtain ⟨hptr, hfoffs⟩ := hlaid
      rw [hfoffs, if_neg (fun hgo => hgoes.mp hgo hptr)]
      exact ⟨file, contents, rfl, .refl h⟩
  | node key value bro son =>
      rw [if_pos (hgoes.mpr hlaid.1)]
      exact hdelete rfl

/-- A tree is deleted.  The induction is on the tree, brothers before
sons. -/
theorem Holds.delete_tree {json : Json} {dad typePtr fuel : ℕ}
    (h : file.Holds contents.Spelled)
    (hlaid : json.Laid (file.Stores contents) dad typePtr foff foffs)
    (hnodup : foffs.Nodup) (hnull : json.isNull = false)
    (hfuel : json.nodes.length ≤ fuel)
    (hsafe : file.SafeWithout contents foffs) :
    ∃ file' contents', fileDelete fuel foff false file = .ok () file' ∧
      file.Erases contents foffs file' contents' := by
  induction json generalizing file contents foff foffs dad typePtr fuel with
  | null => cases hnull
  | node key value bro son ihBro ihSon =>
      obtain ⟨hne, item, broFoffs, sonFoffs, hitem, hspells, hdad, -, hbro,
        hson, rfl⟩ := hlaid
      rw [Json.nodes, List.length_cons, List.length_append] at hfuel
      obtain ⟨rounds, rfl⟩ := Nat.exists_eq_add_one_of_ne_zero
        (show fuel ≠ 0 by omega)
      obtain ⟨hfirst, hrest⟩ := List.nodup_cons.mp hnodup
      rw [List.mem_append, not_or] at hfirst
      obtain ⟨hnodupBro, hnodupSon, hapart⟩ := List.nodup_append.mp hrest
      have hsafe' : file.SafeWithout contents
          ([foff] ++ (broFoffs ++ sonFoffs)) := hsafe
      obtain ⟨index, file₁, contents₁, hdelete, herases₁⟩ :=
        h.delete_item hitem hsafe'.left
      have hsafe₁ := hsafe'.right herases₁
      have hbro₁ : bro.Laid (file₁.Stores contents₁) dad 0
          item.entity.famAddr.broPtr broFoffs := by
        apply hbro.congr
        intro foff' hmem item' hitem'
        refine herases₁.stores_iff.mpr ⟨fun heq => ?_, hitem'⟩
        rw [List.mem_singleton.mp heq] at hmem
        exact hfirst.1 hmem
      obtain ⟨file₂, contents₂, hdeleteBro, herases₂⟩ :=
        @Holds.delete_relative _ _ _ _ _ _ rounds
          (!false && item.entity.famAddr.broPtr != 0) herases₁.holds hbro₁
          (by simp) (fun hnull => ihBro herases₁.holds hbro₁ hnodupBro hnull
            (by omega) hsafe₁.left)
      have hson₂ : son.Laid (file₂.Stores contents₂) foff 0
          item.entity.famAddr.sonPtr sonFoffs := by
        apply hson.congr
        intro foff' hmem item' hitem'
        refine herases₂.stores_iff.mpr ⟨fun hmem' => ?_,
          herases₁.stores_iff.mpr ⟨fun heq => ?_, hitem'⟩⟩
        · exact hapart foff' hmem' foff' hmem rfl
        · rw [List.mem_singleton.mp heq] at hmem
          exact hfirst.2 hmem
      obtain ⟨file₃, contents₃, hdeleteSon, herases₃⟩ :=
        @Holds.delete_relative _ _ _ _ _ _ rounds
          (decide (item.entity.famAddr.sonPtr ≠ 0)) herases₂.holds hson₂
          decide_eq_true_iff (fun hnull => ihSon herases₂.holds hson₂
            hnodupSon hnull (by omega) (hsafe₁.right herases₂))
      have herases := herases₁.trans (herases₂.trans herases₃)
      refine ⟨_, contents₃, ?_, herases.synced⟩
      rw [fileDelete, Prog.bind_of_ok hdelete]
      dsimp only
      rw [Prog.bind_of_ok hdeleteBro]
      simp only [decide_eq_true_eq] at hdeleteSon
      rw [Prog.bind_of_ok hdeleteSon]
      rfl

/-- A node that is deleted itself keeps its brothers; its sons go before its
dad is told. -/
theorem Holds.delete_below {son : Json} {fuel : ℕ}
    (h : file.Holds contents.Spelled)
    (hitem : file.Stores contents foff item)
    (hson : son.Laid (file.Stores contents) foff 0
      item.entity.famAddr.sonPtr foffs)
    (hnodup : (foff :: foffs).Nodup) (hfuel : son.nodes.length < fuel)
    (hsafe : file.SafeWithout contents (foff :: foffs)) :
    ∃ file' contents', file.Erases contents (foff :: foffs) file' contents' ∧
      fileDelete fuel foff true file = (do
        (if item.entity.famAddr.dadPtr != 0 then do
          let _ ← (fileHeadWrite (item.entity.famAddr.dadPtr + offsetofSonPtr)
            (wordBytes item.entity.famAddr.broPtr)).status
          pure ()
        else pure ())
        fileHeadSync : Prog File Unit) file' := by
  obtain ⟨rounds, rfl⟩ := Nat.exists_eq_add_one_of_ne_zero
    (show fuel ≠ 0 by omega)
  obtain ⟨hfirst, hnodup⟩ := List.nodup_cons.mp hnodup
  have hsafe' : file.SafeWithout contents ([foff] ++ foffs) := hsafe
  obtain ⟨index, file₁, contents₁, hdelete, herases₁⟩ :=
    h.delete_item hitem hsafe'.left
  have hson₁ : son.Laid (file₁.Stores contents₁) foff 0
      item.entity.famAddr.sonPtr foffs := by
    apply hson.congr
    intro foff' hmem item' hitem'
    refine herases₁.stores_iff.mpr ⟨fun heq => ?_, hitem'⟩
    rw [List.mem_singleton.mp heq] at hmem
    exact hfirst hmem
  obtain ⟨file₂, contents₂, hdeleteSon, herases₂⟩ :=
    @Holds.delete_relative _ _ _ _ _ _ rounds
      (decide (item.entity.famAddr.sonPtr ≠ 0)) herases₁.holds hson₁
      decide_eq_true_iff (fun hnull => herases₁.holds.delete_tree hson₁
        hnodup hnull (by omega) (hsafe'.right herases₁))
  refine ⟨file₂, contents₂, herases₁.trans herases₂, ?_⟩
  rw [fileDelete, Prog.bind_of_ok hdelete]
  dsimp only
  simp only [decide_eq_true_eq] at hdeleteSon
  rw [if_neg (by simp), Prog.bind_of_ok (Prog.pure_apply () file₁),
    Prog.bind_of_ok hdeleteSon]
  rfl

theorem Holds.delete_root {son : Json} {fuel : ℕ}
    (h : file.Holds contents.Spelled)
    (hitem : file.Stores contents foff item)
    (hdad : item.entity.famAddr.dadPtr = 0)
    (hson : son.Laid (file.Stores contents) foff 0
      item.entity.famAddr.sonPtr foffs)
    (hnodup : (foff :: foffs).Nodup) (hfuel : son.nodes.length < fuel)
    (hsafe : file.SafeWithout contents (foff :: foffs)) :
    ∃ file' contents', fileDelete fuel foff true file = .ok () file' ∧
      file.Erases contents (foff :: foffs) file' contents' := by
  obtain ⟨file', contents', herases, hdelete⟩ :=
    h.delete_below hitem hson hnodup hfuel hsafe
  refine ⟨_, contents', ?_, herases.synced⟩
  rw [hdelete, hdad]
  rfl

end Erase

end File

/-! ## The condition, from the bytes of the file -/

/-- The offsets at which `file_delete` deletes, one after the other. -/
def File.nodeFoffs (file : File) : ℕ → Bool → ℕ → List ℕ
  | 0, _, _ => []
  | fuel + 1, isRoot, foff =>
      let famAddr := (file.entityAt foff).famAddr
      foff ::
        ((if (!isRoot && famAddr.broPtr != 0) = true then
            file.nodeFoffs fuel false famAddr.broPtr else []) ++
          if famAddr.sonPtr ≠ 0 then
            file.nodeFoffs fuel false famAddr.sonPtr else [])

/-- After each deletion the lowest record that is left in its section, if
there is one with a byte, does not begin with a zero byte. -/
def File.BordersKept (file : File) (foffs : List ℕ) : Prop :=
  ∀ before foff after, foffs = before ++ foff :: after →
  ∀ index, ∀ sect ∈ file.sectAt .extents index,
    sect.head.fileOffset ≤ foff →
    foff < sect.head.fileOffset + SECTION_SIZE →
    sect.borderByte ((before ++ [foff]).map (· - sect.head.fileOffset)) ≠
      some 0

section Stored

variable {file : File} {contents : Contents} {json : Json}
  {dad typePtr foff fuel : ℕ} {foffs : List ℕ} {item : Item}

theorem File.nodeFoffs_relative {heap : Heap} {relative : Json} {ptr : ℕ}
    {goes : Bool} (hlaid : relative.Laid heap dad 0 ptr foffs)
    (hgoes : goes = true ↔ ptr ≠ 0)
    (hfoffs : relative.isNull = false →
      file.nodeFoffs fuel false ptr = foffs) :
    (if goes = true then file.nodeFoffs fuel false ptr else []) = foffs := by
  cases relative with
  | null => rw [hlaid.2, if_neg (fun hgo => hgoes.mp hgo hlaid.1)]
  | node key value bro son => rw [if_pos (hgoes.mpr hlaid.1), hfoffs rfl]

theorem File.Holds.nodeFoffs_tree (h : file.Holds contents.Spelled)
    (hlaid : json.Laid (file.Stores contents) dad typePtr foff foffs)
    (hnull : json.isNull = false) (hfuel : json.nodes.length ≤ fuel) :
    file.nodeFoffs fuel false foff = foffs := by
  induction json generalizing dad typePtr foff foffs fuel with
  | null => cases hnull
  | node key value bro son ihBro ihSon =>
      obtain ⟨-, item, broFoffs, sonFoffs, hitem, -, -, -, hbro, hson,
        rfl⟩ := hlaid
      rw [Json.nodes, List.length_cons, List.length_append] at hfuel
      obtain ⟨rounds, rfl⟩ := Nat.exists_eq_add_one_of_ne_zero
        (show fuel ≠ 0 by omega)
      have hsonFoffs := @File.nodeFoffs_relative file foff rounds sonFoffs _
        son _ (decide (item.entity.famAddr.sonPtr ≠ 0)) hson decide_eq_true_iff
        (fun hnull => ihSon hson hnull (by omega))
      simp only [decide_eq_true_eq] at hsonFoffs
      rw [File.nodeFoffs, h.entityAt hitem, hsonFoffs,
        File.nodeFoffs_relative hbro (by simp)
          (fun hnull => ihBro hbro hnull (by omega))]

theorem File.Holds.nodeFoffs_root {son : Json}
    (h : file.Holds contents.Spelled)
    (hitem : file.Stores contents foff item)
    (hson : son.Laid (file.Stores contents) foff 0
      item.entity.famAddr.sonPtr foffs) (hfuel : son.nodes.length < fuel) :
    file.nodeFoffs fuel true foff = foff :: foffs := by
  obtain ⟨rounds, rfl⟩ := Nat.exists_eq_add_one_of_ne_zero
    (show fuel ≠ 0 by omega)
  have hsonFoffs := @File.nodeFoffs_relative file foff rounds foffs _
    son _ (decide (item.entity.famAddr.sonPtr ≠ 0)) hson decide_eq_true_iff
    (fun hnull => h.nodeFoffs_tree hson hnull (by omega))
  simp only [decide_eq_true_eq] at hsonFoffs
  rw [File.nodeFoffs, h.entityAt hitem, hsonFoffs]
  rfl

theorem Items.outside_eq_without {items : Items} {low : ℕ} {gone : List ℕ}
    (hpos : ∀ soff item, items soff = some item → 0 < soff) :
    items.outside low gone = items.without (gone.map (· - low)) := by
  funext soff
  unfold Items.outside Items.without
  cases hitem : items soff with
  | none => simp
  | some item =>
      have hsoff := hpos soff item hitem
      apply if_congr _ rfl rfl
      rw [List.mem_map]
      constructor
      · exact fun hmem => ⟨low + soff, hmem, by omega⟩
      · rintro ⟨foff, hmem, heq⟩
        rw [show low + soff = foff by omega]
        exact hmem

theorem File.BordersKept.safe (hkept : file.BordersKept foffs)
    (h : file.Holds contents.Spelled) : file.SafeWithout contents foffs := by
  intro before foff after hsplit index head hhead hlow hhigh
  have hlayout : Layout ⟨head, file.storage⟩ (contents.exts index) :=
    h.sect hhead
  have hbyte := hkept before foff after hsplit index ⟨head, file.storage⟩
    (by rw [File.sectAt, hhead]; rfl) hlow hhigh
  rw [Items.outside_eq_without (fun soff item hitem => by
    have hslot := hlayout.slot hitem
    omega)]
  exact hlayout.toLoose.borderSafe_of_borderByte _ hbyte

end Stored

end NosqlDbms
