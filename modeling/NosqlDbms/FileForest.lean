import NosqlDbms.FileDelete
import NosqlDbms.FileTypes
import NosqlDbms.HeapForest
import Mathlib.Tactic

/-!
# Files that hold forests

`file_write` puts trees into the heap of the file, and whole ones only when
all of their nodes fit; `file_delete` of a node nothing leads to takes out its
tree.  Whatever is in the heap afterwards can be read.
-/

namespace NosqlDbms

/-- The offsets at which `file_write` puts entities, also when it fails. -/
def fileWritten : Json → ℕ → ℕ → File → List ℕ
  | .null, _, _, _ => []
  | .node key value bro son, dadFileoff, typeFoff, file =>
      match (do
        let found ← fileFit .extents fileAddSectExt
          (sectExtWrite key (jsonValPtr value)
            (entityInit key value dadFileoff 0 0 typeFoff))
        let wrtFoff ← fileSectFileoff .extents found.1 found.2.1
        return (found, wrtFoff) : Prog File _) file with
      | .ok (_, wrtFoff) file₁ =>
          wrtFoff :: (fileWritten bro dadFileoff 0 file₁ ++
            match (if bro.isNull then pure 0
              else fileWrite bro dadFileoff 0 : Prog File ℕ) file₁ with
            | .ok _ file₂ => fileWritten son wrtFoff 0 file₂
            | .failed _ => []
            | .stuck => [])
      | .failed _ => []
      | .stuck => []

namespace Heap

/-- The second heap has new items in the slots `written`. -/
structure GrowsBy (heap heap' : Heap) (written : List ℕ) : Prop where
  sound : heap'.Sound
  kept : ∀ {foff item}, heap foff item → heap' foff item
  live : ∀ foff, heap'.Live foff ↔ heap.Live foff ∨ foff ∈ written
  fresh : ∀ foff ∈ written, ¬ heap.Live foff
  links : ∀ {node kin next}, heap'.Linked node kin next →
    heap.Linked node kin next ∨ next ∈ written

namespace GrowsBy

variable {heap heap' heap'' : Heap} {written written' : List ℕ}
  {dad typePtr foff : ℕ} {item : Item}

theorem refl (h : heap.Sound) : heap.GrowsBy heap [] where
  sound := h
  kept := fun hitem => hitem
  live := fun foff => by simp
  fresh := fun foff hmem => absurd hmem List.not_mem_nil
  links := Or.inl

theorem trans (h : heap.GrowsBy heap' written)
    (h' : heap'.GrowsBy heap'' written') :
    heap.GrowsBy heap'' (written ++ written') where
  sound := h'.sound
  kept := fun hitem => h'.kept (h.kept hitem)
  live := fun foff => by rw [h'.live, h.live, List.mem_append, or_assoc]
  fresh := by
    intro foff hmem hlive
    rcases List.mem_append.mp hmem with hmem | hmem
    · exact h.fresh foff hmem hlive
    · exact h'.fresh foff hmem ((h.live foff).mpr (Or.inl hlive))
  links := by
    intro node kin next hlinked
    rcases h'.links hlinked with hlinked | hmem
    · exact (h.links hlinked).imp id (List.mem_append_left _)
    · exact Or.inr (List.mem_append_right _ hmem)

theorem unlinked (h : heap.GrowsBy heap' written) (hlive : heap.Live foff)
    (hroot : Unlinked heap.Linked foff) : Unlinked heap'.Linked foff := by
  intro node kin hlinked
  rcases h.links hlinked with hlinked | hmem
  · exact hroot node kin hlinked
  · exact h.fresh foff hmem hlive

theorem rooted (h : heap.GrowsBy heap' written)
    (hroot : heap.Rooted dad typePtr foff) :
    heap'.Rooted dad typePtr foff := by
  obtain ⟨item, hitem, hdad, htype⟩ := hroot.item
  exact ⟨h.unlinked ⟨item, hitem⟩ hroot.unlinked,
    item, h.kept hitem, hdad, htype⟩

theorem congr (h : heap.GrowsBy heap' written)
    (hheap : ∀ foff item, heap'' foff item ↔ heap' foff item) :
    heap.GrowsBy heap'' written := by
  have heq : heap'' = heap' := by
    funext foff item
    exact propext (hheap foff item)
  rw [heq]
  exact h

theorem link (h : heap.GrowsBy heap' written) (hsound : heap''.Sound)
    (hitem : heap' foff item) (hmem : foff ∈ written) {bro son : ℕ}
    (hbro : bro ≠ 0 → bro ∈ written) (hson : son ≠ 0 → son ∈ written)
    (hheap : ∀ foff' item', heap'' foff' item' ↔
      (foff' = foff ∧ item' = item.link bro son) ∨
        (foff' ≠ foff ∧ heap' foff' item')) :
    heap.GrowsBy heap'' written where
  sound := hsound
  kept := by
    intro foff' item' hold
    refine (hheap _ _).mpr (Or.inr ⟨?_, h.kept hold⟩)
    rintro rfl
    exact h.fresh _ hmem ⟨item', hold⟩
  live := by
    intro foff'
    rw [← h.live]
    constructor
    · rintro ⟨item', hitem'⟩
      rcases (hheap _ _).mp hitem' with ⟨rfl, -⟩ | ⟨-, hold⟩
      · exact ⟨item, hitem⟩
      · exact ⟨item', hold⟩
    · rintro ⟨item', hitem'⟩
      by_cases heq : foff' = foff
      · exact ⟨_, (hheap _ _).mpr (Or.inl ⟨heq, rfl⟩)⟩
      · exact ⟨item', (hheap _ _).mpr (Or.inr ⟨heq, hitem'⟩)⟩
  fresh := h.fresh
  links := by
    rintro node kin next ⟨hne, item', hitem', hptr⟩
    rcases (hheap _ _).mp hitem' with ⟨-, rfl⟩ | ⟨-, hold⟩
    · right
      cases kin with
      | bro =>
          have hptr' : bro = next := hptr
          rw [← hptr'] at hne ⊢
          exact hbro hne
      | son =>
          have hptr' : son = next := hptr
          rw [← hptr'] at hne ⊢
          exact hson hne
    · exact h.links ⟨hne, item', hold, hptr⟩

end GrowsBy

end Heap

namespace File

section Write

variable {file : File} {contents : Contents} {key : Str}
  {value : JsonValue} {bro son : Json} {dad typePtr index soff foff : ℕ}
  {item : Item} {file₁ file₂ : File} {contents₁ : Contents}

theorem NodePlaced.written
    (h : file.NodePlaced contents key value dad typePtr file₁ contents₁ index
      soff foff item) :
    fileWritten (.node key value bro son) dad typePtr file =
      foff :: (fileWritten bro dad 0 file₁ ++
        match (if bro.isNull then pure 0
          else fileWrite bro dad 0 : Prog File ℕ) file₁ with
        | .ok _ file₂ => fileWritten son foff 0 file₂
        | .failed _ => []
        | .stuck => []) := by
  rw [fileWritten, h.call_eq]

theorem NodePlaced.growsBy
    (h : file.NodePlaced contents key value dad typePtr file₁ contents₁ index
      soff foff item)
    (hsound : (file.Stores contents).Sound) :
    Heap.GrowsBy (file.Stores contents) (file₁.Stores contents₁) [foff] ∧
      (file₁.Stores contents₁).Rooted dad typePtr foff := by
  have hfresh : ¬ Heap.Live (file.Stores contents) foff :=
    fun ⟨item', hitem'⟩ => h.fresh item' hitem'
  have hheap : ∀ foff' item', file₁.Stores contents₁ foff' item' ↔
      (foff' = foff ∧ item' = item) ∨ file.Stores contents foff' item' := by
    intro foff' item'
    constructor
    · intro hitem'
      rcases h.only hitem' with rfl | hold
      · exact Or.inl ⟨rfl, h.grows.holds.stores_unique h.stores hitem'⟩
      · exact Or.inr hold
    · rintro (⟨rfl, rfl⟩ | hold)
      · exact h.stores
      · exact h.grows.stores hold
  have hptr : ∀ kin, item.kinPtr kin = 0 := by
    intro kin
    cases kin
    · exact congrArg (fun entity => entity.famAddr.broPtr) h.entity_eq
    · exact congrArg (fun entity => entity.famAddr.sonPtr) h.entity_eq
  obtain ⟨hsound₁, hlinked⟩ := hsound.add hfresh
    (h.grows.holds.stores_ne_zero h.stores) h.spells hptr hheap
  refine ⟨⟨hsound₁, h.grows.stores, fun foff' => ?_, ?_,
    fun hlink => Or.inl ((hlinked _ _ _).mp hlink)⟩, ?_, item, h.stores,
    congrArg (fun entity => entity.famAddr.dadPtr) h.entity_eq,
    congrArg Entity.typePtr h.entity_eq⟩
  · rw [List.mem_singleton]
    constructor
    · rintro ⟨item', hitem'⟩
      rcases (hheap _ _).mp hitem' with ⟨heq, -⟩ | hold
      · exact Or.inr heq
      · exact Or.inl ⟨item', hold⟩
    · rintro (⟨item', hold⟩ | rfl)
      · exact ⟨item', h.grows.stores hold⟩
      · exact ⟨item, h.stores⟩
  · intro foff' hmem
    rw [List.mem_singleton.mp hmem]
    exact hfresh
  · intro node kin hlink
    exact hsound.forest.unlinked_of_not_live hfresh node kin
      ((hlinked _ _ _).mp hlink)

/-- What is new points to this type or to none. -/
def NewTyped (heap heap' : Heap) (typePtr : ℕ) : Prop :=
  ∀ foff item, heap' foff item → heap foff item ∨
    item.entity.typePtr = typePtr ∨ item.entity.typePtr = 0

theorem NewTyped.trans {heap heap' heap'' : Heap}
    (h : NewTyped heap heap' typePtr) (h' : NewTyped heap' heap'' 0) :
    NewTyped heap heap'' typePtr := by
  intro foff item hitem
  rcases h' foff item hitem with hitem | hzero | hzero
  · exact h foff item hitem
  · exact Or.inr (Or.inr hzero)
  · exact Or.inr (Or.inr hzero)

theorem NodePlaced.newTyped
    (h : file.NodePlaced contents key value dad typePtr file₁ contents₁ index
      soff foff item) :
    NewTyped (file.Stores contents) (file₁.Stores contents₁) typePtr := by
  intro foff' item' hitem'
  rcases h.only hitem' with rfl | hold
  · right
    left
    rw [h.grows.holds.stores_unique h.stores hitem']
    exact congrArg Entity.typePtr h.entity_eq
  · exact Or.inl hold

/-- What a write comes to, null standing for no tree. -/
def WroteLaid (file : File) (contents : Contents) (json : Json)
    (dad typePtr : ℕ) (outcome : Outcome File ℕ) : Prop :=
  ∃ file' contents', file.Grows contents file' contents' ∧
    Heap.GrowsBy (file.Stores contents) (file'.Stores contents')
      (fileWritten json dad typePtr file) ∧
    NewTyped (file.Stores contents) (file'.Stores contents') typePtr ∧
    (outcome = .failed file' ∨ ∃ foff, outcome = .ok foff file' ∧
      json.Laid (file'.Stores contents') dad typePtr foff
        (fileWritten json dad typePtr file) ∧
      (foff ≠ 0 → (file'.Stores contents').Rooted dad typePtr foff))

/-- The induction is on the tree: the node, its brothers, its sons, and the
node again. -/
theorem Holds.write_laid {json : Json} (h : file.Holds contents.Spelled)
    (hsound : (file.Stores contents).Sound) (dad typePtr : ℕ) :
    file.WroteLaid contents json dad typePtr
      ((if json.isNull then pure 0 else fileWrite json dad typePtr :
        Prog File ℕ) file) := by
  induction json generalizing file contents dad typePtr with
  | null =>
      exact ⟨file, contents, .refl h, .refl hsound, fun _ _ => Or.inl,
        Or.inr ⟨0, rfl, ⟨rfl, rfl⟩, fun hne => absurd rfl hne⟩⟩
  | node key value bro son ihBro ihSon =>
      rw [Json.isNull, if_neg Bool.false_ne_true]
      rcases @Holds.place_node file contents key value dad typePtr h with
        ⟨file₁, contents₁, index, soff, foff, item, hnodePlaced⟩ |
        ⟨-, file', contents', hrefused, hgrows, honly⟩
      · obtain ⟨hgrowsBy₁, hrooted₁⟩ := hnodePlaced.growsBy hsound
        obtain ⟨file₂, contents₂, hgrows₂, hgrowsBy₂, htyped₂, houtcome₂⟩ :=
          ihBro hnodePlaced.grows.holds hgrowsBy₁.sound dad 0
        have htyped := hnodePlaced.newTyped.trans htyped₂
        rcases houtcome₂ with hbro | ⟨broPtr, hbro, hlaidBro, hrootBro⟩
        · refine ⟨file₂, contents₂, hnodePlaced.grows.trans hgrows₂, ?_, htyped,
            Or.inl ?_⟩
          · rw [hnodePlaced.written, hbro, List.append_nil]
            exact hgrowsBy₁.trans hgrowsBy₂
          · rw [fileWrite_nodePlaced hnodePlaced]
            exact Prog.bind_of_failed hbro
        · obtain ⟨file₃, contents₃, hgrows₃, hgrowsBy₃, htyped₃,
            houtcome₃⟩ := ihSon hgrows₂.holds hgrowsBy₂.sound foff 0
          have htyped := htyped.trans htyped₃
          have hgrowsBy := (hgrowsBy₁.trans hgrowsBy₂).trans hgrowsBy₃
          have hwritten : fileWritten (.node key value bro son) dad typePtr
              file = [foff] ++ fileWritten bro dad 0 file₁ ++
                fileWritten son foff 0 file₂ := by
            rw [hnodePlaced.written, hbro]
            rfl
          rcases houtcome₃ with hson | ⟨sonPtr, hson, hlaidSon, hrootSon⟩
          · refine ⟨file₃, contents₃,
              (hnodePlaced.grows.trans hgrows₂).trans hgrows₃, ?_, htyped,
              Or.inl ?_⟩
            · rw [hwritten]
              exact hgrowsBy
            · rw [fileWrite_nodePlaced hnodePlaced, writeRelatives,
                Prog.bind_of_ok hbro]
              exact Prog.bind_of_failed hson
          · obtain ⟨file₄, contents₄, hwrite, hgrows₄, hstores₄⟩ :=
              hnodePlaced.link hgrows₂ hgrows₃ hbro hson
            have hstores₃ := hgrows₃.stores (hgrows₂.stores hnodePlaced.stores)
            have hrooted₃ := hgrowsBy₃.rooted (hgrowsBy₂.rooted hrooted₁)
            have hlive₁ : Heap.Live (file₁.Stores contents₁) foff :=
              ⟨item, hnodePlaced.stores⟩
            have hlive₂ := (hgrowsBy₂.live foff).mpr (Or.inl hlive₁)
            have hdad : item.entity.famAddr.dadPtr = dad :=
              congrArg (fun entity => entity.famAddr.dadPtr)
                hnodePlaced.entity_eq
            have hbroNe : ∀ slot ∈ fileWritten bro dad 0 file₁,
                slot ≠ foff := by
              rintro slot hmem rfl
              exact hgrowsBy₂.fresh _ hmem hlive₁
            have hsonNe : ∀ slot ∈ fileWritten son foff 0 file₂,
                slot ≠ foff := by
              rintro slot hmem rfl
              exact hgrowsBy₃.fresh _ hmem hlive₂
            have hapart : broPtr = sonPtr → broPtr = 0 := by
              rintro rfl
              by_contra hne
              exact hgrowsBy₃.fresh _ (hlaidSon.mem_of_ne_zero hne)
                ((hgrowsBy₂.live _).mpr
                  (Or.inr (hlaidBro.mem_of_ne_zero hne)))
            have hsound₄ : Heap.Sound (file₄.Stores contents₄) := by
              refine hgrowsBy₃.sound.link hstores₃ hrooted₃.unlinked
                (fun hne => ⟨hbroNe _ (hlaidBro.mem_of_ne_zero hne), ?_⟩)
                (fun hne => ⟨hsonNe _ (hlaidSon.mem_of_ne_zero hne),
                  hrootSon hne⟩) hapart
                (fun _ _ => hstores₄)
              rw [hdad]
              exact hgrowsBy₃.rooted (hrootBro hne)
            have hgrowsBy₄ := hgrowsBy.link hsound₄ hstores₃
              (List.mem_append_left _ (List.mem_append_left _
                List.mem_cons_self))
              (fun hne => List.mem_append_left _ (List.mem_append_right _
                (hlaidBro.mem_of_ne_zero hne)))
              (fun hne => List.mem_append_right _
                (hlaidSon.mem_of_ne_zero hne))
              (fun _ _ => hstores₄)
            have hstored₄ := hstores₄.mpr (Or.inl ⟨rfl, rfl⟩)
            refine ⟨file₄, contents₄, hgrows₄, ?_, ?_, Or.inr ⟨foff, hwrite,
              ⟨hnodePlaced.grows.holds.stores_ne_zero hnodePlaced.stores,
                item.link broPtr sonPtr, _, _, hstored₄, hnodePlaced.spells,
                hdad, congrArg Entity.typePtr hnodePlaced.entity_eq,
                hlaidBro.congr ?_, hlaidSon.congr ?_, hwritten⟩,
              fun _ => ⟨?_, item.link broPtr sonPtr, hstored₄, hdad,
                congrArg Entity.typePtr hnodePlaced.entity_eq⟩⟩⟩
            · rw [hwritten]
              exact hgrowsBy₄
            · intro foff' item' hitem'
              rcases hstores₄.mp hitem' with ⟨-, rfl⟩ | ⟨-, hold⟩
              · exact Or.inr (Or.inl
                  (congrArg Entity.typePtr hnodePlaced.entity_eq))
              · exact htyped foff' item' hold
            · exact fun slot hmem item' hitem' => hstores₄.mpr
                (Or.inr ⟨hbroNe slot hmem, hgrowsBy₃.kept hitem'⟩)
            · exact fun slot hmem item' hitem' => hstores₄.mpr
                (Or.inr ⟨hsonNe slot hmem, hitem'⟩)
            · rintro node kin ⟨hne, item', hitem', hptr⟩
              rcases hstores₄.mp hitem' with ⟨-, rfl⟩ | ⟨-, hold⟩
              · cases kin with
                | bro =>
                    have hptr' : broPtr = foff := hptr
                    exact hbroNe _ (hlaidBro.mem_of_ne_zero
                      (by rw [hptr']; exact hne)) hptr'
                | son =>
                    have hptr' : sonPtr = foff := hptr
                    exact hsonNe _ (hlaidSon.mem_of_ne_zero
                      (by rw [hptr']; exact hne)) hptr'
              · exact hrooted₃.unlinked node kin ⟨hne, item', hold, hptr⟩
      · have hheap : ∀ foff' item', file'.Stores contents' foff' item' ↔
            file.Stores contents foff' item' :=
          fun _ _ => ⟨honly, hgrows.stores⟩
        refine ⟨file', contents', hgrows, ?_, fun _ _ hitem => Or.inl
          (honly hitem), Or.inl (fileWrite_refused hrefused)⟩
        rw [fileWritten, hrefused]
        exact (Heap.GrowsBy.refl hsound).congr hheap

end Write

section Delete

variable {file file' : File} {contents contents' : Contents}
  {depth foff : ℕ} {item : Item}

theorem Erases.catalogued_iff {gone : List ℕ} {entry : TypeEntry}
    (h : file.Erases contents gone file' contents') :
    file'.Catalogued contents' foff entry ↔
      file.Catalogued contents foff entry := by
  unfold Catalogued
  rw [h.cats]
  simp only [headAt_congr h.types]

/-- A root is deleted with its sons, and all trees can be read afterwards. -/
theorem Holds.delete_unlinked (h : file.Holds contents.Spelled)
    (hsound : (file.Stores contents).Sound) {typePtr : ℕ}
    (hroot : (file.Stores contents).Rooted 0 typePtr foff)
    (hdepth : ∀ foffs : List ℕ, foffs.Nodup →
      (∀ slot ∈ foffs, Heap.Live (file.Stores contents) slot) →
      foffs.length ≤ depth)
    (hsafe : file.SafeWithout contents (file.nodeFoffs depth true foff)) :
    ∃ file' contents', fileDelete depth foff true file = .ok () file' ∧
      file.Erases contents (file.nodeFoffs depth true foff) file'
        contents' ∧
      (file'.Stores contents').Sound := by
  obtain ⟨item, hitem, hdad, -⟩ := hroot.item
  obtain ⟨json, hnull, hstored⟩ := hsound.stored hitem
  obtain ⟨foffs, hlaid⟩ := hstored.laid
  have hnodup := hsound.nodup hlaid
  obtain ⟨son, sonFoffs, hson, hsub⟩ : ∃ son sonFoffs,
      Json.Laid (file.Stores contents) son foff 0
        item.entity.famAddr.sonPtr sonFoffs ∧
      (foff :: sonFoffs).Sublist foffs := by
    cases json with
    | null => cases hnull
    | node key value bro son =>
        obtain ⟨-, item', broFoffs, sonFoffs, hitem', -, -, -, -, hson,
          rfl⟩ := hlaid
        rw [hsound.functional foff item item' hitem hitem'] at hson
        exact ⟨son, sonFoffs, hson,
          (List.sublist_append_right broFoffs sonFoffs).cons_cons foff⟩
  have hnodup' := hnodup.sublist hsub
  have hlive : ∀ slot ∈ foff :: sonFoffs,
      Heap.Live (file.Stores contents) slot :=
    fun slot hmem => hlaid.live (hsub.subset hmem)
  have hlength := hdepth _ hnodup' hlive
  rw [List.length_cons, hson.length_eq] at hlength
  have hfuel : son.nodes.length < depth := by omega
  rw [h.nodeFoffs_root hitem hson hfuel] at hsafe ⊢
  obtain ⟨file', contents', hdelete, herases⟩ := h.delete_root hitem hdad
    hson hnodup' hfuel hsafe
  refine ⟨file', contents', hdelete, herases, ?_⟩
  exact hsound.erase (hsound.closed_root hitem hroot.unlinked hson)
    (fun _ _ => herases.stores_iff)

end Delete

end File

end NosqlDbms
