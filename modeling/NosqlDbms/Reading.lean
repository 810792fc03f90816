import NosqlDbms.ProgramLaws
import NosqlDbms.SectionsRun
import NosqlDbms.User
import Mathlib.Tactic

/-!
# What reading keeps

Reading, searching and walking with an iterator keep whatever reads and syncs
of single sections keep.  So they change no head of a section and not the
pointer behind the last one.  The bytes of a file may change: a read of a node
ends with a sync of its section.
-/

namespace NosqlDbms

open Prog

variable {α : Type}

/-! ## In a section -/

/-- Reads and syncs keep the invariant. -/
structure Sect.KeptByReads (inv : Sect → Prop) : Prop where
  read : ∀ soff size, (sectHeadRead soff size).Yields inv (fun _ => True)
  sync : sectHeadSync.Yields inv (fun _ => True)

theorem yields_getHead {inv : Sect → Prop} :
    Sect.getHead.Yields inv (fun _ => True) := by
  apply yields_of_final
  intro sect sect' hinv hfinal
  rw [Sect.getHead_apply, Outcome.final_ok, Option.some.injEq] at hfinal
  rw [← hfinal]
  exact hinv

namespace Sect.KeptByReads

variable {inv : Sect → Prop}

theorem extRead (h : KeptByReads inv) (soff : ℕ) :
    (sectExtRead soff).Yields inv (fun _ => True) := by
  have hitem : (sectExtRdItm soff).Yields inv (fun _ => True) :=
    (h.read soff _).bind (fun _ _ => follows_pure trivial)
  have hlast : ∀ (entity : Entity) (key : List Byte) (value : JsonValue),
      (do
        sectHeadSync
        return (entity, stringCtor key, value) : Prog Sect _).Yields inv
          (fun _ => True) :=
    fun _ _ _ => h.sync.bind (fun _ _ => follows_pure trivial)
  apply hitem.bind
  intro entity _
  apply (h.read _ _).bind
  intro key _
  split
  · exact follows_stuck
  · split
    · apply (follows_pure trivial : (pure [] : Prog Sect (List Byte)).Yields
        inv (fun _ => True)).bind
      intro data _
      dsimp only
      split
      · exact follows_stuck
      · exact hlast _ _ _
    · apply (h.read _ _).bind
      intro data _
      dsimp only
      split
      · exact follows_stuck
      · exact hlast _ _ _

theorem extLoad (h : KeptByReads inv) :
    sectExtLoad.Yields inv (fun _ => True) := by
  have hslots : ∀ soffs,
      (sectExtLoadSlots soffs).Yields inv (fun _ => True) := by
    intro soffs
    induction soffs with
    | nil => exact follows_pure trivial
    | cons soff rest ih =>
        apply yields_getHead.bind
        intro head _
        apply (h.extRead soff).status.bind
        intro entry _
        apply ih.bind
        intro found _
        split
        · exact follows_pure trivial
        · exact follows_pure trivial
  exact yields_getHead.bind (fun head _ => hslots _)

theorem typesReadName (h : KeptByReads inv) (soff : ℕ) :
    (sectTypesReadName soff).Yields inv (fun _ => True) := by
  have htype : (sectTypesRdType soff).Yields inv (fun _ => True) :=
    (h.read soff _).bind (fun _ _ => follows_pure trivial)
  apply htype.bind
  intro entity _
  exact (h.read _ _).bind (fun _ _ => follows_pure trivial)

end Sect.KeptByReads

theorem keeps_getHead : Sect.getHead.Keeps Sect.head :=
  keeps_of_yields (fun _ => yields_getHead)

theorem keeps_onFile (call : Prog Storage α) :
    (Sect.onFile call).Keeps Sect.head :=
  keeps_zoom call (fun _ _ => rfl)

theorem keeps_sectHeadWrite (soff : ℕ) (data : List Byte) :
    (sectHeadWrite soff data).Keeps Sect.head := by
  apply keeps_getHead.bind
  intro head
  split
  · exact keeps_onFile _
  · exact keeps_pure _

theorem keptByReads_head (head : SectHead) :
    Sect.KeptByReads (fun sect => sect.head = head) where
  read := by
    intro soff size
    apply Keeps.yields
    apply keeps_getHead.bind
    intro head
    split
    · exact keeps_onFile _
    · exact keeps_pure _
  sync := (keeps_getHead.bind (fun _ => keeps_onFile _)).yields head

/-! ## In a file -/

/-- Reads of nodes and of the names of types keep the invariant. -/
structure KeptBySearch (inv : File → Prop) : Prop where
  node : ∀ index soff, (File.onSect .extents index (sectExtRead soff)).Yields
    inv (fun _ => True)
  load : ∀ index, (File.onSect .extents index sectExtLoad).Yields inv
    (fun _ => True)
  name : ∀ index soff,
    (File.onSect .types index (sectTypesReadName soff)).Yields inv
      (fun _ => True)

/-- What a search for the query gives: read in a file with the invariant, and
it passes the check. -/
def Searched (inv : File → Prop) (past : Str → List Byte)
    (depth : ℕ) (query : Query) (found : Found) : Prop :=
  ∃ name,
    (∃ file file', inv file ∧ inv file' ∧
      fileRead depth found.foff file = .ok (found.json, found.entity) file') ∧
    (∃ file file', inv file ∧ inv file' ∧
      fileReadTypeName found.entity.typePtr file = .ok name file') ∧
    queryCheck past query found.json name = some true

theorem yields_fileAt {inv : File → Prop} {kind : SectKind}
    {call : ℕ → Prog Sect α}
    (hcall : ∀ index soff, (File.onSect kind index (call soff)).Yields inv
      (fun _ => True)) (foff : ℕ) :
    (fileAt kind foff call).Yields inv (fun _ => True) := by
  have hsect : (getSect kind foff).Yields inv (fun _ => True) :=
    follows_get.bind (fun _ _ => follows_pure trivial)
  apply hsect.bind
  intro index _
  cases index with
  | none => exact follows_fail
  | some index =>
      apply (follows_sectHead index).bind
      intro head _
      exact (hcall index _).bind (fun _ _ => follows_pure trivial)

namespace KeptBySearch

variable {inv : File → Prop}

theorem fileRead (h : KeptBySearch inv) (fuel foff : ℕ) :
    (NosqlDbms.fileRead fuel foff).Yields inv (fun _ => True) := by
  induction fuel generalizing foff with
  | zero => exact follows_stuck
  | succ fuel ih =>
      have hrelative : ∀ (json : Json) (ptr : ℕ)
          (add : Json → Json → Json),
          (if ptr ≠ 0 then do
              let read ← NosqlDbms.fileRead fuel ptr
              pure (add json read.1)
            else pure json : Prog File Json).Yields inv
              (fun _ => True) := by
        intro json ptr add
        split
        · exact (ih ptr).bind (fun _ _ => follows_pure trivial)
        · exact follows_pure trivial
      apply (yields_fileAt h.node foff).bind
      intro read _
      apply (hrelative _ _ jsonAddBro).bind
      intro json _
      apply (hrelative _ _ jsonAddSon).bind
      intro json _
      exact follows_pure trivial

theorem typeName (h : KeptBySearch inv) (foff : ℕ) :
    (fileReadTypeName foff).Yields inv (fun _ => True) :=
  (yields_fileAt h.name foff).status.bind (fun _ _ => follows_pure trivial)

section Past

variable (past : Str → List Byte) (depth : ℕ) (query : Query)

theorem findFrom (h : KeptBySearch inv) (foffs : List ℕ) :
    (fileFindFrom past depth query foffs).Yields inv
      (fun all => ∀ found ∈ all, Searched inv past depth query found) := by
  induction foffs with
  | nil => exact follows_pure (fun found hmem => absurd hmem List.not_mem_nil)
  | cons foff rest ih =>
      apply (h.fileRead depth foff).runs.status.bind
      intro read hread
      cases read with
      | none =>
          exact follows_pure
            (fun found hmem => absurd hmem List.not_mem_nil)
      | some read =>
          apply (h.typeName _).runs.bind
          intro name hname
          cases hcheck : queryCheck past query read.1 name with
          | none => exact follows_stuck
          | some passes =>
              cases passes with
              | false => exact ih
              | true =>
                  apply ih.bind
                  intro all hall
                  apply follows_pure
                  intro found hmem
                  rcases List.mem_cons.mp hmem with rfl | hmem
                  · exact ⟨name, hread read rfl, hname, hcheck⟩
                  · exact hall found hmem

variable {query} {post : Found → Prop}

theorem find (h : KeptBySearch inv)
    (hpost : ∀ found, Searched inv past depth query found → post found)
    (index : ℕ) : (fileFind past depth index query).Yields inv
      (fun all => ∀ found ∈ all, post found) := by
  apply (h.load index).status.bind
  intro foffs _
  cases foffs with
  | none =>
      exact follows_pure (fun found hmem => absurd hmem List.not_mem_nil)
  | some foffs =>
      apply (h.findFrom past depth query foffs).mono
      intro all hall found hmem
      exact hpost found (hall found hmem)

/-- An iterator for the query, and what it holds has the property. -/
structure Holding (query : Query) (post : Found → Prop) (iter : Iter) :
    Prop where
  query_eq : iter.query = query
  held : ∀ found ∈ iter.curCol, post found

theorem iterCtor (h : KeptBySearch inv)
    (hpost : ∀ found, Searched inv past depth query found → post found) :
    (NosqlDbms.iterCtor past depth query).Yields inv
      (Holding query post) := by
  have hloop : ∀ count index,
      (iterCtorFrom past depth query count index).Yields inv
        (Holding query post) := by
    intro count
    induction count with
    | zero =>
        exact fun index => follows_pure
          ⟨rfl, fun found hmem => absurd hmem List.not_mem_nil⟩
    | succ count ih =>
        intro index
        apply (h.find past depth hpost index).bind
        intro all hall
        split
        · exact follows_pure ⟨rfl, hall⟩
        · exact ih (index + 1)
  exact follows_get.bind (fun file _ => hloop _ 0)

theorem iterNext (h : KeptBySearch inv)
    (hpost : ∀ found, Searched inv past depth query found → post found)
    {iter : Iter} (hiter : Holding query post iter) :
    (NosqlDbms.iterNext past depth iter).Yields inv
      (Holding query post) := by
  obtain ⟨rfl, hheld⟩ := hiter
  have hloop : ∀ count index,
      (iterNextFrom past depth iter.query count index).Yields inv
        (Holding iter.query post) := by
    intro count
    induction count with
    | zero =>
        exact fun index => follows_pure
          ⟨rfl, fun found hmem => absurd hmem List.not_mem_nil⟩
    | succ count ih =>
        intro index
        apply (h.find past depth hpost (index + 1)).bind
        intro all hall
        split
        · exact follows_pure ⟨rfl, hall⟩
        · exact ih (index + 1)
  rw [NosqlDbms.iterNext]
  split
  · exact follows_get.bind (fun file _ => hloop _ _)
  · exact follows_pure ⟨rfl, fun found hmem =>
      hheld found (List.mem_of_mem_tail hmem)⟩

theorem collectFrom (h : KeptBySearch inv)
    (hpost : ∀ found, Searched inv past depth query found → post found)
    (rounds : ℕ) {iter : Iter} (hiter : Holding query post iter) :
    (Network.collectFrom past depth rounds iter).Yields inv
      (fun all => ∀ found ∈ all, post found) := by
  induction rounds generalizing iter with
  | zero => exact follows_stuck
  | succ rounds ih =>
      rw [Network.collectFrom]
      split
      · exact follows_pure (fun found hmem => absurd hmem List.not_mem_nil)
      · next held rest hcol =>
          apply (h.iterNext past depth hpost hiter).bind
          intro iter' hiter'
          apply (ih hiter').bind
          intro all hall
          apply follows_pure
          intro found hmem
          rcases List.mem_cons.mp hmem with rfl | hmem
          · exact hiter.held found (by rw [hcol]; exact List.mem_cons_self)
          · exact hall found hmem

end Past

end KeptBySearch

/-! ## Heads -/

/-- What a file is without its bytes. -/
def File.heads (file : File) : ℕ × List SectHead × List SectHead :=
  (file.lstSectPtr, file.extents, file.types)

theorem File.heads_putSect {file : File} {kind : SectKind} {index : ℕ}
    {head : SectHead} {sect' : Sect}
    (hhead : file.headAt kind index = some head)
    (heq : sect'.head = head) :
    (file.putSect kind index sect').heads = file.heads := by
  have hsects := File.sects_putSect_of_head hhead heq
  have hextents : (file.putSect kind index sect').extents = file.extents :=
    hsects .extents
  have htypes : (file.putSect kind index sect').types = file.types :=
    hsects .types
  rw [heads, heads, hextents, htypes, putSect_lstSectPtr]

theorem yields_of_putSect {inv : File → Prop} {kind : SectKind}
    {index : ℕ} {call : Prog Sect α}
    (hput : ∀ file head sect', inv file →
      file.headAt kind index = some head →
      (call ⟨head, file.storage⟩).final = some sect' →
      inv (file.putSect kind index sect')) :
    (File.onSect kind index call).Yields inv (fun _ => True) := by
  apply yields_of_final
  intro file file' hinv hfinal
  cases hcall : File.onSect kind index call file with
  | ok value file₁ =>
      obtain ⟨head, sect', hhead, hsect, rfl⟩ := onSect_eq_ok hcall
      rw [hcall, Outcome.final_ok, Option.some.injEq] at hfinal
      rw [← hfinal]
      exact hput file head sect' hinv hhead (by rw [hsect, Outcome.final_ok])
  | failed file₁ =>
      obtain ⟨head, sect', hhead, hsect, rfl⟩ := onSect_eq_failed hcall
      rw [hcall, Outcome.final_failed, Option.some.injEq] at hfinal
      rw [← hfinal]
      exact hput file head sect' hinv hhead
        (by rw [hsect, Outcome.final_failed])
  | stuck =>
      rw [hcall] at hfinal
      cases hfinal

theorem keeps_of_putSect {τ : Type} {view : File → τ} {kind : SectKind}
    {index : ℕ} {call : Prog Sect α}
    (hput : ∀ file head sect', file.headAt kind index = some head →
      (call ⟨head, file.storage⟩).final = some sect' →
      view (file.putSect kind index sect') = view file) :
    (File.onSect kind index call).Keeps view := by
  apply keeps_of_yields
  intro shown
  apply yields_of_putSect
  intro file head sect' hshown hhead hfinal
  rw [hput file head sect' hhead hfinal, hshown]

theorem keptBySearch_heads (heads : ℕ × List SectHead × List SectHead) :
    KeptBySearch (fun file => file.heads = heads) := by
  have hcall : ∀ {kind : SectKind} {index : ℕ} {α : Type}
      {call : Prog Sect α},
      (∀ head, call.Yields (fun sect => sect.head = head)
        (fun _ => True)) →
      (File.onSect kind index call).Yields
        (fun file => file.heads = heads) (fun _ => True) := by
    intro kind index α call hyields
    apply yields_of_putSect
    intro file head sect' hheads hhead hfinal
    have hsame := ((hyields head).final rfl hfinal).1
    rw [File.heads_putSect hhead hsame, hheads]
  constructor
  · exact fun index soff => hcall (fun head =>
      (keptByReads_head head).extRead soff)
  · exact fun index => hcall (fun head => (keptByReads_head head).extLoad)
  · exact fun index soff => hcall (fun head =>
      (keptByReads_head head).typesReadName soff)

theorem keeps_sectHead (kind : SectKind) (index : ℕ) :
    (File.sectHead kind index).Keeps File.heads :=
  keeps_of_yields (fun _ => follows_sectHead index)

section Past

variable (past : Str → List Byte) (depth : ℕ)

theorem keeps_fileFind (query : Query) (index : ℕ) :
    (fileFind past depth index query).Keeps File.heads :=
  keeps_of_yields (fun heads =>
    (keptBySearch_heads heads).find past depth (fun _ _ => trivial) index)

theorem keeps_iterCtor (query : Query) :
    (iterCtor past depth query).Keeps File.heads :=
  keeps_of_yields (fun heads =>
    (keptBySearch_heads heads).iterCtor past depth (fun _ _ => trivial))

theorem keeps_iterNext (iter : Iter) :
    (iterNext past depth iter).Keeps File.heads :=
  keeps_of_yields (fun heads =>
    (keptBySearch_heads heads).iterNext past depth (fun _ _ => trivial)
      ⟨rfl, fun _ _ => trivial⟩)

theorem keeps_collectFrom (rounds : ℕ) (iter : Iter) :
    (Network.collectFrom past depth rounds iter).Keeps File.heads :=
  keeps_of_yields (fun heads =>
    (keptBySearch_heads heads).collectFrom past depth (fun _ _ => trivial)
      rounds ⟨rfl, fun _ _ => trivial⟩)

end Past

end NosqlDbms
