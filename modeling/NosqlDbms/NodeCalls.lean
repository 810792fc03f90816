import NosqlDbms.Catalogue
import NosqlDbms.Finding
import Mathlib.Tactic

/-!
# What commands do to the entities

A command searches the file and, in between, writes and deletes objects.  These
calls, each with the file it is made on, keep the account of the entities that
are live: written, and not deleted since.
-/

namespace NosqlDbms

/-- A call of `file_write` or of `file_delete`. -/
inductive NodeCall where
  | write (json : Json) (dadFileoff typeFoff : ℕ)
  | delete (depth foff : ℕ)

abbrev NodeCalls : Type := List (File × NodeCall)

def Outcome.nodeCalls {α : Type} (outcome : Outcome File α)
    (next : α → File → NodeCalls) : NodeCalls :=
  match outcome with
  | .ok value file => next value file
  | .failed _ => []
  | .stuck => []

section Past

variable (past : Str → List Byte) (depth : ℕ)

/-- Those of the loop of `user_delete`. -/
def deleteNodeCallsFrom : ℕ → Iter → File → NodeCalls
  | 0, _ => fun _ => []
  | rounds + 1, iter =>
      match iter.curCol with
      | [] => fun _ => []
      | found :: _ => fun file =>
          (file, .delete depth found.foff) ::
            (fileDelete depth found.foff true file).nodeCalls (fun _ file =>
              (iterNext past depth iter file).nodeCalls (deleteNodeCallsFrom rounds))

/-- Those of the loop of `user_update`. -/
def updateNodeCallsFrom (newJson : Json) : ℕ → Iter → File → NodeCalls
  | 0, _ => fun _ => []
  | rounds + 1, iter =>
      match iter.curCol with
      | [] => fun _ => []
      | found :: _ => fun file =>
          let dadPtr := found.entity.famAddr.dadPtr
          let typePtr := found.entity.typePtr
          (file, .delete depth found.foff) ::
            (fileDelete depth found.foff true file).nodeCalls (fun _ file =>
              (file, .write newJson dadPtr typePtr) ::
                (fileWrite newJson dadPtr typePtr file).nodeCalls (fun _ file =>
                  (iterNext past depth iter file).nodeCalls
                    (updateNodeCallsFrom newJson rounds)))

/-- Those of `user_write`. -/
def insertNodeCalls (command : Command) (file : File) : NodeCalls :=
  (fileFindType command.typeName file).nodeCalls (fun found file =>
    if jsonIsApplyType command.json found.2.2 then
      (fileSectFileoff .types found.1 found.2.1 file).nodeCalls
        (fun typeFoff file => [(file, .write command.json 0 typeFoff)])
    else [])

/-- Those of `user_apply`. -/
def commandNodeCalls (rounds : ℕ) (command : Command) (file : File) : NodeCalls :=
  match command.type with
  | .insert => insertNodeCalls command file
  | .read => []
  | .update => (iterCtor past depth command.query file).nodeCalls
      (updateNodeCallsFrom past depth command.json rounds)
  | .delete => (iterCtor past depth command.query file).nodeCalls
      (deleteNodeCallsFrom past depth rounds)

end Past

def NodeCall.note (live : List ℕ) (file : File) : NodeCall → List ℕ
  | .write json dadFileoff typeFoff =>
      fileWritten json dadFileoff typeFoff file ++ live
  | .delete depth foff =>
      live.filter (fun slot => slot ∉ file.nodeFoffs depth true foff)

def NodeCalls.note : List ℕ → NodeCalls → List ℕ
  | live, [] => live
  | live, (file, nodeCall) :: rest => NodeCalls.note (nodeCall.note live file) rest

/-- A test that each node call has to pass, given what is live before it. -/
def NodeCalls.All (test : List ℕ → File → NodeCall → Prop) : List ℕ → NodeCalls → Prop
  | _, [] => True
  | live, (file, nodeCall) :: rest =>
      test live file nodeCall ∧ NodeCalls.All test (nodeCall.note live file) rest

def NodeCalls.passes (test : List ℕ → File → NodeCall → Bool) :
    List ℕ → NodeCalls → Bool
  | _, [] => true
  | live, (file, nodeCall) :: rest =>
      test live file nodeCall && NodeCalls.passes test (nodeCall.note live file) rest

/-- An entity that is live, without a dad and nobody's brother. -/
def File.IsRoot (file : File) (live : List ℕ) (foff : ℕ) : Prop :=
  foff ∈ live ∧ (file.entityAt foff).famAddr.dadPtr = 0 ∧
    ∀ other ∈ live, (file.entityAt other).famAddr.broPtr ≠ foff

/-- What is deleted is a root, and there is room for the recursion. -/
def NodeCall.HitsRoot (live : List ℕ) (file : File) : NodeCall → Prop
  | .write _ _ _ => True
  | .delete depth foff => file.IsRoot live foff ∧ live.length ≤ depth

def NodeCall.rootTest (live : List ℕ) (file : File) : NodeCall → Bool
  | .write _ _ _ => true
  | .delete depth foff =>
      live.contains foff && (file.entityAt foff).famAddr.dadPtr == 0 &&
        live.all (fun other => (file.entityAt other).famAddr.broPtr != foff) &&
        decide (live.length ≤ depth)

theorem NodeCall.hitsRoot_of_test {live : List ℕ} {file : File} {nodeCall : NodeCall}
    (htest : nodeCall.rootTest live file = true) : nodeCall.HitsRoot live file := by
  cases nodeCall with
  | write json dadFileoff typeFoff => trivial
  | delete depth foff =>
      simp only [rootTest, Bool.and_eq_true, List.contains_iff_mem,
        beq_iff_eq, List.all_eq_true, bne_iff_ne, decide_eq_true_eq] at htest
      obtain ⟨⟨⟨hmem, hdad⟩, hbro⟩, hdepth⟩ := htest
      exact ⟨⟨hmem, hdad, hbro⟩, hdepth⟩

/-- A deletion leaves no lowest record behind that begins with a zero byte. -/
def NodeCall.KeepsBorders (file : File) : NodeCall → Prop
  | .write _ _ _ => True
  | .delete depth foff =>
      file.BordersKept (file.nodeFoffs depth true foff)

theorem NodeCalls.note_append (live : List ℕ) (nodeCalls nodeCalls' : NodeCalls) :
    NodeCalls.note live (nodeCalls ++ nodeCalls') =
      NodeCalls.note (NodeCalls.note live nodeCalls) nodeCalls' := by
  induction nodeCalls generalizing live with
  | nil => rfl
  | cons first rest ih => exact ih (first.2.note live first.1)

theorem NodeCalls.all_append {test : List ℕ → File → NodeCall → Prop}
    {live : List ℕ} {nodeCalls nodeCalls' : NodeCalls} :
    NodeCalls.All test live (nodeCalls ++ nodeCalls') ↔ NodeCalls.All test live nodeCalls ∧
      NodeCalls.All test (NodeCalls.note live nodeCalls) nodeCalls' := by
  induction nodeCalls generalizing live with
  | nil => exact (true_and _).symm.to_iff
  | cons first rest ih =>
      rw [List.cons_append, NodeCalls.All, NodeCalls.All, ih, and_assoc]
      rfl

theorem NodeCalls.All.and {test test' : List ℕ → File → NodeCall → Prop}
    {live : List ℕ} {nodeCalls : NodeCalls} (h : NodeCalls.All test live nodeCalls)
    (h' : NodeCalls.All test' live nodeCalls) :
    NodeCalls.All (fun live file nodeCall =>
      test live file nodeCall ∧ test' live file nodeCall) live nodeCalls := by
  induction nodeCalls generalizing live with
  | nil => trivial
  | cons first rest ih => exact ⟨⟨h.1, h'.1⟩, ih h.2 h'.2⟩

theorem NodeCalls.all_of_passes {test : List ℕ → File → NodeCall → Prop}
    {passes : List ℕ → File → NodeCall → Bool} {live : List ℕ} {nodeCalls : NodeCalls}
    (hall : NodeCalls.passes passes live nodeCalls = true)
    (htest : ∀ {live file nodeCall}, passes live file nodeCall = true →
      test live file nodeCall) : NodeCalls.All test live nodeCalls := by
  induction nodeCalls generalizing live with
  | nil => trivial
  | cons first rest ih =>
      rw [NodeCalls.passes, Bool.and_eq_true] at hall
      exact ⟨htest hall.1, ih hall.2⟩

/-! ## Calls that write and delete -/

section Does

variable {α β : Type} {inv : File → List ℕ → Prop}
  {test : List ℕ → File → NodeCall → Prop} {post : α → Prop}

/-- The call keeps the invariant when its node calls pass the test, and its
value has the property. -/
structure Prog.Does (inv : File → List ℕ → Prop)
    (test : List ℕ → File → NodeCall → Prop) (post : α → Prop)
    (call : Prog File α) (nodeCalls : File → NodeCalls) : Prop where
  final : ∀ {file file' live}, inv file live →
    NodeCalls.All test live (nodeCalls file) → (call file).final = some file' →
    inv file' (NodeCalls.note live (nodeCalls file))
  value : ∀ {file file' live value}, inv file live →
    NodeCalls.All test live (nodeCalls file) → call file = .ok value file' →
    post value

namespace Prog

theorem final_bind_pure {σ : Type} (call : Prog σ α) (result : α → β)
    (state : σ) :
    ((do return result (← call) : Prog σ β) state).final =
      (call state).final := by
  rw [bind_apply]
  cases call state <;> rfl

theorem does_of_yields {call : Prog File α}
    (h : ∀ live, call.Yields (fun file => inv file live) post) :
    call.Does inv test post (fun _ => []) where
  final := fun {_ _ live} hinv _ hfinal => ((h live).final hinv hfinal).1
  value := fun {_ _ live _} hinv _ hok => ((h live).ok hinv hok).2

theorem does_pure {value : α} (hvalue : post value) :
    (pure value : Prog File α).Does inv test post (fun _ => []) :=
  does_of_yields (fun _ => follows_pure hvalue)

theorem Does.bind {call : Prog File α} {next : α → Prog File β}
    {post' : β → Prop} {nodeCalls : File → NodeCalls} {nodeCalls' : α → File → NodeCalls}
    (h : call.Does inv test post nodeCalls)
    (hnext : ∀ value, post value →
      (next value).Does inv test post' (nodeCalls' value)) :
    (call >>= next).Does inv test post'
      (fun file => nodeCalls file ++ (call file).nodeCalls nodeCalls') where
  final := by
    intro file file' live hinv htest hfinal
    rw [NodeCalls.all_append] at htest
    rw [NodeCalls.note_append]
    cases hcall : call file with
    | ok value file₁ =>
        rw [bind_of_ok hcall] at hfinal
        rw [hcall] at htest
        exact (hnext value (h.value hinv htest.1 hcall)).final
          (h.final hinv htest.1 (by rw [hcall, Outcome.final_ok])) htest.2
          hfinal
    | failed file₁ =>
        rw [bind_of_failed hcall] at hfinal
        exact h.final hinv htest.1 (by rw [hcall]; exact hfinal)
    | stuck =>
        rw [bind_apply, hcall] at hfinal
        cases hfinal
  value := by
    intro file file' live value hinv htest hok
    obtain ⟨first, file₁, hcall, hrest⟩ := bind_eq_ok hok
    rw [NodeCalls.all_append, hcall] at htest
    exact (hnext first (h.value hinv htest.1 hcall)).value
      (h.final hinv htest.1 (by rw [hcall, Outcome.final_ok])) htest.2 hrest

theorem does_nodeCall {call : Prog File α} {nodeCall : NodeCall}
    (h : ∀ {file file' live}, inv file live → test live file nodeCall →
      (call file).final = some file' → inv file' (nodeCall.note live file)) :
    call.Does inv test (fun _ => True) (fun file => [(file, nodeCall)]) where
  final := fun hinv htest hfinal => h hinv htest.1 hfinal
  value := fun _ _ _ => trivial

end Prog

section Loop

variable {past : Str → List Byte} {depth : ℕ}

theorem userDeleteFrom_does
    (hsearch : ∀ live, KeptBySearch (fun file => inv file live))
    (hdelete : ∀ {file file' : File} {live : List ℕ} {foff : ℕ},
      inv file live → test live file (.delete depth foff) →
      (fileDelete depth foff true file).final = some file' →
      inv file' ((NodeCall.delete depth foff).note live file))
    (rounds : ℕ) (iter : Iter) :
    (userDeleteFrom past depth rounds iter).Does inv test (fun _ => True)
      (deleteNodeCallsFrom past depth rounds iter) := by
  induction rounds generalizing iter with
  | zero => exact Prog.does_of_yields (fun _ => Prog.follows_stuck)
  | succ rounds ih =>
      unfold userDeleteFrom deleteNodeCallsFrom
      cases iter.curCol with
      | nil => exact Prog.does_pure trivial
      | cons found rest =>
          have hnext : (iterNext past depth iter).Does inv test
              (KeptBySearch.Holding iter.query (fun _ => True)) (fun _ => []) :=
            Prog.does_of_yields (fun live => (hsearch live).iterNext past
              depth (fun _ _ => trivial) ⟨rfl, fun _ _ => trivial⟩)
          exact (Prog.does_nodeCall hdelete).bind
            (fun _ _ => hnext.bind (fun iter' _ => ih iter'))

theorem userDelete_does
    (hsearch : ∀ live, KeptBySearch (fun file => inv file live))
    (hdelete : ∀ {file file' : File} {live : List ℕ} {foff : ℕ},
      inv file live → test live file (.delete depth foff) →
      (fileDelete depth foff true file).final = some file' →
      inv file' ((NodeCall.delete depth foff).note live file))
    (rounds : ℕ) (query : Query) :
    (userDelete past depth rounds query).Does inv test (fun _ => True)
      (fun file => (iterCtor past depth query file).nodeCalls
        (deleteNodeCallsFrom past depth rounds)) := by
  have hctor : (iterCtor past depth query).Does inv test
      (KeptBySearch.Holding query (fun _ => True)) (fun _ => []) :=
    Prog.does_of_yields (fun live => (hsearch live).iterCtor past depth
      (fun _ _ => trivial))
  exact hctor.bind
    (fun iter _ => userDeleteFrom_does hsearch hdelete rounds iter)

end Loop

end Does

/-! ## The invariant -/

theorem keptBySearch_of_sameAs {inv : File → Contents → Prop}
    (hholds : ∀ {file contents}, inv file contents →
      file.Holds contents.Spelled)
    (hsameAs : ∀ {file file' contents}, inv file contents →
      file.SameAs contents file' → inv file' contents) :
    KeptBySearch (fun file => ∃ contents, inv file contents) := by
  have hkept : ∀ {α : Type} {call : Prog File α},
      (∀ (file : File) (contents : Contents),
        call.Yields (file.SameAs contents) (fun _ => True)) →
      call.Yields (fun file => ∃ contents, inv file contents)
        (fun _ => True) := by
    intro α call hcall
    apply Prog.yields_of_final
    rintro file file' ⟨contents, h⟩ hfinal
    exact ⟨contents, hsameAs h
      ((hcall file contents).final (.refl (hholds h)) hfinal).1⟩
  exact ⟨fun index soff => hkept (fun _ _ => keptBySearch_sameAs.node _ _),
    fun index => hkept (fun _ _ => keptBySearch_sameAs.load _),
    fun index soff => hkept (fun _ _ => keptBySearch_sameAs.name _ _)⟩

structure LiveInv (file : File) (live : List ℕ) (contents : Contents) :
    Prop where
  holds : file.Holds contents.Spelled
  sound : (file.Stores contents).Sound
  live : ∀ foff, Heap.Live (file.Stores contents) foff ↔ foff ∈ live
  typed : ∀ foff item, file.Stores contents foff item →
    file.Typed contents item
  uncleared : ∀ index, none ∉ contents.cats index

namespace LiveInv

variable {file file' : File} {live : List ℕ} {contents contents' : Contents}

theorem init {file₀ : File} (hctor : fileCtor file₀ = .ok () file) :
    LiveInv file [] ⟨fun _ _ => none, fun _ => []⟩ := by
  obtain ⟨file', hctor', hholds, hempty, -⟩ := fileCtor_holds file₀
  rw [hctor'] at hctor
  injection hctor with _ hfile
  rw [hfile] at hholds
  have hnone : ∀ foff item, ¬ file.Stores
      ⟨fun _ _ => none, fun _ => []⟩ foff item := by
    rintro foff item ⟨index, head, soff, -, hitem, -⟩
    cases hitem
  refine ⟨hholds, .of_empty hnone, fun foff => ?_, ?_, fun _ => List.not_mem_nil⟩
  · refine ⟨?_, fun hmem => absurd hmem List.not_mem_nil⟩
    rintro ⟨item, hitem⟩
    exact absurd hitem (hnone foff item)
  · exact fun foff item hitem => absurd hitem (hnone foff item)

theorem sameAs (h : LiveInv file live contents)
    (hsameAs : file.SameAs contents file') : LiveInv file' live contents where
  holds := hsameAs.holds
  sound := h.sound.congr (fun _ _ => hsameAs.stores_iff)
  live := by
    intro foff
    rw [← h.live]
    exact exists_congr (fun _ => hsameAs.stores_iff)
  typed := by
    intro foff item hitem
    rcases h.typed foff item (hsameAs.stores_iff.mp hitem) with
      hzero | ⟨entry, hentry⟩
    · exact Or.inl hzero
    · exact Or.inr ⟨entry, hsameAs.catalogued_iff.mpr hentry⟩
  uncleared := h.uncleared

theorem recatalogued (h : LiveInv file live contents)
    (hrecat : file.Recatalogues contents file' contents')
    (hcatalogued : ∀ {foff entry}, file.Catalogued contents foff entry →
      file'.Catalogued contents' foff entry)
    (hcleared : ∀ {index}, none ∈ contents'.cats index →
      none ∈ contents.cats index) : LiveInv file' live contents' where
  holds := hrecat.holds
  sound := h.sound.congr (fun _ _ => hrecat.stores_iff)
  live := by
    intro foff
    rw [← h.live]
    exact exists_congr (fun _ => hrecat.stores_iff)
  typed := by
    intro foff item hitem
    exact (h.typed foff item (hrecat.stores_iff.mp hitem)).imp id
      (fun ⟨entry, hentry⟩ => ⟨entry, hcatalogued hentry⟩)
  uncleared := fun index hnone => h.uncleared index (hcleared hnone)

theorem write (h : LiveInv file live contents) {json : Json}
    (hnull : json.isNull = false) {dad typePtr : ℕ}
    (htype : typePtr = 0 ∨ ∃ entry, file.Catalogued contents typePtr entry) :
    ∃ file' contents', file.Grows contents file' contents' ∧
      LiveInv file' ((NodeCall.write json dad typePtr).note live file)
        contents' ∧
      Heap.GrowsBy (file.Stores contents) (file'.Stores contents')
        (fileWritten json dad typePtr file) ∧
      (fileWrite json dad typePtr file = .failed file' ∨
        ∃ foff, fileWrite json dad typePtr file = .ok foff file' ∧
          json.Laid (file'.Stores contents') dad typePtr foff
            (fileWritten json dad typePtr file) ∧
          (foff ≠ 0 → (file'.Stores contents').Rooted dad typePtr foff)) := by
  have hwroteLaid := @File.Holds.write_laid _ _ json h.holds h.sound dad typePtr
  rw [if_neg (by rw [hnull]; exact Bool.false_ne_true)] at hwroteLaid
  obtain ⟨file', contents', hgrows, hgrowsBy, htyped, houtcome⟩ := hwroteLaid
  refine ⟨file', contents', hgrows, ⟨hgrows.holds, hgrowsBy.sound,
    fun foff => ?_, fun foff item hitem => ?_, fun index => ?_⟩, hgrowsBy,
    houtcome⟩
  · rw [hgrowsBy.live, h.live, NodeCall.note, List.mem_append, or_comm]
  · have hkept : ∀ {typeFoff}, (∃ entry,
        file.Catalogued contents typeFoff entry) →
        ∃ entry, file'.Catalogued contents' typeFoff entry :=
      fun ⟨entry, hentry⟩ => ⟨entry, hgrows.catalogued_iff.mpr hentry⟩
    rcases htyped foff item hitem with hold | hnew | hzero
    · exact (h.typed foff item hold).imp id hkept
    · rw [File.Typed, hnew]
      exact htype.imp id hkept
    · exact Or.inl hzero
  · rw [hgrows.cats]
    exact h.uncleared index

theorem write_fits (h : LiveInv file live contents) {json : Json}
    (hnull : json.isNull = false) (hfits : json.Fits) {dad typePtr : ℕ}
    (htype : typePtr = 0 ∨ ∃ entry, file.Catalogued contents typePtr entry) :
    ∃ foff file' contents', fileWrite json dad typePtr file = .ok foff file' ∧
      file.Grows contents file' contents' ∧
      LiveInv file' ((NodeCall.write json dad typePtr).note live file)
        contents' ∧
      Heap.GrowsBy (file.Stores contents) (file'.Stores contents')
        (fileWritten json dad typePtr file) ∧
      json.Laid (file'.Stores contents') dad typePtr foff
        (fileWritten json dad typePtr file) ∧
      (foff ≠ 0 → (file'.Stores contents').Rooted dad typePtr foff) := by
  obtain ⟨file', contents', hgrows, hinv, hgrowsBy, houtcome⟩ :=
    h.write hnull htype
  have hwrote := @File.Holds.write_link _ _ json h.holds dad typePtr
  rw [if_neg (by rw [hnull]; exact Bool.false_ne_true)] at hwrote
  rcases hwrote with ⟨-, foff, file'', contents'', hok, -⟩ | ⟨hnot, -⟩
  · rcases houtcome with hfailed | ⟨foff', hwrite, hlaid, hrooted⟩
    · rw [hok] at hfailed
      cases hfailed
    · exact ⟨foff', file', contents', hwrite, hgrows, hinv, hgrowsBy, hlaid,
        hrooted⟩
  · exact absurd hfits hnot

/-- An INSERT writes for a type of the name that the document applies, or it
fails without a write. -/
theorem userWrite_cases (h : LiveInv file live contents)
    (command : Command) :
    (∃ file₁, file.Quiet file₁ ∧
      userWrite command.json command.typeName file = .failed file₁ ∧
      insertNodeCalls command file = [] ∧
      ((∀ {foff entry}, file.Catalogued contents foff entry →
          entry.type.name ≠ command.typeName) ∨
        ∃ foff entry, file.Catalogued contents foff entry ∧
          entry.type.name = command.typeName ∧
          jsonIsApplyType command.json entry.type = false)) ∨
    ∃ file₁ foff entry, file.Quiet file₁ ∧
      file.Catalogued contents foff entry ∧
      entry.type.name = command.typeName ∧
      jsonIsApplyType command.json entry.type = true ∧
      userWrite command.json command.typeName file =
        fileWrite command.json 0 foff file₁ ∧
      insertNodeCalls command file = [(file₁, .write command.json 0 foff)] := by
  rcases h.holds.find_type (fun index hnone =>
      absurd hnone (h.uncleared index)) with
    ⟨index, head, soff, entry, file₁, hfind, hquiet, hhead, hmem, hname⟩ |
    ⟨file₁, hfind, hquiet, hother⟩
  · have hcatalogued : file.Catalogued contents (head.fileOffset + soff)
        entry := ⟨index, head, soff, hhead, hmem, rfl⟩
    rw [userWrite, Prog.bind_of_ok hfind, insertNodeCalls, hfind]
    simp only [Outcome.nodeCalls]
    cases happly : jsonIsApplyType command.json entry.type with
    | false => exact Or.inl ⟨file₁, hquiet, rfl, rfl,
        Or.inr ⟨_, entry, hcatalogued, hname, happly⟩⟩
    | true =>
        have hhead₁ : file₁.headAt .types index = some head := by
          rw [File.headAt_congr (hquiet.sects _), hhead]
        have hlt := h.holds.live_lt hhead hmem
        have hplace : fileSectFileoff .types index soff file₁ =
            .ok (head.fileOffset + soff) file₁ :=
          File.fileSectFileoff_eq hhead₁ (by omega)
        rw [if_pos rfl, if_pos rfl, Prog.bind_of_ok hplace, hplace]
        exact Or.inr ⟨file₁, _, entry, hquiet, hcatalogued, hname, happly,
          rfl, rfl⟩
  · left
    rw [userWrite, Prog.bind_of_failed hfind, insertNodeCalls, hfind]
    exact ⟨file₁, hquiet, rfl, rfl, Or.inl hother⟩

theorem length_le (h : LiveInv file live contents) {foffs : List ℕ}
    (hnodup : foffs.Nodup)
    (hlive : ∀ slot ∈ foffs, Heap.Live (file.Stores contents) slot) :
    foffs.length ≤ live.length :=
  (hnodup.subperm (fun slot hmem => (h.live slot).mp
    (hlive slot hmem))).length_le

theorem exists_slotDocs (h : LiveInv file live contents) :
    ∃ slotDocs : ℕ → SlotDoc,
      (∀ foff ∈ live, file.StoresDoc contents foff (slotDocs foff)) ∧
      ∀ foff ∉ live, slotDocs foff = clearedDoc := by
  have hslotDoc : ∀ foff, ∃ slotDoc : SlotDoc,
      (foff ∈ live → file.StoresDoc contents foff slotDoc) ∧
      (foff ∉ live → slotDoc = clearedDoc) := by
    intro foff
    by_cases hmem : foff ∈ live
    · obtain ⟨item, hitem⟩ := (h.live foff).mpr hmem
      obtain ⟨json, hnull, hstored⟩ := h.sound.stored hitem
      obtain ⟨name, hnamed⟩ := (h.typed foff item hitem).named
      exact ⟨⟨json, item.entity, name⟩,
        fun _ => ⟨⟨item, hitem, rfl⟩, hnull, hstored, hnamed⟩,
        fun hnot => absurd hmem hnot⟩
    · exact ⟨clearedDoc, fun hmem' => absurd hmem' hmem, fun _ => rfl⟩
  choose slotDocs hslotDocs using hslotDoc
  exact ⟨slotDocs, fun foff => (hslotDocs foff).1, fun foff => (hslotDocs foff).2⟩

theorem readsSlot (h : LiveInv file live contents) {slotDocs : ℕ → SlotDoc}
    (hstoresDoc : ∀ foff ∈ live, file.StoresDoc contents foff (slotDocs foff))
    (hgone : ∀ foff ∉ live, slotDocs foff = clearedDoc) {depth : ℕ}
    (hdepth : live.length ≤ depth) (hpos : 0 < depth) :
    ∀ foff ∈ file.slots, file.ReadsSlot contents depth foff (slotDocs foff) := by
  intro foff hslot
  by_cases hmem : foff ∈ live
  · apply (hstoresDoc foff hmem).readsSlot
    obtain ⟨foffs, hlaid⟩ := (hstoresDoc foff hmem).stored.laid
    have hlength := h.length_le (h.sound.nodup hlaid)
      (fun _ hmem => hlaid.live hmem)
    rw [← hlaid.length_eq]
    exact hlength.trans hdepth
  · rw [hgone foff hmem]
    obtain ⟨head, hhead, hslot⟩ := List.mem_flatMap.mp hslot
    obtain ⟨index, hindex⟩ := List.getElem?_of_mem hhead
    exact File.readsSlot_cleared hindex hslot
      (fun item hitem => hmem ((h.live foff).mp ⟨item, hitem⟩)) hpos

theorem rooted (h : LiveInv file live contents) {foff : ℕ}
    (hroot : file.IsRoot live foff) :
    ∃ typePtr, (file.Stores contents).Rooted 0 typePtr foff := by
  obtain ⟨hmem, hdad, hbro⟩ := hroot
  obtain ⟨item, hitem⟩ := (h.live foff).mpr hmem
  rw [h.holds.entityAt hitem] at hdad
  refine ⟨_, ⟨?_, item, hitem, hdad, rfl⟩⟩
  rintro node kin ⟨hne, item', hitem', hptr⟩
  cases kin with
  | bro =>
      apply hbro node ((h.live node).mp ⟨item', hitem'⟩)
      rw [h.holds.entityAt hitem']
      exact hptr
  | son =>
      rw [← hptr] at hitem hne
      have hfamily := (h.sound.family hitem' hne hitem).1
      rw [hdad] at hfamily
      exact h.sound.ne_zero hitem' hfamily.symm

theorem delete_unlinked (h : LiveInv file live contents) {depth foff : ℕ}
    (hroot : file.IsRoot live foff) (hdepth : live.length ≤ depth)
    (hsafe : file.SafeWithout contents (file.nodeFoffs depth true foff)) :
    ∃ file' contents', fileDelete depth foff true file = .ok () file' ∧
      file.Erases contents (file.nodeFoffs depth true foff) file'
        contents' ∧
      LiveInv file' ((NodeCall.delete depth foff).note live file) contents' := by
  obtain ⟨typePtr, hrooted⟩ := h.rooted hroot
  obtain ⟨file', contents', hdelete, herases, hsound⟩ :=
    h.holds.delete_unlinked h.sound hrooted (fun foffs hnodup hlive =>
      (h.length_le hnodup hlive).trans hdepth) hsafe
  refine ⟨file', contents', hdelete, herases, herases.holds, hsound,
    fun slot => ?_, fun slot item hitem => ?_, fun index => ?_⟩
  · rw [NodeCall.note, List.mem_filter, decide_eq_true_eq, ← h.live]
    constructor
    · rintro ⟨item, hitem⟩
      obtain ⟨hleft, hitem⟩ := herases.stores_iff.mp hitem
      exact ⟨⟨item, hitem⟩, hleft⟩
    · rintro ⟨⟨item, hitem⟩, hleft⟩
      exact ⟨item, herases.stores_iff.mpr ⟨hleft, hitem⟩⟩
  · rcases h.typed slot item (herases.stores_iff.mp hitem).2 with
      hzero | ⟨entry, hentry⟩
    · exact Or.inl hzero
    · exact Or.inr ⟨entry, herases.catalogued_iff.mpr hentry⟩
  · rw [herases.cats]
    exact h.uncleared index

end LiveInv

/-! ## What calls keep -/

/-- The invariant holds of live entities and of what the file shows; it is kept
when types are added, when such documents are written and when such deletions
keep the lowest records. -/
structure KeptByNodeCalls (inv : File → List ℕ → Contents → Prop)
    (inserts : Json → Prop) (hits : List ℕ → File → NodeCall → Prop) :
    Prop where
  live : ∀ {file live contents}, inv file live contents →
    LiveInv file live contents
  sameAs : ∀ {file file' live contents}, inv file live contents →
    file.SameAs contents file' → inv file' live contents
  recatalogued : ∀ {file file' live contents contents'},
    inv file live contents →
    file.Recatalogues contents file' contents' →
    LiveInv file' live contents' → inv file' live contents'
  write : ∀ {file live contents json typePtr}, inv file live contents →
    inserts json → (∃ entry, file.Catalogued contents typePtr entry) →
    ∃ file' contents',
      (fileWrite json 0 typePtr file).final = some file' ∧
      inv file' ((NodeCall.write json 0 typePtr).note live file) contents'
  delete : ∀ {file live contents depth foff}, inv file live contents →
    hits live file (.delete depth foff) →
    file.BordersKept (file.nodeFoffs depth true foff) →
    ∃ file' contents', fileDelete depth foff true file = .ok () file' ∧
      inv file' ((NodeCall.delete depth foff).note live file) contents'

namespace KeptByNodeCalls

variable {inv : File → List ℕ → Contents → Prop} {inserts : Json → Prop}
  {hits : List ℕ → File → NodeCall → Prop} {file file' : File} {live : List ℕ}
  {contents : Contents}

theorem search (h : KeptByNodeCalls inv inserts hits) (live : List ℕ) :
    KeptBySearch (fun file => ∃ contents, inv file live contents) :=
  keptBySearch_of_sameAs (fun hinv => (h.live hinv).holds) h.sameAs

theorem addType (h : KeptByNodeCalls inv inserts hits)
    (hinv : inv file live contents) {type : DocType} (hnamed : type.Named)
    (hfinal : (userAddType type file).final = some file') :
    ∃ contents', inv file' live contents' := by
  have hlive := h.live hinv
  rcases hlive.holds.add_type hnamed with
    ⟨-, foff, file'', contents', entry, hadd, hput⟩ |
    ⟨-, file'', contents', hadd, hrecat, hcatalogued, hcleared⟩
  · rw [userAddType, Prog.bind_of_ok hadd, Prog.pure_apply,
      Outcome.final_ok, Option.some.injEq] at hfinal
    rw [← hfinal]
    exact ⟨contents', h.recatalogued hinv hput.recatalogues
      (hlive.recatalogued hput.recatalogues
        (fun hentry => hput.catalogued.mpr (Or.inr hentry)) hput.cleared)⟩
  · rw [userAddType, Prog.bind_of_failed hadd, Outcome.final_failed,
      Option.some.injEq] at hfinal
    rw [← hfinal]
    exact ⟨contents', h.recatalogued hinv hrecat
      (hlive.recatalogued hrecat hcatalogued.mpr hcleared)⟩

theorem insert (h : KeptByNodeCalls inv inserts hits)
    (hinv : inv file live contents) {command : Command}
    (hinserts : inserts command.json)
    (hfinal : (userWrite command.json command.typeName file).final =
      some file') :
    ∃ contents', inv file' (NodeCalls.note live (insertNodeCalls command file))
      contents' := by
  have hlive := h.live hinv
  rcases hlive.userWrite_cases command with
    ⟨file₁, hquiet, hwrite, hnodeCalls, -⟩ |
    ⟨file₁, foff, entry, hquiet, hentry, -, -, hwrite, hnodeCalls⟩
  · rw [hwrite, Outcome.final_failed, Option.some.injEq] at hfinal
    rw [hnodeCalls, ← hfinal]
    exact ⟨contents, h.sameAs hinv (hquiet.sameAs hlive.holds)⟩
  · obtain ⟨file₂, contents', hfinal₂, hinv₂⟩ :=
      h.write (h.sameAs hinv (hquiet.sameAs hlive.holds)) hinserts
        ⟨entry, hquiet.catalogued_iff.mpr hentry⟩
    rw [hwrite, hfinal₂, Option.some.injEq] at hfinal
    rw [hnodeCalls, ← hfinal]
    exact ⟨contents', hinv₂⟩

end KeptByNodeCalls

/-- Documents are written, and roots are deleted. -/
theorem LiveInv.kept : KeptByNodeCalls LiveInv (fun json => json.isNull = false)
    NodeCall.HitsRoot where
  live := id
  sameAs := LiveInv.sameAs
  recatalogued := fun _ _ h => h
  write := by
    intro file live contents json typePtr h hnull hentry
    obtain ⟨file', contents', -, hinv, -, houtcome⟩ :=
      @LiveInv.write _ _ _ h _ hnull 0 typePtr (Or.inr hentry)
    refine ⟨file', contents', ?_, hinv⟩
    rcases houtcome with hwrite | ⟨foff, hwrite, -⟩
    · rw [hwrite, Outcome.final_failed]
    · rw [hwrite, Outcome.final_ok]
  delete := by
    intro file live contents depth foff h hhits hborders
    obtain ⟨file', contents', hdelete, -, hinv⟩ :=
      h.delete_unlinked hhits.1 hhits.2 (hborders.safe h.holds)
    exact ⟨file', contents', hdelete, hinv⟩

end NosqlDbms
