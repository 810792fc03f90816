import NosqlDbms.NodeCalls
import Mathlib.Tactic

/-!
# What a DELETE takes away

The loop of `user_delete` searches section by section and deletes while it
does.  Where the query holds of roots only, the trees of exactly those that it
held of before are gone afterwards.
-/

namespace NosqlDbms

/-! ## The iterator -/

section Iterator

variable {past : Str → List Byte} {query : Query} {slotDocs : ℕ → SlotDoc}
  {file file' : File} {contents : Contents} {depth : ℕ}

/-- The iterator goes on to hand out the objects in these slots, if the file
stays what it is. -/
structure Iter.HandsOut (iter : Iter) (past : Str → List Byte) (query : Query)
    (slotDocs : ℕ → SlotDoc) (file : File) (hits : List ℕ) : Prop where
  query_eq : iter.query = query
  sect_lt : ∀ index ∈ iter.curSect, index < file.extents.length
  held : ∃ held, iter.curCol = held.map (pickFound slotDocs) ∧
    hits = held ++ file.ahead past query slotDocs iter.curSect ∧
    (held = [] → hits = [])

theorem Iter.HandsOut.cons {iter : Iter} {hit : ℕ} {rest : List ℕ}
    (h : iter.HandsOut past query slotDocs file (hit :: rest)) :
    ∃ tail, iter.curCol =
        pickFound slotDocs hit :: tail.map (pickFound slotDocs) ∧
      rest = tail ++ file.ahead past query slotDocs iter.curSect := by
  obtain ⟨held, hcol, hhits, hnil⟩ := h.held
  cases held with
  | nil => exact absurd (hnil rfl) (List.cons_ne_nil _ _)
  | cons first tail =>
      rw [List.cons_append, List.cons.injEq] at hhits
      obtain ⟨rfl, hrest⟩ := hhits
      exact ⟨tail, hcol, hrest⟩

theorem Iter.HandsOut.nil {iter : Iter}
    (h : iter.HandsOut past query slotDocs file []) : iter.curCol = [] := by
  obtain ⟨held, hcol, hhits, -⟩ := h.held
  rw [(List.append_eq_nil_iff.mp hhits.symm).1] at hcol
  exact hcol

section Walk

variable (hreadsSlot : ∀ foff ∈ file.slots,
    file.ReadsSlot contents depth foff (slotDocs foff))
  (hspelled : ∀ {foff item}, file.Stores contents foff item →
    ∃ key value, item.Spells key value)
  (hcheck : ∀ foff ∈ file.slots, (slotDocs foff).check past query ≠ none)

include hreadsSlot hspelled hcheck

theorem find_ok {index : ℕ} (hlt : index < file.extents.length)
    (hsameAs : file.SameAs contents file') :
    ∃ head file'', file.headAt .extents index = some head ∧
      fileFind past depth index query file' =
        .ok ((picks past query slotDocs head.slots).map (pickFound slotDocs))
          file'' ∧
      file.SameAs contents file'' := by
  have hhead : file.headAt .extents index = some file.extents[index] :=
    List.getElem?_eq_getElem hlt
  have hfinds : FindsIn past query slotDocs file contents
      file.extents[index].slots (fileFind past depth index query file') :=
    find_spec hreadsSlot hspelled hhead hsameAs
  obtain ⟨file'', hfind, hsameAs''⟩ := hfinds.ok (fun foff hmem => by
    apply hcheck
    apply File.slotsFrom_subset index
    rw [File.slotsFrom_succ hhead]
    exact List.mem_append_left _ hmem)
  exact ⟨_, file'', hhead, hfind, hsameAs''⟩

/-- A walk over the sections `shift` behind the counter, up to one in which
something is found. -/
theorem walk_spec {walk : ℕ → ℕ → Prog File Iter} {stop : ℕ → Option ℕ}
    (shift : ℕ) (hzero : ∀ index, walk 0 index = pure ⟨query, stop index, []⟩)
    (hsucc : ∀ count index, walk (count + 1) index = (do
      let found ← fileFind past depth (index + shift) query
      if found ≠ [] then return ⟨query, some (index + shift), found⟩
      else walk count (index + 1)))
    (hstop : ∀ index, index + shift = file.extents.length →
      (∀ index' ∈ stop index, index' < file.extents.length) ∧
        file.ahead past query slotDocs (stop index) = [])
    {count index : ℕ}
    (hcount : index + shift + count = file.extents.length)
    (hsameAs : file.SameAs contents file') :
    ∃ iter file'', walk count index file' = .ok iter file'' ∧
      file.SameAs contents file'' ∧ iter.HandsOut past query slotDocs file
        (picks past query slotDocs (file.slotsFrom (index + shift))) := by
  induction count generalizing index file' with
  | zero =>
      obtain ⟨hlt, hnone⟩ := hstop index hcount
      rw [hzero, File.slotsFrom_end (by omega)]
      exact ⟨_, file', rfl, hsameAs, rfl, hlt, [], rfl, hnone.symm,
        fun _ => rfl⟩
  | succ count ih =>
      obtain ⟨head, file'', hhead, hfind, hsameAs''⟩ :=
        find_ok hreadsSlot hspelled hcheck (show index + shift <
          file.extents.length by omega) hsameAs
      rw [hsucc, Prog.bind_of_ok hfind, File.slotsFrom_succ hhead,
        picks_append]
      cases hpicks : picks past query slotDocs head.slots with
      | nil =>
          rw [List.map_nil, if_neg (not_not_intro rfl), List.nil_append,
            Nat.add_right_comm]
          exact ih (by omega) hsameAs''
      | cons hit rest =>
          rw [if_pos (List.map_eq_nil_iff.not.mpr (List.cons_ne_nil _ _))]
          exact ⟨_, file'', rfl, hsameAs'', rfl, fun _ hmem => (by
            cases hmem
            omega), hit :: rest, rfl, rfl,
            fun hnil => absurd hnil (List.cons_ne_nil _ _)⟩

theorem iterCtor_spec (h : file.Holds contents.Spelled) :
    ∃ iter file'', iterCtor past depth query file = .ok iter file'' ∧
      file.SameAs contents file'' ∧ iter.HandsOut past query slotDocs file
        (picks past query slotDocs file.slots) := by
  rw [iterCtor, Prog.bind_of_ok (Prog.get_apply file)]
  exact @walk_spec _ _ _ _ _ _ _ hreadsSlot hspelled hcheck
    (iterCtorFrom past depth query) (fun _ => none) 0 (fun _ => rfl)
    (fun _ _ => rfl) (fun _ _ => ⟨fun _ hmem => (by cases hmem), rfl⟩) _ _
    (Nat.zero_add _) (.refl h)

theorem iterNext_spec {iter : Iter} (hquery : iter.query = query)
    {tail : List ℕ} (htail : iter.curCol.tail = tail.map (pickFound slotDocs))
    (hsect : ∀ index ∈ iter.curSect, index < file.extents.length)
    (hsameAs : file.SameAs contents file') :
    ∃ iter' file'', iterNext past depth iter file' = .ok iter' file'' ∧
      file.SameAs contents file'' ∧ iter'.HandsOut past query slotDocs file
        (tail ++ file.ahead past query slotDocs iter.curSect) := by
  obtain ⟨query', curSect, curCol⟩ := iter
  dsimp only at hquery htail hsect ⊢
  subst hquery
  rw [iterNext]
  dsimp only
  rw [htail]
  cases tail with
  | nil =>
      cases curSect with
      | none => exact ⟨_, file', rfl, hsameAs, rfl, hsect, [], rfl, rfl,
          fun _ => rfl⟩
      | some index =>
          have hlength : file'.extents.length = file.extents.length :=
            congrArg List.length (hsameAs.sects .extents)
          rw [List.map_nil, List.nil_append]
          dsimp only
          rw [Prog.bind_of_ok (Prog.get_apply file'), hlength]
          have hlt := hsect index rfl
          refine @walk_spec _ _ _ _ _ _ _ hreadsSlot hspelled hcheck
            (iterNextFrom past depth query') some 1 (fun _ => rfl)
            (fun _ _ => rfl) (fun index hend => ⟨fun _ hmem => ?_, ?_⟩) _ _
            (by omega) hsameAs
          · cases hmem
            omega
          · rw [File.ahead, File.slotsFrom_end (by omega)]
            rfl
  | cons hit rest =>
      exact ⟨_, file', rfl, hsameAs, rfl, hsect, hit :: rest, rfl, rfl,
        fun hnil => absurd hnil (List.cons_ne_nil _ _)⟩

end Walk

end Iterator

/-! ## One deletion -/

section Erased

variable {past : Str → List Byte} {query : Query} {slotDocs slotDocs' : ℕ → SlotDoc}
  {file file' : File} {contents contents' : Contents} {live gone : List ℕ}
  {depth foff : ℕ}

def leftLive (live gone : List ℕ) : List ℕ :=
  live.filter (fun slot => slot ∉ gone)

theorem mem_leftLive :
    foff ∈ leftLive live gone ↔ foff ∈ live ∧ foff ∉ gone := by
  rw [leftLive, List.mem_filter, decide_eq_true_eq]

theorem leftLive_nil : leftLive live [] = live :=
  List.filter_eq_self.mpr (fun _ _ => decide_eq_true List.not_mem_nil)

theorem leftLive_append (gone' : List ℕ) :
    leftLive live (gone ++ gone') = leftLive (leftLive live gone) gone' := by
  unfold leftLive
  rw [List.filter_filter]
  apply List.filter_congr
  intro slot _
  simp only [List.mem_append, not_or, Bool.decide_and, Bool.and_comm]

def leftDocs (live : List ℕ) (slotDocs : ℕ → SlotDoc) : ℕ → SlotDoc :=
  fun foff => if foff ∈ live then slotDocs foff else clearedDoc

theorem leftDocs_leftDocs : leftDocs (leftLive live gone)
    (leftDocs live slotDocs) = leftDocs (leftLive live gone) slotDocs := by
  funext foff
  unfold leftDocs
  split
  next hleft => rw [if_pos (mem_leftLive.mp hleft).1]
  next => rfl

theorem File.StoresDoc.erased {slotDoc : SlotDoc}
    (h : file.StoresDoc contents foff slotDoc)
    (hclosed : ∀ {node kin next},
      Heap.Linked (file.Stores contents) node kin next →
        next ∈ gone → node ∈ gone)
    (herases : file.Erases contents gone file' contents')
    (hleft : foff ∉ gone) : file'.StoresDoc contents' foff slotDoc where
  item := by
    obtain ⟨item, hitem, hentity⟩ := h.item
    exact ⟨item, herases.stores_iff.mpr ⟨hleft, hitem⟩, hentity⟩
  not_null := h.not_null
  stored := by
    obtain ⟨foffs, hlaid⟩ := h.stored.laid
    have houtside := hlaid.outside hclosed hleft
    exact Json.Laid.stored (hlaid.congr (fun slot hmem item hitem =>
      herases.stores_iff.mpr ⟨houtside slot hmem, hitem⟩))
  named := by
    rcases h.named with hnone | ⟨entry, hentry, hname⟩
    · exact Or.inl hnone
    · exact Or.inr ⟨entry, herases.catalogued_iff.mpr hentry, hname⟩

theorem LiveInv.tree (h : LiveInv file live contents)
    (hdepth : live.length ≤ depth) (hmem : foff ∈ live) :
    ∃ item son foffs, file.Stores contents foff item ∧
      Json.Laid (file.Stores contents) son foff 0
        item.entity.famAddr.sonPtr foffs ∧ son.nodes.length < depth ∧
      file.nodeFoffs depth true foff = foff :: foffs := by
  obtain ⟨item, hitem⟩ := (h.live foff).mpr hmem
  obtain ⟨json, hnull, hstored⟩ := h.sound.stored hitem
  obtain ⟨foffs, hlaid⟩ := hstored.laid
  have hlength := (h.length_le (h.sound.nodup hlaid)
    (fun _ hmem => hlaid.live hmem)).trans hdepth
  cases json with
  | null => cases hnull
  | node key value bro son =>
      obtain ⟨-, item', broFoffs, sonFoffs, hitem', -, -, -, -, hson,
        rfl⟩ := hlaid
      rw [h.sound.functional foff item item' hitem hitem'] at hson
      rw [List.length_cons, List.length_append, hson.length_eq] at hlength
      have hfuel : son.nodes.length < depth := by omega
      exact ⟨item, son, sonFoffs, hitem, hson, hfuel,
        h.holds.nodeFoffs_root hitem hson hfuel⟩

theorem LiveInv.unlinkedTree (h : LiveInv file live contents)
    (hdepth : live.length ≤ depth) (hroot : file.IsRoot live foff) :
    (file.Stores contents).UnlinkedTree foff
      (file.nodeFoffs depth true foff) := by
  obtain ⟨item, son, foffs, hitem, hson, -, hfoffs⟩ :=
    h.tree hdepth hroot.1
  obtain ⟨typePtr, hrooted⟩ := h.rooted hroot
  rw [hfoffs]
  refine ⟨List.mem_cons_self,
    h.sound.closed_root hitem hrooted.unlinked hson, fun slot hmem => ?_⟩
  rcases List.mem_cons.mp hmem with heq | hmem
  · exact Or.inl heq
  · right
    rcases hson.linked hmem with rfl | hlinked
    · exact ⟨foff, .son, Heap.Linked.of_item hitem (hson.ne_zero hmem)⟩
    · exact hlinked

theorem LiveInv.nodeFoffs_erased (h : LiveInv file live contents)
    (hdepth : live.length ≤ depth) (hmem : foff ∈ live)
    (hclosed : ∀ {node kin next},
      Heap.Linked (file.Stores contents) node kin next →
        next ∈ gone → node ∈ gone)
    (herases : file.Erases contents gone file' contents')
    (hleft : foff ∉ gone) :
    file'.nodeFoffs depth true foff = file.nodeFoffs depth true foff := by
  obtain ⟨item, son, foffs, hitem, hson, hfuel, hfoffs⟩ :=
    h.tree hdepth hmem
  have hson' : Json.Laid (file'.Stores contents') son foff 0
      item.entity.famAddr.sonPtr foffs := by
    refine hson.congr (fun slot hslot item' hitem' =>
      herases.stores_iff.mpr ⟨?_, hitem'⟩)
    refine hson.outside hclosed (fun hgone => hleft ?_) slot hslot
    exact hclosed (@Heap.Linked.of_item _ foff item hitem .son
      (hson.first_ne_zero hslot)) hgone
  rw [hfoffs, herases.holds.nodeFoffs_root
    (herases.stores_iff.mpr ⟨hleft, hitem⟩) hson' hfuel]

theorem LiveInv.isRoot_erased (h : LiveInv file live contents)
    (herases : file.Erases contents gone file' contents')
    (hroot : file.IsRoot live foff) (hleft : foff ∉ gone) :
    file'.IsRoot (leftLive live gone) foff := by
  have hentity : ∀ slot ∈ live, slot ∉ gone →
      file'.entityAt slot = file.entityAt slot := by
    intro slot hslot hout
    obtain ⟨item, hitem⟩ := (h.live slot).mpr hslot
    rw [h.holds.entityAt hitem,
      herases.holds.entityAt (herases.stores_iff.mpr ⟨hout, hitem⟩)]
  obtain ⟨hmem, hdad, hbro⟩ := hroot
  refine ⟨mem_leftLive.mpr ⟨hmem, hleft⟩, ?_, ?_⟩
  · rw [hentity foff hmem hleft]
    exact hdad
  · intro other hother
    obtain ⟨hslot, hout⟩ := mem_leftLive.mp hother
    rw [hentity other hslot hout]
    exact hbro other hslot

/-! ## The slots that pass, before and after -/

theorem pairwise_slots (head : SectHead) : head.slots.Pairwise (· < ·) :=
  (pairwise_slotOffsets _).map _ (fun _ _ hlt => Nat.add_lt_add_left hlt _)

theorem File.Holds.mem_slots_of_range (h : file.Holds contents.Spelled)
    {index : ℕ} {head : SectHead} {item : Item}
    (hhead : file.headAt .extents index = some head)
    (hlow : head.fileOffset ≤ foff) (hhigh : foff < head.fileOffset + 8192)
    (hitem : file.Stores contents foff item) : foff ∈ head.slots := by
  obtain ⟨index', head', soff, hhead', hsoff, rfl⟩ := hitem
  have hlayout : Layout ⟨head', file.storage⟩ (contents.exts index') :=
    h.sect hhead'
  have hslot := hlayout.border_lt hsoff
  have hindex : index' = index := by
    by_contra hne
    have hapart := h.placed.apart hhead' hhead
      (fun heq => hne (congrArg Prod.snd heq))
    omega
  subst hindex
  rw [hhead, Option.some.injEq] at hhead'
  subst hhead'
  exact List.mem_map.mpr ⟨soff, (mem_slotOffsets hlayout.aligned).mpr
    (hlayout.slot hsoff), rfl⟩

/-- The items in the slots `kept` stay, and so do the sections. -/
structure File.Keeps (file : File) (contents : Contents) (kept : List ℕ)
    (file' : File) (contents' : Contents) : Prop where
  holds : file.Holds contents.Spelled
  holds' : file'.Holds contents'.Spelled
  stores : ∀ foff ∈ kept, ∃ item, file.Stores contents foff item ∧
    file'.Stores contents' foff item
  heads : ∀ {index head}, file.headAt .extents index = some head →
    ∃ head', file'.headAt .extents index = some head' ∧
      head'.fileOffset = head.fileOffset

namespace File.Keeps

variable {kept : List ℕ} {test test' : ℕ → Bool} {index : ℕ}

theorem filter_head (h : file.Keeps contents kept file' contents')
    {head head' : SectHead}
    (hhead : file.headAt .extents index = some head)
    (hhead' : file'.headAt .extents index = some head')
    (htest : ∀ foff ∈ head.slots, test foff = true → foff ∈ kept)
    (htest' : ∀ foff, test' foff = true → foff ∈ kept)
    (hsame : ∀ foff ∈ kept, test' foff = test foff) :
    head'.slots.filter test' = head.slots.filter test := by
  obtain ⟨head'', hhead'', hoffset⟩ := h.heads hhead
  rw [hhead', Option.some.injEq] at hhead''
  subst hhead''
  apply List.Pairwise.eq_of_mem_iff ((pairwise_slots head').filter _)
    ((pairwise_slots head).filter _)
  intro foff
  rw [List.mem_filter, List.mem_filter]
  constructor
  · rintro ⟨hslot, hpasses⟩
    have hmem := htest' foff hpasses
    obtain ⟨item, hitem, -⟩ := h.stores foff hmem
    obtain ⟨hlow, hhigh⟩ := h.holds'.mem_head_slots hhead' hslot
    rw [hoffset] at hlow hhigh
    rw [hsame foff hmem] at hpasses
    exact ⟨h.holds.mem_slots_of_range hhead hlow hhigh hitem, hpasses⟩
  · rintro ⟨hslot, hpasses⟩
    have hmem := htest foff hslot hpasses
    obtain ⟨item, -, hitem⟩ := h.stores foff hmem
    obtain ⟨hlow, hhigh⟩ := h.holds.mem_head_slots hhead hslot
    rw [← hoffset] at hlow hhigh
    rw [← hsame foff hmem] at hpasses
    exact ⟨h.holds'.mem_slots_of_range hhead' hlow hhigh hitem, hpasses⟩

theorem filter_new (h : file.Keeps contents kept file' contents')
    {head' : SectHead} (hnew : file.extents.length ≤ index)
    (hhead' : file'.headAt .extents index = some head')
    (htest' : ∀ foff, test' foff = true → foff ∈ kept) :
    head'.slots.filter test' = [] := by
  rw [List.filter_eq_nil_iff]
  intro foff hslot hpasses
  obtain ⟨item, ⟨index', head, soff, hhead, hsoff, rfl⟩, -⟩ :=
    h.stores foff (htest' foff hpasses)
  obtain ⟨head'', hhead'', hoffset⟩ := h.heads hhead
  have hlayout : Layout ⟨head, file.storage⟩ (contents.exts index') :=
    h.holds.sect hhead
  have hlt := hlayout.border_lt hsoff
  obtain ⟨hlow, hhigh⟩ := h.holds'.mem_head_slots hhead' hslot
  have hapart := h.holds'.placed.apart hhead'' hhead' (fun heq => by
    have hindex : index' = index := congrArg Prod.snd heq
    have hold : index' < file.extents.length :=
      (List.getElem?_eq_some_iff.mp hhead).1
    omega)
  omega

theorem length_le (h : file.Keeps contents kept file' contents') :
    file.extents.length ≤ file'.extents.length := by
  by_contra hnot
  have hlt : file'.extents.length < file.extents.length := by omega
  obtain ⟨head', hhead', -⟩ := h.heads
    (show file.headAt .extents file'.extents.length = _ from
      List.getElem?_eq_getElem hlt)
  have hlt' : file'.extents.length < file'.extents.length :=
    (List.getElem?_eq_some_iff.mp hhead').1
  omega

theorem filter_slotsFrom (h : file.Keeps contents kept file' contents')
    (htest : ∀ foff ∈ file.slotsFrom index, test foff = true → foff ∈ kept)
    (htest' : ∀ foff, test' foff = true → foff ∈ kept)
    (hsame : ∀ foff ∈ kept, test' foff = test foff) :
    (file'.slotsFrom index).filter test' =
      (file.slotsFrom index).filter test := by
  have hlength := h.length_le
  obtain ⟨count, hcount⟩ : ∃ count, file'.extents.length ≤ index + count :=
    ⟨file'.extents.length, Nat.le_add_left _ _⟩
  induction count generalizing index with
  | zero =>
      rw [File.slotsFrom_end (by omega), File.slotsFrom_end (by omega)]
      rfl
  | succ count ih =>
      by_cases hlt' : index < file'.extents.length
      · have hhead' : file'.headAt .extents index =
            some file'.extents[index] := List.getElem?_eq_getElem hlt'
        rw [File.slotsFrom_succ hhead', List.filter_append]
        by_cases hlt : index < file.extents.length
        · have hhead : file.headAt .extents index =
              some file.extents[index] := List.getElem?_eq_getElem hlt
          rw [File.slotsFrom_succ hhead, List.filter_append]
          rw [File.slotsFrom_succ hhead] at htest
          rw [h.filter_head hhead hhead' (fun foff hmem => htest foff
              (List.mem_append_left _ hmem)) htest' hsame,
            ih (fun foff hmem => htest foff
              (List.mem_append_right _ hmem)) (by omega)]
        · rw [h.filter_new (by omega) hhead' htest', List.nil_append,
            ih (fun foff hmem => by
              rw [File.slotsFrom_end (by omega)] at hmem
              exact absurd hmem List.not_mem_nil) (by omega),
            File.slotsFrom_end (by omega), File.slotsFrom_end (by omega)]
      · rw [File.slotsFrom_end (by omega), File.slotsFrom_end (by omega)]
        rfl

theorem ahead_eq (h : file.Keeps contents kept file' contents')
    {curSect : Option ℕ}
    (hahead : ∀ foff ∈ file.ahead past query slotDocs curSect, foff ∈ kept)
    (hpasses : ∀ foff, (slotDocs' foff).check past query = some true →
      foff ∈ kept)
    (hsame : ∀ foff ∈ kept, slotDocs' foff = slotDocs foff) :
    file'.ahead past query slotDocs' curSect =
      file.ahead past query slotDocs curSect := by
  cases curSect with
  | none => rfl
  | some index =>
      apply h.filter_slotsFrom
      · exact fun foff hmem htest =>
          hahead foff (List.mem_filter.mpr ⟨hmem, htest⟩)
      · exact fun foff htest => hpasses foff (eq_of_beq htest)
      · intro foff hmem
        rw [hsame foff hmem]

end File.Keeps

theorem LiveInv.keeps_erased (h : LiveInv file live contents)
    (herases : file.Erases contents gone file' contents') :
    file.Keeps contents (leftLive live gone) file' contents' where
  holds := h.holds
  holds' := herases.holds
  stores := by
    intro foff hmem
    obtain ⟨hmem, hout⟩ := mem_leftLive.mp hmem
    obtain ⟨item, hitem⟩ := (h.live foff).mpr hmem
    exact ⟨item, hitem, herases.stores_iff.mpr ⟨hout, hitem⟩⟩
  heads := by
    intro index head hhead
    have hoffset := herases.offsets index
    rw [hhead, Option.map_some, Option.map_eq_some_iff] at hoffset
    exact hoffset

theorem File.Erases.sameAs {file'' : File}
    (h : file.Erases contents gone file' contents')
    (hsameAs : file'.SameAs contents' file'') :
    file.Erases contents gone file'' contents' where
  holds := hsameAs.holds
  cats := h.cats
  types := (hsameAs.sects .types).trans h.types
  offsets := fun index => by
    rw [headAt_congr (hsameAs.sects .extents), h.offsets]
  exts := h.exts

theorem File.ahead_congr (hextents : file'.extents = file.extents)
    (curSect : Option ℕ) : file'.ahead past query slotDocs curSect =
      file.ahead past query slotDocs curSect := by
  cases curSect with
  | none => rfl
  | some index => rw [File.ahead, File.ahead, File.slotsFrom, File.slotsFrom,
      hextents]

theorem Iter.HandsOut.sameAs {iter : Iter} {hits : List ℕ}
    (h : iter.HandsOut past query slotDocs file hits)
    (hsameAs : file.SameAs contents file') :
    iter.HandsOut past query slotDocs file' hits := by
  have hextents : file'.extents = file.extents := hsameAs.sects .extents
  refine ⟨h.query_eq, ?_, ?_⟩
  · rw [hextents]
    exact h.sect_lt
  · rw [File.ahead_congr hextents]
    exact h.held

end Erased

/-! ## The loop -/

/-- The documents in the slots, and the query has a result for each of them: it
is false of a cleared slot. -/
structure SearchInv (past : Str → List Byte) (query : Query) (file : File)
    (live : List ℕ) (contents : Contents) (slotDocs : ℕ → SlotDoc) : Prop where
  inv : LiveInv file live contents
  storesDoc : ∀ foff ∈ live, file.StoresDoc contents foff (slotDocs foff)
  gone : ∀ foff ∉ live, slotDocs foff = clearedDoc
  check : ∀ foff, (slotDocs foff).check past query ≠ none
  cleared : clearedDoc.check past query = some false

def File.treeFoffs (file : File) (depth : ℕ) (hits : List ℕ) : List ℕ :=
  hits.flatMap (file.nodeFoffs depth true)

section Loop

variable {past : Str → List Byte} {query : Query} {depth : ℕ}
  {file file' : File} {live gone : List ℕ} {contents contents' : Contents}
  {slotDocs : ℕ → SlotDoc}

theorem SearchInv.sameAs (h : SearchInv past query file live contents slotDocs)
    (hsameAs : file.SameAs contents file') :
    SearchInv past query file' live contents slotDocs where
  inv := h.inv.sameAs hsameAs
  storesDoc := fun foff hmem => (h.storesDoc foff hmem).sameAs hsameAs
  gone := h.gone
  check := h.check
  cleared := h.cleared

theorem SearchInv.readsSlot (h : SearchInv past query file live contents slotDocs)
    (hdepth : live.length ≤ depth) (hpos : 0 < depth) :
    ∀ foff ∈ file.slots, file.ReadsSlot contents depth foff (slotDocs foff) :=
  h.inv.readsSlot h.storesDoc h.gone hdepth hpos

theorem SearchInv.mem_live (h : SearchInv past query file live contents slotDocs)
    {foff : ℕ} (hcheck : (slotDocs foff).check past query = some true) :
    foff ∈ live := by
  by_contra hnot
  rw [h.gone foff hnot, h.cleared] at hcheck
  cases hcheck

theorem SearchInv.ahead_live
    (h : SearchInv past query file live contents slotDocs)
    {curSect : Option ℕ} {foff : ℕ}
    (hmem : foff ∈ file.ahead past query slotDocs curSect) : foff ∈ live := by
  cases curSect with
  | none => exact absurd hmem List.not_mem_nil
  | some index => exact h.mem_live (mem_picks.mp hmem).2

theorem SearchInv.erased (h : SearchInv past query file live contents slotDocs)
    (hclosed : ∀ {node kin next},
      Heap.Linked (file.Stores contents) node kin next →
        next ∈ gone → node ∈ gone)
    (herases : file.Erases contents gone file' contents')
    (hinv : LiveInv file' (leftLive live gone) contents') :
    SearchInv past query file' (leftLive live gone) contents'
      (leftDocs (leftLive live gone) slotDocs) where
  inv := hinv
  storesDoc := by
    intro foff hmem
    rw [leftDocs, if_pos hmem]
    obtain ⟨hold, hout⟩ := mem_leftLive.mp hmem
    exact (h.storesDoc foff hold).erased hclosed herases hout
  gone := fun foff hnot => if_neg hnot
  check := by
    intro foff
    rw [leftDocs]
    split
    · exact h.check foff
    · rw [h.cleared]
      exact Option.some_ne_none false
  cleared := h.cleared

theorem SearchInv.round (h : SearchInv past query file live contents slotDocs)
    (hdepth : live.length ≤ depth) (hpos : 0 < depth) {iter : Iter}
    {hit : ℕ} {rest : List ℕ}
    (hiter : iter.HandsOut past query slotDocs file (hit :: rest))
    (hnodup : (hit :: rest).Nodup)
    (hroots : ∀ foff ∈ hit :: rest, file.IsRoot live foff)
    (hsafe : file.SafeWithout contents (file.nodeFoffs depth true hit)) :
    ∃ found tail iter' file' contents',
      iter.curCol = found :: tail ∧ found.foff = hit ∧
      (do
        fileDelete depth hit true
        iterNext past depth iter : Prog File Iter) file = .ok iter' file' ∧
      file.Erases contents (file.nodeFoffs depth true hit) file' contents' ∧
      SearchInv past query file'
        (leftLive live (file.nodeFoffs depth true hit)) contents'
        (leftDocs (leftLive live (file.nodeFoffs depth true hit))
          slotDocs) ∧
      iter'.HandsOut past query
        (leftDocs (leftLive live (file.nodeFoffs depth true hit)) slotDocs)
        file' rest ∧
      ∀ foff ∈ rest, foff ∉ file.nodeFoffs depth true hit := by
  obtain ⟨tail, hcol, hrest⟩ := hiter.cons
  have hroot := hroots hit List.mem_cons_self
  have hunlinkedTree := h.inv.unlinkedTree hdepth hroot
  obtain ⟨file₁, contents₁, hdelete, herases, hinv⟩ :=
    h.inv.delete_unlinked hroot hdepth hsafe
  have hsearchInv := h.erased hunlinkedTree.closed herases hinv
  have hleft : ∀ foff ∈ rest, foff ∉ file.nodeFoffs depth true hit := by
    intro foff hmem hgone
    rcases hunlinkedTree.linked foff hgone with rfl | ⟨node, kin, hlink⟩
    · exact (List.nodup_cons.mp hnodup).1 hmem
    · obtain ⟨typePtr, hrooted⟩ :=
        h.inv.rooted (hroots foff (List.mem_cons_of_mem _ hmem))
      exact hrooted.unlinked node kin hlink
  have htail : tail.map (pickFound slotDocs) = tail.map (pickFound
      (leftDocs (leftLive live (file.nodeFoffs depth true hit))
        slotDocs)) := by
    apply List.map_congr_left
    intro foff hmem
    have hmem' : foff ∈ rest := by
      rw [hrest]
      exact List.mem_append_left _ hmem
    rw [pickFound, pickFound, leftDocs, if_pos (mem_leftLive.mpr
      ⟨(hroots foff (List.mem_cons_of_mem _ hmem')).1,
        hleft foff hmem'⟩)]
  have hkeeps := h.inv.keeps_erased herases
  have hahead : file₁.ahead past query (leftDocs (leftLive live
        (file.nodeFoffs depth true hit)) slotDocs) iter.curSect =
      file.ahead past query slotDocs iter.curSect :=
    hkeeps.ahead_eq (fun foff hmem => mem_leftLive.mpr
        ⟨h.ahead_live hmem, hleft foff (by
          rw [hrest]
          exact List.mem_append_right _ hmem)⟩)
      (fun foff hcheck => hsearchInv.mem_live hcheck)
      (fun foff hmem => if_pos hmem)
  obtain ⟨iter', file₂, hnext, hsameAs, hhandsOut⟩ := iterNext_spec
    (hsearchInv.readsSlot ((List.length_filter_le _ _).trans hdepth) hpos)
    (fun hitem => hinv.sound.spelled hitem)
    (fun foff _ => hsearchInv.check foff) hiter.query_eq
    (show iter.curCol.tail = _ by rw [hcol, ← htail]; rfl)
    (fun index hmem =>
      (hiter.sect_lt index hmem).trans_le hkeeps.length_le)
    (.refl hinv.holds)
  rw [hahead, ← hrest] at hhandsOut
  exact ⟨_, _, iter', file₂, contents₁, hcol, rfl,
    (Prog.bind_of_ok hdelete).trans hnext, herases.sameAs hsameAs,
    hsearchInv.sameAs hsameAs, hhandsOut.sameAs hsameAs, hleft⟩

/-- All that the iterator has before it are roots: their trees are gone
afterwards and nothing else.  The induction is on what is before it. -/
theorem userDeleteFrom_spec {hits : List ℕ} {rounds : ℕ} {iter : Iter}
    (h : SearchInv past query file live contents slotDocs)
    (hdepth : live.length ≤ depth) (hpos : 0 < depth)
    (hiter : iter.HandsOut past query slotDocs file hits)
    (hnodup : hits.Nodup)
    (hroots : ∀ foff ∈ hits, file.IsRoot live foff)
    (hsafe : file.SafeWithout contents (file.treeFoffs depth hits))
    (hrounds : hits.length < rounds) :
    ∃ file' contents',
      userDeleteFrom past depth rounds iter file = .ok () file' ∧
      NodeCalls.note live (deleteNodeCallsFrom past depth rounds iter file) =
        leftLive live (file.treeFoffs depth hits) ∧
      file.Erases contents (file.treeFoffs depth hits) file' contents' ∧
      SearchInv past query file' (leftLive live (file.treeFoffs depth hits))
        contents'
        (leftDocs (leftLive live (file.treeFoffs depth hits)) slotDocs) := by
  induction hits generalizing file live contents slotDocs rounds iter with
  | nil =>
      obtain ⟨rounds, rfl⟩ := Nat.exists_eq_add_one_of_ne_zero
        (Nat.ne_of_gt hrounds)
      refine ⟨file, contents, ?_, ?_, .refl h.inv.holds, ?_⟩
      · rw [userDeleteFrom, hiter.nil]
        rfl
      · rw [deleteNodeCallsFrom, hiter.nil]
        exact leftLive_nil.symm
      · apply h.erased (fun _ hmem => absurd hmem List.not_mem_nil)
          (.refl h.inv.holds)
        rw [leftLive_nil]
        exact h.inv
  | cons hit rest ih =>
      rw [List.length_cons] at hrounds
      obtain ⟨rounds, rfl⟩ := Nat.exists_eq_add_one_of_ne_zero
        (show rounds ≠ 0 by omega)
      have hrounds' : rest.length < rounds := by omega
      rw [File.treeFoffs, List.flatMap_cons] at hsafe ⊢
      obtain ⟨found, tail, iter', file₁, contents₁, hcol, hfoff, hround,
        herases, hsearchInv, hhandsOut, hleft⟩ :=
        h.round hdepth hpos hiter hnodup hroots hsafe.left
      have hunlinkedTree := h.inv.unlinkedTree hdepth
        (hroots hit List.mem_cons_self)
      have hfoffs : file₁.treeFoffs depth rest =
          rest.flatMap (file.nodeFoffs depth true) := by
        apply List.flatMap_congr
        intro foff hmem
        exact h.inv.nodeFoffs_erased hdepth
          (hroots foff (List.mem_cons_of_mem _ hmem)).1 hunlinkedTree.closed
          herases (hleft foff hmem)
      obtain ⟨_, file₀, hdelete, hnext⟩ := Prog.bind_eq_ok hround
      obtain ⟨file', contents', hrest, hnote, herases', hsearchInv'⟩ :=
        ih hsearchInv
        ((List.length_filter_le _ _).trans hdepth) hhandsOut
        (List.nodup_cons.mp hnodup).2
        (fun foff hmem => h.inv.isRoot_erased herases
          (hroots foff (List.mem_cons_of_mem _ hmem)) (hleft foff hmem))
        (by rw [hfoffs]; exact hsafe.right herases) hrounds'
      rw [hfoffs] at hnote herases' hsearchInv'
      refine ⟨file', contents', ?_, ?_, herases.trans herases', ?_⟩
      · rw [userDeleteFrom, hcol]
        dsimp only
        rw [hfoff, Prog.bind_of_ok hdelete, Prog.bind_of_ok hnext, hrest]
      · rw [deleteNodeCallsFrom, hcol]
        dsimp only
        rw [hfoff, hdelete, Outcome.nodeCalls, hnext, leftLive_append]
        exact hnote
      · rw [leftLive_append]
        rw [leftDocs_leftDocs] at hsearchInv'
        exact hsearchInv'

/-- The whole command: what the query held of before are roots, and their
trees are what goes. -/
theorem SearchInv.userDelete {rounds : ℕ}
    (h : SearchInv past query file live contents slotDocs)
    (hdepth : live.length ≤ depth) (hpos : 0 < depth)
    (hroots : ∀ foff ∈ picks past query slotDocs file.slots,
      file.IsRoot live foff)
    (hsafe : file.SafeWithout contents
      (file.treeFoffs depth (picks past query slotDocs file.slots)))
    (hrounds : (picks past query slotDocs file.slots).length < rounds) :
    ∃ file' contents',
      NosqlDbms.userDelete past depth rounds query file = .ok () file' ∧
      NodeCalls.note live ((iterCtor past depth query file).nodeCalls
          (deleteNodeCallsFrom past depth rounds)) =
        leftLive live
          (file.treeFoffs depth (picks past query slotDocs file.slots)) ∧
      file.Erases contents
        (file.treeFoffs depth (picks past query slotDocs file.slots)) file'
        contents' ∧
      SearchInv past query file'
        (leftLive live
          (file.treeFoffs depth (picks past query slotDocs file.slots)))
        contents'
        (leftDocs (leftLive live
          (file.treeFoffs depth (picks past query slotDocs file.slots)))
          slotDocs) := by
  obtain ⟨iter, file₁, hctor, hsameAs, hhandsOut⟩ := iterCtor_spec
    (h.readsSlot hdepth hpos) (fun hitem => h.inv.sound.spelled hitem)
    (fun foff _ => h.check foff) h.inv.holds
  have herases : file.Erases contents [] file₁ contents :=
    (File.Erases.refl h.inv.holds).sameAs hsameAs
  have hclosed : ∀ {node kin next},
      Heap.Linked (file.Stores contents) node kin next →
        next ∈ ([] : List ℕ) → node ∈ ([] : List ℕ) :=
    fun _ hmem => absurd hmem List.not_mem_nil
  have htrees : file₁.treeFoffs depth (picks past query slotDocs file.slots) =
      file.treeFoffs depth (picks past query slotDocs file.slots) := by
    apply List.flatMap_congr
    intro foff hmem
    exact h.inv.nodeFoffs_erased hdepth (hroots foff hmem).1 hclosed herases
      List.not_mem_nil
  have hsafe₀ : file.SafeWithout contents ([] ++
      file.treeFoffs depth (picks past query slotDocs file.slots)) := hsafe
  obtain ⟨file', contents', hdelete, hnote, herases', hsearchInv'⟩ :=
    userDeleteFrom_spec (h.sameAs hsameAs) hdepth hpos (hhandsOut.sameAs hsameAs)
      (h.inv.holds.slots_nodup.filter _)
      (fun foff hmem => by
        have hroot := h.inv.isRoot_erased herases (hroots foff hmem)
          List.not_mem_nil
        rw [leftLive_nil] at hroot
        exact hroot)
      (by
        rw [htrees]
        exact hsafe₀.right herases)
      hrounds
  rw [htrees] at hnote herases' hsearchInv'
  refine ⟨file', contents', ?_, ?_, herases.trans herases', hsearchInv'⟩
  · rw [NosqlDbms.userDelete, Prog.bind_of_ok hctor, hdelete]
  · rw [hctor]
    exact hnote

end Loop

end NosqlDbms
