import NosqlDbms.FileContents
import Mathlib.Tactic

/-!
# Trees and the slots they lie in

A stored tree takes a slot for each of its nodes.  The pointers to the dads
keep the slots of one tree from being those of another one, and the parts of a
tree apart from each other.
-/

namespace NosqlDbms

/-- The tree is stored from `foff` on, in the slots `foffs`: its first node,
then its brothers and then its sons. -/
def Json.Laid (heap : Heap) : Json → ℕ → ℕ → ℕ → List ℕ → Prop
  | .null, _, _, foff, foffs => foff = 0 ∧ foffs = []
  | .node key value bro son, dad, typePtr, foff, foffs =>
      foff ≠ 0 ∧ ∃ item broFoffs sonFoffs, heap foff item ∧
        item.Spells key value ∧
        item.entity.famAddr.dadPtr = dad ∧
        item.entity.typePtr = typePtr ∧
        bro.Laid heap dad 0 item.entity.famAddr.broPtr broFoffs ∧
        son.Laid heap foff 0 item.entity.famAddr.sonPtr sonFoffs ∧
        foffs = foff :: (broFoffs ++ sonFoffs)

/-- A slot holds at most one item. -/
def Heap.Functional (heap : Heap) : Prop :=
  ∀ foff item item', heap foff item → heap foff item' → item' = item

namespace Json

variable {heap heap' : Heap} {json json' : Json}
  {dad dad' typePtr typePtr' foff : ℕ} {foffs foffs' : List ℕ}

theorem Stored.laid (h : json.Stored heap dad typePtr foff) :
    ∃ foffs, json.Laid heap dad typePtr foff foffs := by
  induction json generalizing dad typePtr foff with
  | null => exact ⟨[], h, rfl⟩
  | node key value bro son ihBro ihSon =>
      obtain ⟨hne, item, hitem, hspells, hdad, htype, hbro, hson⟩ := h
      obtain ⟨broFoffs, hbro⟩ := ihBro hbro
      obtain ⟨sonFoffs, hson⟩ := ihSon hson
      exact ⟨_, hne, item, broFoffs, sonFoffs, hitem, hspells, hdad, htype,
        hbro, hson, rfl⟩

namespace Laid

theorem stored (h : json.Laid heap dad typePtr foff foffs) :
    json.Stored heap dad typePtr foff := by
  induction json generalizing dad typePtr foff foffs with
  | null => exact h.1
  | node key value bro son ihBro ihSon =>
      obtain ⟨hne, item, broFoffs, sonFoffs, hitem, hspells, hdad, htype,
        hbro, hson, -⟩ := h
      exact ⟨hne, item, hitem, hspells, hdad, htype, ihBro hbro, ihSon hson⟩

theorem congr (h : json.Laid heap dad typePtr foff foffs)
    (hheap : ∀ foff ∈ foffs, ∀ item, heap foff item → heap' foff item) :
    json.Laid heap' dad typePtr foff foffs := by
  induction json generalizing dad typePtr foff foffs with
  | null => exact h
  | node key value bro son ihBro ihSon =>
      obtain ⟨hne, item, broFoffs, sonFoffs, hitem, hspells, hdad, htype,
        hbro, hson, rfl⟩ := h
      refine ⟨hne, item, broFoffs, sonFoffs, ?_, hspells, hdad, htype, ?_, ?_,
        rfl⟩
      · exact hheap foff List.mem_cons_self item hitem
      · exact ihBro hbro (fun foff hmem => hheap foff
          (List.mem_cons_of_mem _ (List.mem_append_left _ hmem)))
      · exact ihSon hson (fun foff hmem => hheap foff
          (List.mem_cons_of_mem _ (List.mem_append_right _ hmem)))

theorem length_eq (h : json.Laid heap dad typePtr foff foffs) :
    foffs.length = json.nodes.length := by
  induction json generalizing dad typePtr foff foffs with
  | null =>
      rw [h.2]
      rfl
  | node key value bro son ihBro ihSon =>
      obtain ⟨-, item, broFoffs, sonFoffs, -, -, -, -, hbro, hson, rfl⟩ := h
      rw [nodes, List.length_cons, List.length_append, ihBro hbro,
        ihSon hson, List.length_cons, List.length_append]

theorem unique (hheap : heap.Functional)
    (h : json.Laid heap dad typePtr foff foffs)
    (h' : json'.Laid heap dad' typePtr' foff foffs') : foffs' = foffs := by
  induction json generalizing json' dad dad' typePtr typePtr' foff foffs
    foffs' with
  | null =>
      cases json' with
      | null => rw [h.2, h'.2]
      | node key value bro son => exact absurd h.1 h'.1
  | node key value bro son ihBro ihSon =>
      cases json' with
      | null => exact absurd h'.1 h.1
      | node key' value' bro' son' =>
          obtain ⟨-, item, broFoffs, sonFoffs, hitem, -, -, -, hbro, hson,
            rfl⟩ := h
          obtain ⟨-, item', broFoffs', sonFoffs', hitem', -, -, -, hbro',
            hson', rfl⟩ := h'
          have hsame := hheap foff item item' hitem hitem'
          subst hsame
          rw [ihBro hbro hbro', ihSon hson hson']

theorem sub (h : json.Laid heap dad typePtr foff foffs) {foff' : ℕ}
    (hmem : foff' ∈ foffs) :
    ∃ (json' : Json) (dad' typePtr' : ℕ) (foffs' : List ℕ),
      json'.Laid heap dad' typePtr' foff' foffs' ∧
        foffs'.length ≤ foffs.length := by
  induction json generalizing dad typePtr foff foffs with
  | null =>
      rw [h.2] at hmem
      exact absurd hmem List.not_mem_nil
  | node key value bro son ihBro ihSon =>
      have hself := h
      obtain ⟨-, item, broFoffs, sonFoffs, -, -, -, -, hbro, hson, rfl⟩ := h
      rcases List.mem_cons.mp hmem with rfl | hmem
      · exact ⟨_, _, _, _, hself, le_rfl⟩
      · have hle : broFoffs.length + sonFoffs.length <
            (foff :: (broFoffs ++ sonFoffs)).length := by
          rw [List.length_cons, List.length_append]
          omega
        rcases List.mem_append.mp hmem with hmem | hmem
        · obtain ⟨json', dad', typePtr', foffs', hlaid, hlength⟩ :=
            ihBro hbro hmem
          exact ⟨json', dad', typePtr', foffs', hlaid, by omega⟩
        · obtain ⟨json', dad', typePtr', foffs', hlaid, hlength⟩ :=
            ihSon hson hmem
          exact ⟨json', dad', typePtr', foffs', hlaid, by omega⟩

theorem ne_zero (h : json.Laid heap dad typePtr foff foffs) {foff' : ℕ}
    (hmem : foff' ∈ foffs) : foff' ≠ 0 := by
  induction json generalizing dad typePtr foff foffs with
  | null =>
      rw [h.2] at hmem
      exact absurd hmem List.not_mem_nil
  | node key value bro son ihBro ihSon =>
      obtain ⟨hne, item, broFoffs, sonFoffs, -, -, -, -, hbro, hson, rfl⟩ := h
      rcases List.mem_cons.mp hmem with rfl | hmem
      · exact hne
      · rcases List.mem_append.mp hmem with hmem | hmem
        · exact ihBro hbro hmem
        · exact ihSon hson hmem

theorem first_not_mem (hheap : heap.Functional)
    (h : json.Laid heap dad typePtr foff (foff :: foffs)) : foff ∉ foffs := by
  cases json with
  | null => cases h.2
  | node key value bro son =>
      have hself := h
      obtain ⟨-, item, broFoffs, sonFoffs, -, -, -, -, hbro, hson, heq⟩ := h
      injection heq with _ heq
      subst heq
      have hlarger : ∀ {part : Json} {dad' typePtr' foff' : ℕ}
          {partFoffs : List ℕ},
          part.Laid heap dad' typePtr' foff' partFoffs →
          partFoffs.length ≤ broFoffs.length + sonFoffs.length →
          foff ∉ partFoffs := by
        intro part dad' typePtr' foff' partFoffs hpart hle hmem
        obtain ⟨json', dad', typePtr', foffs', hlaid, hlength⟩ :=
          hpart.sub hmem
        have hsame := unique hheap hself hlaid
        rw [hsame, List.length_cons, List.length_append] at hlength
        omega
      intro hmem
      rcases List.mem_append.mp hmem with hmem | hmem
      · exact hlarger hbro (by omega) hmem
      · exact hlarger hson (by omega) hmem

/-! ## Dads -/

theorem dads (h : json.Laid heap dad typePtr foff foffs) {foff' : ℕ}
    (hmem : foff' ∈ foffs) : ∃ item, heap foff' item ∧
      (item.entity.famAddr.dadPtr = dad ∨
        item.entity.famAddr.dadPtr ∈ foffs) := by
  induction json generalizing dad typePtr foff foffs with
  | null =>
      rw [h.2] at hmem
      exact absurd hmem List.not_mem_nil
  | node key value bro son ihBro ihSon =>
      obtain ⟨-, item, broFoffs, sonFoffs, hitem, -, hdad, -, hbro, hson,
        rfl⟩ := h
      rcases List.mem_cons.mp hmem with rfl | hmem
      · exact ⟨item, hitem, Or.inl hdad⟩
      · rcases List.mem_append.mp hmem with hmem | hmem
        · obtain ⟨item', hitem', hdad' | hdad'⟩ := ihBro hbro hmem
          · exact ⟨item', hitem', Or.inl hdad'⟩
          · exact ⟨item', hitem', Or.inr (List.mem_cons_of_mem _
              (List.mem_append_left _ hdad'))⟩
        · obtain ⟨item', hitem', hdad' | hdad'⟩ := ihSon hson hmem
          · exact ⟨item', hitem', Or.inr
              (by rw [hdad']; exact List.mem_cons_self)⟩
          · exact ⟨item', hitem', Or.inr (List.mem_cons_of_mem _
              (List.mem_append_right _ hdad'))⟩

/-- Slots whose dads lead elsewhere are not those of the tree.  The induction
goes down the tree, from a dad to his sons. -/
theorem not_mem_of_dads (hheap : heap.Functional) {other : ℕ} {area : List ℕ}
    (h : json.Laid heap dad typePtr foff foffs)
    (hother : other ∉ foffs) (hdad : dad ∉ area) (hne : dad ≠ other)
    (harea : ∀ foff ∈ area, ∃ item, heap foff item ∧
      (item.entity.famAddr.dadPtr = other ∨
        item.entity.famAddr.dadPtr ∈ area)) :
    ∀ foff ∈ foffs, foff ∉ area := by
  induction json generalizing dad typePtr foff foffs with
  | null =>
      rw [h.2]
      intro foff hmem
      exact absurd hmem List.not_mem_nil
  | node key value bro son ihBro ihSon =>
      obtain ⟨-, item, broFoffs, sonFoffs, hitem, -, hdad', -, hbro, hson,
        rfl⟩ := h
      have hfirst : foff ∉ area := by
        intro hmem
        obtain ⟨item', hitem', hlead⟩ := harea foff hmem
        have hsame := hheap foff item item' hitem hitem'
        subst hsame
        rcases hlead with hlead | hlead
        · exact hne (hdad'.symm.trans hlead)
        · exact hdad (by rw [← hdad']; exact hlead)
      rw [List.mem_cons, List.mem_append, not_or, not_or] at hother
      intro foff' hmem
      rcases List.mem_cons.mp hmem with rfl | hmem
      · exact hfirst
      · rcases List.mem_append.mp hmem with hmem | hmem
        · exact ihBro hbro hother.2.1 hdad hne foff' hmem
        · exact ihSon hson hother.2.2 hfirst (Ne.symm hother.1) foff' hmem

theorem nodup (hheap : heap.Functional)
    (h : json.Laid heap dad typePtr foff foffs) (hdad : dad ∉ foffs) :
    foffs.Nodup := by
  induction json generalizing dad typePtr foff foffs with
  | null =>
      rw [h.2]
      exact .nil
  | node key value bro son ihBro ihSon =>
      have hself := h
      obtain ⟨-, item, broFoffs, sonFoffs, -, -, -, -, hbro, hson, rfl⟩ := h
      have hfirst := first_not_mem hheap hself
      rw [List.mem_append, not_or] at hfirst
      rw [List.mem_cons, List.mem_append, not_or, not_or] at hdad
      have hapart := not_mem_of_dads hheap hson hdad.2.2 hfirst.1
        (Ne.symm hdad.1) (fun foff hmem => hbro.dads hmem)
      rw [List.nodup_cons, List.mem_append, not_or, List.nodup_append]
      refine ⟨hfirst, ihBro hbro hdad.2.1, ihSon hson hfirst.2, ?_⟩
      rintro foff₁ hmem₁ foff₂ hmem₂ rfl
      exact hapart foff₁ hmem₂ hmem₁

theorem apart (hheap : heap.Functional) {foff' : ℕ}
    (h : json.Laid heap 0 typePtr foff foffs)
    (h' : json'.Laid heap 0 typePtr' foff' foffs')
    (hroot : json.broless = true) (hroot' : json'.broless = true)
    (hne : foff ≠ foff') : ∀ foff ∈ foffs, foff ∉ foffs' := by
  cases json' with
  | null =>
      rw [h'.2]
      exact fun foff _ hmem => List.not_mem_nil hmem
  | node key' value' bro' son' =>
      obtain ⟨hzero', item', broFoffs', sonFoffs', hitem', -, hdad', -,
        hbro', hson', rfl⟩ := h'
      have hnull' : broFoffs' = [] := by
        cases bro' with
        | null => exact hbro'.2
        | node _ _ _ _ => cases hroot'
      rw [hnull', List.nil_append]
      cases json with
      | null =>
          rw [h.2]
          exact fun foff hmem => absurd hmem List.not_mem_nil
      | node key value bro son =>
          have hself := h
          obtain ⟨hzero, item, broFoffs, sonFoffs, hitem, -, hdad, -, hbro,
            hson, rfl⟩ := h
          have hnull : broFoffs = [] := by
            cases bro with
            | null => exact hbro.2
            | node _ _ _ _ => cases hroot
          rw [hnull, List.nil_append] at hself ⊢
          -- the first node of the other one has no dad
          have hfirst : foff' ∉ foff :: sonFoffs := by
            intro hmem
            rcases List.mem_cons.mp hmem with heq | hmem
            · exact hne heq.symm
            · obtain ⟨item₁, hitem₁, hlead⟩ := hson.dads hmem
              have hsame := hheap foff' item' item₁ hitem' hitem₁
              subst hsame
              rw [hdad'] at hlead
              rcases hlead with hlead | hlead
              · exact hzero hlead.symm
              · exact hson.ne_zero hlead rfl
          have hsons := not_mem_of_dads hheap hself hfirst
            (fun hmem => hson'.ne_zero hmem rfl) (Ne.symm hzero')
            (fun foff hmem => hson'.dads hmem)
          intro foff₁ hmem₁ hmem₂
          rcases List.mem_cons.mp hmem₂ with rfl | hmem₂
          · exact hfirst hmem₁
          · exact hsons foff₁ hmem₁ hmem₂

end Laid

end Json

end NosqlDbms
