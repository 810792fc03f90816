import Mathlib.Data.Fintype.Card
import Mathlib.Logic.Relation
import Mathlib.Order.WellFounded
import Mathlib.Tactic

/-!
# Forests of linked nodes

Nodes with labelled links to other nodes, at most one link into each node and
no way back.  A node nothing leads to can be taken out with all it leads to,
and it can be given new links.
-/

namespace NosqlDbms

variable {ν κ : Type}

def LinkStep (link : ν → κ → ν → Prop) (next node : ν) : Prop :=
  ∃ label, link node label next

structure LinkForest (live : ν → Prop) (link : ν → κ → ν → Prop) : Prop where
  closed : ∀ {node label next}, link node label next → live node ∧ live next
  single : ∀ {node label node' label' next}, link node label next →
    link node' label' next → node' = node ∧ label' = label
  founded : WellFounded (LinkStep link)

/-- No link leads there. -/
def Unlinked (link : ν → κ → ν → Prop) (next : ν) : Prop :=
  ∀ node label, ¬ link node label next

namespace LinkForest

variable {live live' gone : ν → Prop} {link link' : ν → κ → ν → Prop}
  {root : ν}

theorem empty : LinkForest (fun _ : ν => False)
    (fun (_ : ν) (_ : κ) (_ : ν) => False) where
  closed := False.elim
  single := False.elim
  founded := ⟨fun node => ⟨node, fun _ ⟨_, hlink⟩ => hlink.elim⟩⟩

theorem congr (h : LinkForest live link)
    (hlive : ∀ node, live' node ↔ live node)
    (hlink : ∀ node label next, link' node label next ↔
      link node label next) : LinkForest live' link' := by
  have heq : live' = live := funext fun node => propext (hlive node)
  have heq' : link' = link := by
    funext node label next
    exact propext (hlink node label next)
  rw [heq, heq']
  exact h

theorem no_return (h : LinkForest live link) (node : ν) :
    ¬ Relation.TransGen (LinkStep link) node node := by
  intro hreturn
  exact (h.founded.transGen.irrefl.irrefl node) hreturn

/-- From each node one gets back to one that nothing leads to. -/
theorem exists_root (h : LinkForest live link)
    (hfinite : {node | live node}.Finite) {node : ν} (hnode : live node) :
    ∃ root, Unlinked link root ∧
      Relation.ReflTransGen (LinkStep link) node root := by
  have hsub : Finite {node // live node} := hfinite
  let before : {node // live node} → {node // live node} → Prop :=
    fun first node => Relation.TransGen (LinkStep link) node.1 first.1
  have htrans : IsTrans {node // live node} before :=
    ⟨fun _ _ _ hfirst hsecond => hsecond.trans hfirst⟩
  have hirrefl : Std.Irrefl before := ⟨fun node => h.no_return node.1⟩
  have hfounded : WellFounded before :=
    Finite.wellFounded_of_trans_of_irrefl before
  induction hback : (⟨node, hnode⟩ : {node // live node}) using
    hfounded.induction generalizing node with
  | _ current ih =>
      subst hback
      by_cases hroot : Unlinked link node
      · exact ⟨node, hroot, .refl⟩
      · simp only [Unlinked, not_forall, not_not] at hroot
        obtain ⟨previous, label, hlink⟩ := hroot
        obtain ⟨root, hunlinked, hreach⟩ := ih
          ⟨previous, (h.closed hlink).1⟩ (.single ⟨label, hlink⟩)
          (h.closed hlink).1 rfl
        exact ⟨root, hunlinked, .head ⟨label, hlink⟩ hreach⟩

theorem remove (h : LinkForest live link)
    (hgone : ∀ {node label next}, link node label next → gone next →
      gone node) :
    LinkForest (fun node => live node ∧ ¬ gone node)
      (fun node label next => ¬ gone node ∧ link node label next) where
  closed := by
    rintro node label next ⟨hleft, hlink⟩
    obtain ⟨hnode, hnext⟩ := h.closed hlink
    exact ⟨⟨hnode, hleft⟩, hnext, fun hnext => hleft (hgone hlink hnext)⟩
  single := fun hlink hlink' => h.single hlink.2 hlink'.2
  founded := by
    apply Subrelation.wf _ h.founded
    rintro next node ⟨label, -, hlink⟩
    exact ⟨label, hlink⟩

/-- Nodes that are taken out, where the one link that leads to them is led
past them. -/
theorem bypass {dad out : ν} {first behind : κ}
    (h : LinkForest live link) (hout : link dad first out)
    (hdad : ¬ gone dad) (hgone : gone out)
    (hlink : ∀ {node label next}, link' node label next →
      (¬ gone node ∧ ¬ gone next ∧ link node label next) ∨
        (node = dad ∧ label = first ∧ ¬ gone next ∧ link out behind next)) :
    LinkForest (fun node => live node ∧ ¬ gone node) link' where
  closed := by
    intro node label next hnode
    rcases hlink hnode with ⟨hleft, hnext, hold⟩ | ⟨rfl, -, hnext, hold⟩
    · exact ⟨⟨(h.closed hold).1, hleft⟩, (h.closed hold).2, hnext⟩
    · exact ⟨⟨(h.closed hout).1, hdad⟩, (h.closed hold).2, hnext⟩
  single := by
    intro node label node' label' next hnode hnode'
    rcases hlink hnode with ⟨hleft, -, hold⟩ | ⟨rfl, rfl, -, hold⟩
    · rcases hlink hnode' with ⟨-, -, hold'⟩ | ⟨-, -, -, hold'⟩
      · exact h.single hold hold'
      · rw [← (h.single hold hold').1] at hleft
        exact absurd hgone hleft
    · rcases hlink hnode' with ⟨hleft, -, hold'⟩ | ⟨rfl, rfl, -, -⟩
      · rw [← (h.single hold' hold).1] at hleft
        exact absurd hgone hleft
      · exact ⟨rfl, rfl⟩
  founded := by
    apply Subrelation.wf _ h.founded.transGen
    rintro next node ⟨label, hnode⟩
    rcases hlink hnode with ⟨-, -, hold⟩ | ⟨rfl, -, -, hold⟩
    · exact .single ⟨label, hold⟩
    · exact .tail (.single ⟨behind, hold⟩) ⟨first, hout⟩

/-- A node nothing leads to gets links to other such nodes. -/
theorem relink {given : κ → ν → Prop} (h : LinkForest live link)
    (hroot : live root) (hunlinked : Unlinked link root)
    (hgiven : ∀ {label next}, given label next → live next ∧ next ≠ root ∧
      Unlinked link next)
    (hapart : ∀ {label label' next}, given label next →
      given label' next → label' = label)
    (hlink : ∀ {node label next}, link' node label next →
      (node = root ∧ given label next) ∨
        (node ≠ root ∧ link node label next)) :
    LinkForest live link' where
  closed := by
    intro node label next hnode
    rcases hlink hnode with ⟨rfl, hnext⟩ | ⟨-, hnext⟩
    · exact ⟨hroot, (hgiven hnext).1⟩
    · exact h.closed hnext
  single := by
    intro node label node' label' next hnode hnode'
    rcases hlink hnode with ⟨rfl, hnext⟩ | ⟨hne, hnext⟩
    · rcases hlink hnode' with ⟨rfl, hnext'⟩ | ⟨-, hnext'⟩
      · exact ⟨rfl, hapart hnext hnext'⟩
      · exact absurd hnext' ((hgiven hnext).2.2 node' label')
    · rcases hlink hnode' with ⟨-, hnext'⟩ | ⟨-, hnext'⟩
      · exact absurd hnext ((hgiven hnext').2.2 node label)
      · exact h.single hnext hnext'
  founded := by
    have hother : ∀ node, node ≠ root → Acc (LinkStep link') node := by
      intro node
      induction node using h.founded.induction with
      | _ node ih =>
          intro hne
          constructor
          rintro next ⟨label, hnext⟩
          rcases hlink hnext with ⟨heq, -⟩ | ⟨-, hnext⟩
          · exact absurd heq hne
          · apply ih next ⟨label, hnext⟩
            rintro rfl
            exact hunlinked node label hnext
    constructor
    intro node
    by_cases heq : node = root
    · constructor
      rintro next ⟨label, hnext⟩
      rcases hlink hnext with ⟨-, hnext⟩ | ⟨hne, -⟩
      · exact hother next (hgiven hnext).2.1
      · exact absurd heq hne
    · exact hother node heq

theorem add (h : LinkForest live link) (new : ν) :
    LinkForest (fun node => node = new ∨ live node) link where
  closed := fun hlink =>
    ⟨Or.inr (h.closed hlink).1, Or.inr (h.closed hlink).2⟩
  single := h.single
  founded := h.founded

theorem unlinked_of_not_live (h : LinkForest live link) (hroot : ¬ live root) :
    Unlinked link root :=
  fun _ _ hlink => hroot (h.closed hlink).2

end LinkForest

end NosqlDbms
