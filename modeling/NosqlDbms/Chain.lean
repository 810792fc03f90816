import Mathlib.Tactic

/-!
# Chains of links

Nodes that are linked one to the next, from a first one to where the last one
points.  A chain with one node more or less is again a chain, if the links of
the other nodes are what they were.
-/

namespace NosqlDbms

variable {ν : Type}

/-- From `start` the links lead through the nodes to `stop`. -/
def Chain (link : ν → ν → Prop) : ν → List ν → ν → Prop
  | start, [], stop => start = stop
  | start, node :: rest, stop =>
      start = node ∧ ∃ next, link node next ∧ Chain link next rest stop

namespace Chain

variable {link link' : ν → ν → Prop} {start stop : ν} {nodes : List ν}

theorem append_iff {front back : List ν} :
    Chain link start (front ++ back) stop ↔
      ∃ middle, Chain link start front middle ∧
        Chain link middle back stop := by
  induction front generalizing start with
  | nil => simp [Chain]
  | cons node front ih =>
      simp only [List.cons_append, Chain, ih]
      constructor
      · rintro ⟨hstart, next, hlink, middle, hfront, hback⟩
        exact ⟨middle, ⟨hstart, next, hlink, hfront⟩, hback⟩
      · rintro ⟨middle, ⟨hstart, next, hlink, hfront⟩, hback⟩
        exact ⟨hstart, next, hlink, middle, hfront, hback⟩

theorem congr (h : Chain link start nodes stop)
    (hkept : ∀ node ∈ nodes, ∀ next, link node next → link' node next) :
    Chain link' start nodes stop := by
  induction nodes generalizing start with
  | nil => exact h
  | cons node rest ih =>
      obtain ⟨hstart, next, hlink, hrest⟩ := h
      exact ⟨hstart, next, hkept node List.mem_cons_self next hlink,
        ih hrest (fun other hmem =>
          hkept other (List.mem_cons_of_mem node hmem))⟩

theorem start_eq {node : ν} {rest : List ν}
    (h : Chain link start (node :: rest) stop) : start = node := h.1

theorem extend {front : List ν} {last node stop' : ν}
    (h : Chain link start (front ++ [last]) stop)
    (hkept : ∀ other ∈ front, ∀ next, link other next → link' other next)
    (hlast : link' last node) (hnode : link' node stop') :
    Chain link' start (front ++ [last] ++ [node]) stop' := by
  obtain ⟨middle, hfront, hmiddle, -⟩ := append_iff.mp h
  rw [List.append_assoc]
  exact append_iff.mpr ⟨middle, hfront.congr hkept, hmiddle, node, hlast,
    rfl, stop', hnode, rfl⟩

theorem skip {front rest : List ν} {node gone : ν}
    (h : Chain link start (front ++ node :: gone :: rest) stop)
    (hfront : ∀ other ∈ front, ∀ next, link other next → link' other next)
    (hrest : ∀ other ∈ rest, ∀ next, link other next → link' other next)
    (hskip : ∀ next, link gone next → link' node next) :
    Chain link' start (front ++ node :: rest) stop := by
  obtain ⟨middle, hchain, hmiddle, next, -, -, after, hgone, hback⟩ :=
    append_iff.mp h
  exact append_iff.mpr ⟨middle, hchain.congr hfront, hmiddle, after,
    hskip after hgone, hback.congr hrest⟩

end Chain

end NosqlDbms
