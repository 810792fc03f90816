import NosqlDbms.Program
import Mathlib.Logic.Relation
import Mathlib.Tactic

/-!
# Programs as chains of steps

A call that, from a state with the invariant, does nothing but steps of a
given kind, each of which keeps the invariant, and returns values with some
property.  The rules follow the constructs of programs; a call that does not
come back needs nothing.
-/

namespace NosqlDbms

namespace Prog

variable {σ α β : Type}

/-- Steps lead from a state with the invariant to another one. -/
def Leads (inv : σ → Prop) (step : σ → σ → Prop) (state state' : σ) : Prop :=
  inv state' ∧ Relation.ReflTransGen step state state'

structure Follows (inv : σ → Prop) (step : σ → σ → Prop)
    (post : α → Prop) (call : Prog σ α) : Prop where
  ok : ∀ {state state' value}, inv state → call state = .ok value state' →
    Leads inv step state state' ∧ post value
  failed : ∀ {state state'}, inv state → call state = .failed state' →
    Leads inv step state state'

variable {inv : σ → Prop} {step : σ → σ → Prop} {post : α → Prop}
  {state state' : σ}

theorem Leads.refl (hinv : inv state) : Leads inv step state state :=
  ⟨hinv, .refl⟩

theorem Leads.trans {state'' : σ} (h : Leads inv step state state')
    (h' : Leads inv step state' state'') : Leads inv step state state'' :=
  ⟨h'.1, h.2.trans h'.2⟩

theorem Leads.single (hinv : inv state') (hstep : step state state') :
    Leads inv step state state' :=
  ⟨hinv, .single hstep⟩

theorem Follows.final {call : Prog σ α} (h : call.Follows inv step post)
    (hinv : inv state) (hfinal : (call state).final = some state') :
    Leads inv step state state' := by
  cases hcall : call state with
  | ok value last =>
      rw [hcall, Outcome.final_ok, Option.some.injEq] at hfinal
      exact hfinal ▸ (h.ok hinv hcall).1
  | failed last =>
      rw [hcall, Outcome.final_failed, Option.some.injEq] at hfinal
      exact hfinal ▸ h.failed hinv hcall
  | stuck =>
      rw [hcall] at hfinal
      cases hfinal

theorem Follows.mono {post' : α → Prop} {call : Prog σ α}
    (h : call.Follows inv step post)
    (himp : ∀ value, post value → post' value) :
    call.Follows inv step post' where
  ok := fun hinv hcall =>
    ⟨(h.ok hinv hcall).1, himp _ (h.ok hinv hcall).2⟩
  failed := h.failed

theorem follows_pure {value : α} (hvalue : post value) :
    (pure value : Prog σ α).Follows inv step post where
  ok := by
    intro state state' value' hinv hcall
    rw [pure_apply] at hcall
    injection hcall with heq hstate
    subst heq hstate
    exact ⟨.refl hinv, hvalue⟩
  failed := by
    intro state state' _ hcall
    cases hcall

theorem follows_fail : (fail : Prog σ α).Follows inv step post where
  ok := by
    intro state state' value _ hcall
    cases hcall
  failed := by
    intro state state' hinv hcall
    injection hcall with hstate
    subst hstate
    exact .refl hinv

theorem follows_stuck : (stuck : Prog σ α).Follows inv step post where
  ok := by
    intro state state' value _ hcall
    cases hcall
  failed := by
    intro state state' _ hcall
    cases hcall

theorem follows_get : (get : Prog σ σ).Follows inv step inv where
  ok := by
    intro state state' value hinv hcall
    injection hcall with heq hstate
    subst heq hstate
    exact ⟨.refl hinv, hinv⟩
  failed := by
    intro state state' _ hcall
    cases hcall

theorem follows_step {call : Prog σ Unit} {next : σ → σ}
    (hcall : ∀ state, call state = .ok () (next state))
    (hstep : ∀ state, inv state →
      inv (next state) ∧ step state (next state)) :
    call.Follows inv step (fun _ => True) where
  ok := by
    intro state state' value hinv hok
    rw [hcall] at hok
    injection hok with _ hstate
    subst hstate
    obtain ⟨hnext, hone⟩ := hstep state hinv
    exact ⟨.single hnext hone, trivial⟩
  failed := by
    intro state state' _ hfailed
    rw [hcall] at hfailed
    cases hfailed

theorem Follows.bind {post' : β → Prop} {call : Prog σ α}
    {next : α → Prog σ β} (h : call.Follows inv step post)
    (hnext : ∀ value, post value → (next value).Follows inv step post') :
    (call >>= next).Follows inv step post' where
  ok := by
    intro state state' value hinv hok
    obtain ⟨middle, state₁, hfirst, hlast⟩ := bind_eq_ok hok
    obtain ⟨hleads, hpost⟩ := h.ok hinv hfirst
    obtain ⟨hleads', hpost'⟩ := (hnext middle hpost).ok hleads.1 hlast
    exact ⟨hleads.trans hleads', hpost'⟩
  failed := by
    intro state state' hinv hfailed
    rcases bind_eq_failed hfailed with hfirst | ⟨middle, state₁, hfirst, hlast⟩
    · exact h.failed hinv hfirst
    · obtain ⟨hleads, hpost⟩ := h.ok hinv hfirst
      exact hleads.trans ((hnext middle hpost).failed hleads.1 hlast)

theorem Follows.status {call : Prog σ α} (h : call.Follows inv step post) :
    call.status.Follows inv step
      (fun found => ∀ value ∈ found, post value) where
  ok := by
    intro state state' found hinv hok
    rw [Prog.status] at hok
    cases hcall : call state with
    | ok value last =>
        rw [hcall] at hok
        injection hok with hfound hlast
        subst hfound hlast
        obtain ⟨hleads, hpost⟩ := h.ok hinv hcall
        refine ⟨hleads, fun value' hmem => ?_⟩
        rw [← Option.some.inj hmem]
        exact hpost
    | failed last =>
        rw [hcall] at hok
        injection hok with hfound hlast
        subst hfound hlast
        refine ⟨h.failed hinv hcall, fun value' hmem => ?_⟩
        cases hmem
    | stuck =>
        rw [hcall] at hok
        cases hok
  failed := by
    intro state state' _ hfailed
    rw [Prog.status] at hfailed
    cases hcall : call state <;> rw [hcall] at hfailed <;> cases hfailed

/-! ## Without steps to speak of -/

/-- The invariant is kept, and the value has the property. -/
abbrev Yields (inv : σ → Prop) (post : α → Prop) (call : Prog σ α) : Prop :=
  call.Follows inv (fun _ _ => True) post

theorem yields_of_final {call : Prog σ α}
    (h : ∀ state state', inv state → (call state).final = some state' →
      inv state') : call.Yields inv (fun _ => True) where
  ok := by
    intro state state' value hinv hok
    exact ⟨.single (h state state' hinv (by rw [hok, Outcome.final_ok]))
      trivial, trivial⟩
  failed := by
    intro state state' hinv hfailed
    exact .single (h state state' hinv (by rw [hfailed, Outcome.final_failed]))
      trivial

theorem Follows.runs {call : Prog σ α} (h : call.Follows inv step post) :
    call.Follows inv step (fun value => ∃ state state', inv state ∧
      inv state' ∧ call state = .ok value state') where
  ok := by
    intro state state' value hinv hok
    obtain ⟨hleads, -⟩ := h.ok hinv hok
    exact ⟨hleads, state, state', hinv, hleads.1, hok⟩
  failed := h.failed

end Prog

end NosqlDbms
