import Mathlib.Logic.Basic
import Mathlib.Tactic.Basic

/-!
# Runs of a state machine

The states a machine reaches when each of its steps is one that is allowed in
the state before it, and the induction over such runs.  `runAll` executes a
list of calls, so that a run can be exhibited by evaluation.
-/

namespace NosqlDbms

variable {σ κ : Type}

inductive Run (init : σ → Prop) (step : κ → σ → σ → Prop)
    (allowed : σ → κ → Prop) : σ → Prop
  | init {state : σ} (h : init state) : Run init step allowed state
  | step {state state' : σ} {call : κ}
      (run : Run init step allowed state) (hallowed : allowed state call)
      (hstep : step call state state') : Run init step allowed state'

namespace Run

variable {init : σ → Prop} {step : κ → σ → σ → Prop}
  {allowed allowed' : σ → κ → Prop}

/-- What holds at the start and is kept by every allowed step holds in every
state reached. -/
theorem invariant {inv : σ → Prop} {state : σ}
    (run : Run init step allowed state)
    (hinit : ∀ state, init state → inv state)
    (hstep : ∀ state call state', inv state → allowed state call →
      step call state state' → inv state') : inv state := by
  induction run with
  | init h => exact hinit _ h
  | step _ hallowed hcall ih => exact hstep _ _ _ ih hallowed hcall

end Run

/-- Execute the calls one after the other, as long as they are allowed. -/
def runAll (exec : κ → σ → Option σ) (allowed : σ → κ → Bool) :
    List κ → σ → Option σ
  | [], state => some state
  | call :: rest, state =>
      if allowed state call then
        (exec call state).bind (runAll exec allowed rest)
      else none

theorem Run.of_runAll {init : σ → Prop} {step : κ → σ → σ → Prop}
    {allowed : σ → κ → Prop} {exec : κ → σ → Option σ}
    {test : σ → κ → Bool} {calls : List κ} {state state' : σ}
    (hexec : ∀ {call state state'}, exec call state = some state' →
      step call state state')
    (htest : ∀ {state call}, test state call = true → allowed state call)
    (run : Run init step allowed state)
    (hall : runAll exec test calls state = some state') :
    Run init step allowed state' := by
  induction calls generalizing state with
  | nil =>
      rw [runAll, Option.some.injEq] at hall
      exact hall ▸ run
  | cons call rest ih =>
      rw [runAll] at hall
      split at hall
      next hallowed =>
        rw [Option.bind_eq_some_iff] at hall
        obtain ⟨next, hnext, hrest⟩ := hall
        exact ih (.step run (htest hallowed) (hexec hnext)) hrest
      next => cases hall

/-- A run that ends in a state with some property, found by evaluation. -/
theorem Run.exists_of_any {init : σ → Prop} {step : κ → σ → σ → Prop}
    {allowed : σ → κ → Prop} {state : σ} (exec : κ → σ → Option σ)
    (test : σ → κ → Bool) (calls : List κ) (found : σ → Bool)
    (hexec : ∀ {call state state'}, exec call state = some state' →
      step call state state')
    (htest : ∀ {state call}, test state call = true → allowed state call)
    (run : Run init step allowed state)
    (hany : (runAll exec test calls state).any found = true) :
    ∃ state', Run init step allowed state' ∧ found state' = true := by
  rw [Option.any_eq_true_iff_get] at hany
  obtain ⟨hsome, hfound⟩ := hany
  exact ⟨_, .of_runAll hexec htest run (Option.some_get hsome).symm, hfound⟩

end NosqlDbms
