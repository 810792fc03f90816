import Mathlib.Tactic.Basic
import Mathlib.Logic.Function.Basic

/-!
# Programs with a status

A C function that works on some state and returns `OK` or `FAILED` is a
state transformer with three outcomes.  A failed call keeps the state it had
reached, because an early `return FAILED` undoes nothing.  The third outcome
stands for a call without a defined result: a recursion or loop that does not
come back, or a step the language leaves undefined.
-/

namespace NosqlDbms

inductive Outcome (σ α : Type) where
  | ok (value : α) (state : σ)
  | failed (state : σ)
  | stuck

def Prog (σ α : Type) : Type := σ → Outcome σ α

namespace Outcome

variable {σ τ α : Type}

/-- The state a call leaves behind when it returns, with either status. -/
def final : Outcome σ α → Option σ
  | .ok _ state => some state
  | .failed state => some state
  | .stuck => none

def isOk : Outcome σ α → Bool
  | .ok _ _ => true
  | .failed _ => false
  | .stuck => false

def isFailed : Outcome σ α → Bool
  | .ok _ _ => false
  | .failed _ => true
  | .stuck => false

/-- The call returns `OK`, and value and state pass the test. -/
def holds (test : α → σ → Bool) : Outcome σ α → Bool
  | .ok value state => test value state
  | .failed _ => false
  | .stuck => false

def mapState (put : σ → τ) : Outcome σ α → Outcome τ α
  | .ok value state => .ok value (put state)
  | .failed state => .failed (put state)
  | .stuck => .stuck

@[simp] theorem final_ok (value : α) (state : σ) :
    (Outcome.ok value state).final = some state := rfl

@[simp] theorem final_failed (state : σ) :
    (Outcome.failed state : Outcome σ α).final = some state := rfl

@[simp] theorem mapState_ok (put : σ → τ) (value : α) (state : σ) :
    (Outcome.ok value state).mapState put = .ok value (put state) := rfl

@[simp] theorem mapState_failed (put : σ → τ) (state : σ) :
    (Outcome.failed state : Outcome σ α).mapState put = .failed (put state) :=
  rfl

@[simp] theorem mapState_stuck (put : σ → τ) :
    (Outcome.stuck : Outcome σ α).mapState put = .stuck := rfl

theorem exists_of_holds {test : α → σ → Bool} {outcome : Outcome σ α}
    (h : outcome.holds test = true) :
    ∃ value state, outcome = .ok value state ∧ test value state = true := by
  cases outcome with
  | ok value state => exact ⟨value, state, rfl, h⟩
  | failed state => cases h
  | stuck => cases h

end Outcome

namespace Prog

variable {σ τ α β : Type}

instance : Monad (Prog σ) where
  pure value := fun state => .ok value state
  bind first next := fun state =>
    match first state with
    | .ok value state' => next value state'
    | .failed state' => .failed state'
    | .stuck => .stuck

/-- `return FAILED`. -/
def fail : Prog σ α := fun state => .failed state

def stuck : Prog σ α := fun _ => .stuck

def get : Prog σ σ := fun state => .ok state state

def modify (change : σ → σ) : Prog σ Unit := fun state =>
  .ok () (change state)

/-- Run a call and look at its status instead of passing a failure on. -/
def status (call : Prog σ α) : Prog σ (Option α) := fun state =>
  match call state with
  | .ok value state' => .ok (some value) state'
  | .failed state' => .ok none state'
  | .stuck => .stuck

/-- Run a call on one component of the state. -/
def zoom (part : σ → τ) (put : σ → τ → σ) (call : Prog τ α) : Prog σ α :=
  fun state => (call (part state)).mapState (put state)

@[simp] theorem pure_apply (value : α) (state : σ) :
    (pure value : Prog σ α) state = .ok value state := rfl

theorem bind_apply (first : Prog σ α) (next : α → Prog σ β) (state : σ) :
    (first >>= next) state =
      match first state with
      | .ok value state' => next value state'
      | .failed state' => .failed state'
      | .stuck => .stuck := rfl

theorem bind_of_ok {first : Prog σ α} {next : α → Prog σ β}
    {state state' : σ} {value : α}
    (hfirst : first state = .ok value state') :
    (first >>= next) state = next value state' := by
  rw [bind_apply, hfirst]

theorem bind_of_failed {first : Prog σ α} {next : α → Prog σ β}
    {state state' : σ}
    (hfirst : first state = .failed state') :
    (first >>= next) state = .failed state' := by
  rw [bind_apply, hfirst]

theorem bind_eq_ok {first : Prog σ α} {next : α → Prog σ β}
    {state state' : σ} {value : β}
    (h : (first >>= next) state = .ok value state') :
    ∃ middle state₁, first state = .ok middle state₁ ∧
      next middle state₁ = .ok value state' := by
  rw [bind_apply] at h
  cases hfirst : first state with
  | ok middle state₁ =>
      rw [hfirst] at h
      exact ⟨middle, state₁, rfl, h⟩
  | failed state₁ =>
      rw [hfirst] at h
      cases h
  | stuck =>
      rw [hfirst] at h
      cases h

theorem bind_eq_failed {first : Prog σ α} {next : α → Prog σ β}
    {state state' : σ} (h : (first >>= next) state = .failed state') :
    first state = .failed state' ∨ ∃ middle state₁,
      first state = .ok middle state₁ ∧
        next middle state₁ = .failed state' := by
  rw [bind_apply] at h
  cases hfirst : first state with
  | ok middle state₁ =>
      rw [hfirst] at h
      exact Or.inr ⟨middle, state₁, rfl, h⟩
  | failed state₁ =>
      rw [hfirst] at h
      injection h with hstate
      rw [hstate]
      exact Or.inl rfl
  | stuck =>
      rw [hfirst] at h
      cases h

@[simp] theorem fail_apply (state : σ) :
    (fail : Prog σ α) state = .failed state := rfl

@[simp] theorem stuck_apply (state : σ) :
    (stuck : Prog σ α) state = .stuck := rfl

@[simp] theorem get_apply (state : σ) :
    (get : Prog σ σ) state = .ok state state := rfl

@[simp] theorem modify_apply (change : σ → σ) (state : σ) :
    modify change state = .ok () (change state) := rfl

theorem status_of_ok {call : Prog σ α} {state state' : σ} {value : α}
    (h : call state = .ok value state') :
    call.status state = .ok (some value) state' := by
  simp only [status, h]

theorem status_of_failed {call : Prog σ α} {state state' : σ}
    (h : call state = .failed state') :
    call.status state = .ok none state' := by
  simp only [status, h]

end Prog

end NosqlDbms
