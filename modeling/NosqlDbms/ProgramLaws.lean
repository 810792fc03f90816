import NosqlDbms.ProgramSteps
import Mathlib.Tactic

/-!
# Laws of programs with a status

Sequencing is associative, and two facts about a call that every construct
hands on: that a part of the state is never changed, and that the call never
returns `FAILED`.
-/

namespace NosqlDbms

namespace Prog

variable {σ τ υ α β : Type}

instance : LawfulMonad (Prog σ) := LawfulMonad.mk' (Prog σ)
  (by
    intro α call
    funext state
    change (match call state with
      | .ok value state' => Outcome.ok value state'
      | .failed state' => .failed state'
      | .stuck => .stuck) = call state
    cases call state <;> rfl)
  (by
    intro α β value next
    rfl)
  (by
    intro α β γ call next last
    funext state
    simp only [bind_apply]
    cases call state <;> rfl)

theorem bind_eq_of_eq {call call' : Prog σ α} {next : α → Prog σ β}
    {state : σ} (h : call state = call' state) :
    (call >>= next) state = (call' >>= next) state := by
  rw [bind_apply, bind_apply, h]

/-! ## What a call leaves alone -/

/-- The part of the state that `view` shows is the same when the call returns,
with either status. -/
def Keeps (view : σ → τ) (call : Prog σ α) : Prop :=
  ∀ state state', (call state).final = some state' →
    view state' = view state

variable {view : σ → τ}

theorem Keeps.comp {call : Prog σ α} (h : call.Keeps view) (part : τ → υ) :
    call.Keeps (fun state => part (view state)) :=
  fun state state' hfinal => congrArg part (h state state' hfinal)

theorem Keeps.of_ok {call : Prog σ α} (h : call.Keeps view)
    {state state' : σ} {value : α} (hok : call state = .ok value state') :
    view state' = view state := by
  apply h
  rw [hok, Outcome.final_ok]

theorem keeps_pure (value : α) :
    (pure value : Prog σ α).Keeps view := by
  intro state state' h
  rw [pure_apply, Outcome.final_ok, Option.some.injEq] at h
  rw [h]

theorem keeps_fail : (fail : Prog σ α).Keeps view := by
  intro state state' h
  rw [fail_apply, Outcome.final_failed, Option.some.injEq] at h
  rw [h]

theorem keeps_stuck : (stuck : Prog σ α).Keeps view := by
  intro state state' h
  cases h

theorem keeps_get : (get : Prog σ σ).Keeps view := by
  intro state state' h
  rw [get_apply, Outcome.final_ok, Option.some.injEq] at h
  rw [h]

theorem Keeps.bind {call : Prog σ α} {next : α → Prog σ β}
    (h : call.Keeps view) (hnext : ∀ value, (next value).Keeps view) :
    (call >>= next).Keeps view := by
  intro state state' hfinal
  rw [bind_apply] at hfinal
  cases hcall : call state with
  | ok value middle =>
      rw [hcall] at hfinal
      exact (hnext value middle state' hfinal).trans (h.of_ok hcall)
  | failed middle =>
      rw [hcall] at hfinal
      apply h
      rw [hcall]
      exact hfinal
  | stuck =>
      rw [hcall] at hfinal
      cases hfinal

theorem final_status (call : Prog σ α) (state : σ) :
    (call.status state).final = (call state).final := by
  rw [Prog.status]
  cases call state <;> rfl

theorem Keeps.status {call : Prog σ α} (h : call.Keeps view) :
    call.status.Keeps view := by
  intro state state' hfinal
  rw [final_status] at hfinal
  exact h state state' hfinal

theorem keeps_zoom {part : σ → υ} {put : σ → υ → σ} (call : Prog υ α)
    (hput : ∀ state state', view (put state state') = view state) :
    (call.zoom part put).Keeps view := by
  intro state state' hfinal
  rw [zoom] at hfinal
  cases hcall : call (part state) with
  | ok value middle =>
      rw [hcall, Outcome.mapState_ok, Outcome.final_ok,
        Option.some.injEq] at hfinal
      rw [← hfinal, hput]
  | failed middle =>
      rw [hcall, Outcome.mapState_failed, Outcome.final_failed,
        Option.some.injEq] at hfinal
      rw [← hfinal, hput]
  | stuck =>
      rw [hcall] at hfinal
      cases hfinal

/-- What follows may be replaced by what does the same in the states the call
leads to. -/
theorem Keeps.bind_congr {call : Prog σ α} {next next' : α → Prog σ β}
    (h : call.Keeps view) {state : σ}
    (hnext : ∀ value state', view state' = view state →
      next value state' = next' value state') :
    (call >>= next) state = (call >>= next') state := by
  rw [bind_apply, bind_apply]
  cases hcall : call state with
  | ok value state' => exact hnext value state' (h.of_ok hcall)
  | failed state' => rfl
  | stuck => rfl

theorem Keeps.yields {call : Prog σ α} (h : call.Keeps view) (shown : τ) :
    call.Yields (fun state => view state = shown) (fun _ => True) :=
  yields_of_final (fun state state' hshown hfinal =>
    (h state state' hfinal).trans hshown)

theorem keeps_of_yields {post : α → Prop} {call : Prog σ α}
    (h : ∀ shown, call.Yields (fun state => view state = shown) post) :
    call.Keeps view := by
  intro state state' hfinal
  exact ((h (view state)).final rfl hfinal).1

/-! ## What a call always changes -/

/-- The part of the state that `view` shows is another one when the call
returns, with either status. -/
def Changes (view : σ → τ) (call : Prog σ α) : Prop :=
  ∀ state state', (call state).final = some state' →
    view state' ≠ view state

theorem Changes.before {call : Prog σ α} {next : α → Prog σ β}
    (h : call.Changes view) (hnext : ∀ value, (next value).Keeps view) :
    (call >>= next).Changes view := by
  intro state state' hfinal
  rw [bind_apply] at hfinal
  cases hcall : call state with
  | ok value middle =>
      rw [hcall] at hfinal
      rw [hnext value middle state' hfinal]
      apply h
      rw [hcall, Outcome.final_ok]
  | failed middle =>
      rw [hcall] at hfinal
      apply h
      rw [hcall]
      exact hfinal
  | stuck =>
      rw [hcall] at hfinal
      cases hfinal

theorem Changes.status {call : Prog σ α} (h : call.Changes view) :
    call.status.Changes view := by
  intro state state' hfinal
  rw [final_status] at hfinal
  exact h state state' hfinal

/-! ## Calls without a failure -/

def Unfailing (call : Prog σ α) : Prop :=
  ∀ state, (call state).isFailed = false

theorem unfailing_pure (value : α) : (pure value : Prog σ α).Unfailing :=
  fun _ => rfl

theorem unfailing_stuck : (stuck : Prog σ α).Unfailing := fun _ => rfl

theorem unfailing_status (call : Prog σ α) : call.status.Unfailing := by
  intro state
  rw [status]
  cases call state <;> rfl

theorem Unfailing.bind {call : Prog σ α} {next : α → Prog σ β}
    (h : call.Unfailing) (hnext : ∀ value, (next value).Unfailing) :
    (call >>= next).Unfailing := by
  intro state
  rw [bind_apply]
  have hcall := h state
  cases hstate : call state with
  | ok value state' => exact hnext value state'
  | failed state' =>
      rw [hstate] at hcall
      cases hcall
  | stuck => rfl

theorem Unfailing.bind_stuck {call : Prog σ α} (h : call.Unfailing) :
    (call >>= fun _ => (stuck : Prog σ β)) = stuck := by
  funext state
  rw [bind_apply]
  have hcall := h state
  cases hstate : call state with
  | ok value state' => rfl
  | failed state' =>
      rw [hstate] at hcall
      cases hcall
  | stuck => rfl

end Prog

end NosqlDbms
