import Mathlib.Tactic

/-!
# Runs of a machine under a condition on its steps

A machine is a partial step function on its states. The states considered are those
reached from an initial one by steps that each meet a condition on the state they start
from; what the initial states have and the permitted steps keep, all of them have.
-/

namespace Machine

variable {σ α : Type*} (step : σ → α → Option σ) (guard : σ → α → Prop) (init : σ → Prop)

inductive Reachable : σ → Prop
  | start {s : σ} : init s → Reachable s
  | step {s s' : σ} {a : α} : Reachable s → guard s a → step s a = some s' → Reachable s'

def run [∀ s a, Decidable (guard s a)] (s : σ) : List α → Option σ
  | [] => some s
  | a :: as => if guard s a then (step s a).bind (run · as) else none

variable {step guard init} {s s' : σ}

theorem Reachable.invariant {P : σ → Prop} (hinit : ∀ s, init s → P s)
    (hstep : ∀ s a s', P s → guard s a → step s a = some s' → P s')
    (h : Reachable step guard init s) : P s := by
  induction h with
  | start hs => exact hinit _ hs
  | step _ ha hs ih => exact hstep _ _ _ ih ha hs

theorem Reachable.weaken {guard' : σ → α → Prop} (hweak : ∀ s a, guard s a → guard' s a)
    (h : Reachable step guard init s) : Reachable step guard' init s := by
  induction h with
  | start hs => exact .start hs
  | step _ ha hs ih => exact ih.step (hweak _ _ ha) hs

theorem Reachable.run [∀ s a, Decidable (guard s a)] (hs : Reachable step guard init s)
    {as : List α} (h : run step guard s as = some s') : Reachable step guard init s' := by
  induction as generalizing s with
  | nil => exact Option.some.inj h ▸ hs
  | cons a as ih =>
      unfold Machine.run at h
      split_ifs at h with ha
      obtain ⟨s₁, hstep, hrun⟩ := Option.bind_eq_some_iff.1 h
      exact ih (hs.step ha hstep) hrun

/-- A run that ends in a state with a property shows such a state reached. -/
theorem Reachable.exists_of_run [∀ s a, Decidable (guard s a)] (hs : Reachable step guard init s)
    {as : List α} {P : σ → Prop} {_ : DecidablePred P}
    (h : (Machine.run step guard s as).any fun s' => P s') :
    ∃ s', Reachable step guard init s' ∧ P s' := by
  obtain ⟨s', hrun, hs'⟩ := (Option.any_eq_true _ _).1 h
  exact ⟨s', hs.run hrun, of_decide_eq_true hs'⟩

end Machine
