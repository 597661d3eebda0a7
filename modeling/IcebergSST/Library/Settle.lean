import Mathlib.Tactic

/-!
# Rounds until nothing is left to do

`settle? next n x` runs `next` from `x` and stops in the first round in which `next` has
nothing to do; it gives up when `n` rounds have not got there. Where every round lowers a
measure, more rounds than the measure never give up.
-/

namespace Settle

variable {α : Type*}

def settle? (next : α → Option α) : ℕ → α → Option α
  | 0, _ => none
  | n + 1, x =>
    match next x with
    | none => some x
    | some y => settle? next n y

variable {next : α → Option α} {Inv : α → Prop} {μ : α → ℕ} {n : ℕ} {x z : α}

/-- What every round keeps holds at the end, where nothing is left to do. -/
theorem settle?_spec (hstep : ∀ x y, Inv x → next x = some y → Inv y)
    (h : settle? next n x = some z) (hx : Inv x) : Inv z ∧ next z = none := by
  induction n generalizing x with
  | zero => cases h
  | succ n ih =>
      rw [settle?] at h
      cases hn : next x with
      | none =>
          rw [hn] at h
          obtain rfl : x = z := Option.some.inj h
          exact ⟨hx, hn⟩
      | some y =>
          rw [hn] at h
          exact ih h (hstep x y hx hn)

/-- A measure that every round lowers bounds the number of rounds. -/
theorem settle?_isSome (hstep : ∀ x y, Inv x → next x = some y → Inv y ∧ μ y < μ x)
    (hx : Inv x) (hn : μ x < n) : (settle? next n x).isSome := by
  induction n generalizing x with
  | zero => omega
  | succ n ih =>
      rw [settle?]
      cases hy : next x with
      | none => rfl
      | some y =>
          obtain ⟨hinv, hlt⟩ := hstep x y hx hy
          exact ih hinv (by omega)

end Settle
