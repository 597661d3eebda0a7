import Mathlib.Tactic

/-!
# Writing back the columns that changed

A unit of work loads a row, assigns to some columns of its copy, and writes back only the
columns whose value is no longer the one it loaded. `writeBack` is one column of that: the
value the row then has, when it may have changed since it was loaded.
-/

namespace Column

variable {α : Type*} [DecidableEq α] {loaded assigned stored : α}

def writeBack (loaded assigned stored : α) : α := if assigned = loaded then stored else assigned

@[simp] theorem writeBack_clean (loaded stored : α) : writeBack loaded loaded stored = stored :=
  if_pos rfl

theorem writeBack_dirty (h : assigned ≠ loaded) : writeBack loaded assigned stored = assigned :=
  if_neg h

theorem writeBack_eq_or (loaded assigned stored : α) :
    writeBack loaded assigned stored = stored ∨ writeBack loaded assigned stored = assigned := by
  by_cases h : assigned = loaded
  · exact Or.inl (if_pos h)
  · exact Or.inr (writeBack_dirty h)

/-- An assignment is lost only where it repeats what was loaded and the row has moved on. -/
theorem writeBack_eq_assigned_iff :
    writeBack loaded assigned stored = assigned ↔ (assigned = loaded → stored = assigned) := by
  by_cases h : assigned = loaded
  · simp [writeBack, h]
  · simp [writeBack, h]

end Column
