import Mathlib.Tactic

/-!
# The logic of a `WHERE` clause

A condition over nullable columns is true, false or unknown, and a row is selected when
it is true. Conjunction and disjunction are those of SQL, and what they select is the
conjunction and the disjunction of what their parts select.
-/

/-- `none` is unknown. -/
abbrev Truth := Option Bool

namespace Truth

variable {α : Type*}

def and : Truth → Truth → Truth
  | some false, _ => some false
  | _, some false => some false
  | some true, some true => some true
  | _, _ => none

def or : Truth → Truth → Truth
  | some true, _ => some true
  | _, some true => some true
  | some false, some false => some false
  | _, _ => none

def allOf (clauses : List Truth) : Truth := clauses.foldr and (some true)

def anyOf (clauses : List Truth) : Truth := clauses.foldr or (some false)

/-- `column IN (values)`: of an empty list false, of a null column otherwise unknown. -/
def isIn [DecidableEq α] (column : Option α) (values : List α) : Truth :=
  match values, column with
  | [], _ => some false
  | _ :: _, none => none
  | _ :: _, some a => some (decide (a ∈ values))

def isNull (column : Option α) : Truth := some column.isNone

def Selects (t : Truth) : Prop := t = some true

instance (t : Truth) : Decidable t.Selects := inferInstanceAs (Decidable (_ = _))

@[simp] theorem selects_some {b : Bool} : Selects (some b) ↔ b = true := by
  simp [Selects]

@[simp] theorem selects_and {s t : Truth} : (and s t).Selects ↔ s.Selects ∧ t.Selects := by
  rcases s with _ | _ | _ <;> rcases t with _ | _ | _ <;> simp [and, Selects]

@[simp] theorem selects_or {s t : Truth} : (or s t).Selects ↔ s.Selects ∨ t.Selects := by
  rcases s with _ | _ | _ <;> rcases t with _ | _ | _ <;> simp [or, Selects]

@[simp] theorem selects_isNull {column : Option α} : (isNull column).Selects ↔ column = none := by
  simp [isNull]

theorem selects_isIn [DecidableEq α] {column : Option α} {values : List α} :
    (isIn column values).Selects ↔ ∃ a, column = some a ∧ a ∈ values := by
  cases values <;> cases column <;> simp [isIn, Selects]

@[simp] theorem selects_isIn_some [DecidableEq α] {a : α} {values : List α} :
    (isIn (some a) values).Selects ↔ a ∈ values := by
  simp [selects_isIn]

@[simp] theorem selects_isIn_none [DecidableEq α] {values : List α} :
    ¬ (isIn none values).Selects := by
  simp [selects_isIn]

theorem selects_allOf {clauses : List Truth} :
    (allOf clauses).Selects ↔ ∀ t ∈ clauses, t.Selects := by
  induction clauses with
  | nil => simp [allOf]
  | cons t clauses ih => simp [allOf] at ih ⊢; simp [ih]

theorem selects_anyOf {clauses : List Truth} :
    (anyOf clauses).Selects ↔ ∃ t ∈ clauses, t.Selects := by
  induction clauses with
  | nil => simp [anyOf]
  | cons t clauses ih => simp [anyOf] at ih ⊢; simp [ih]

end Truth
