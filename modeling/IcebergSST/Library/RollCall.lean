import Mathlib

/-!
# Rows taken once

A listing is read row by row. A row may be none of ours, may be one that cannot be
identified, or carries identifiers; it is taken when nobody before it had one of them. The
roll is sound exactly when every row of ours was identified and no two of them share an
identifier, and then all of them were taken.
-/

namespace RollCall

inductive Verdict (ι : Type)
  | outside
  | unusable
  | identified (ids : List ι)
  deriving DecidableEq, Repr

def Verdict.ids? {ι : Type} : Verdict ι → Option (List ι)
  | .identified ids => some ids
  | _ => none

structure Roll (ρ ι : Type) where
  taken : List ρ := []
  ids : List ι := []
  faulty : Bool := false

variable {ρ ι : Type} [DecidableEq ι] (verdict : ρ → Verdict ι)

def call (roll : Roll ρ ι) (row : ρ) : Roll ρ ι :=
  match verdict row with
  | .outside => roll
  | .unusable => { roll with faulty := true }
  | .identified ids =>
      if ∃ i ∈ ids, i ∈ roll.ids then { roll with faulty := true }
      else { roll with taken := roll.taken ++ [row], ids := roll.ids ++ ids }

def takes (roll : Roll ρ ι) (row : ρ) : Bool :=
  match verdict row with
  | .identified ids => ids.all fun i => i ∉ roll.ids
  | _ => false

def callAll (rows : List ρ) (roll : Roll ρ ι) : Roll ρ ι := rows.foldl (call verdict) roll

def InScope (row : ρ) : Prop := verdict row ≠ .outside

instance (row : ρ) : Decidable (InScope verdict row) := inferInstanceAs (Decidable (_ ≠ _))

/-- Every row of ours has identifiers that no other row of ours has. -/
def Distinct (rows : List ρ) : Prop :=
  (∀ row ∈ rows, verdict row ≠ .unusable) ∧
    (rows.filterMap fun row => (verdict row).ids?).Pairwise List.Disjoint

/-- The roll's identifiers are those of the rows taken, and no two of these share one. -/
structure Roll.Sound (roll : Roll ρ ι) : Prop where
  identified : ∀ row ∈ roll.taken, ∃ ids, verdict row = .identified ids
  ids : roll.ids = (roll.taken.filterMap fun row => (verdict row).ids?).flatten
  disjoint : (roll.taken.filterMap fun row => (verdict row).ids?).Pairwise List.Disjoint

variable {verdict} {roll : Roll ρ ι} {row : ρ} {rows : List ρ} {ids : List ι}

theorem call_outside (h : verdict row = .outside) : call verdict roll row = roll := by
  rw [call, h]

theorem call_unusable (h : verdict row = .unusable) :
    call verdict roll row = { roll with faulty := true } := by rw [call, h]

theorem call_known (h : verdict row = .identified ids) (hids : ∃ i ∈ ids, i ∈ roll.ids) :
    call verdict roll row = { roll with faulty := true } := by
  rw [call, h]
  exact if_pos hids

theorem call_new (h : verdict row = .identified ids) (hids : ¬ ∃ i ∈ ids, i ∈ roll.ids) :
    call verdict roll row =
      { roll with taken := roll.taken ++ [row], ids := roll.ids ++ ids } := by
  rw [call, h]
  exact if_neg hids

theorem taken_call : (call verdict roll row).taken =
    roll.taken ++ if takes verdict roll row then [row] else [] := by
  rcases hv : verdict row with _ | _ | ids
  · simp [call_outside hv, takes, hv]
  · simp [call_unusable hv, takes, hv]
  · by_cases hids : ∃ i ∈ ids, i ∈ roll.ids
    · rw [call_known hv hids]
      simp [takes, hv, hids]
    · rw [call_new hv hids]
      simp only [takes, hv]
      push Not at hids
      simpa using hids

theorem callAll_cons :
    callAll verdict (row :: rows) roll = callAll verdict rows (call verdict roll row) := rfl

theorem sound_call (h : roll.Sound verdict) (row : ρ) : (call verdict roll row).Sound verdict := by
  rcases hv : verdict row with _ | _ | ids
  · rwa [call_outside hv]
  · rw [call_unusable hv]
    exact ⟨h.identified, h.ids, h.disjoint⟩
  · by_cases hids : ∃ i ∈ ids, i ∈ roll.ids
    · rw [call_known hv hids]
      exact ⟨h.identified, h.ids, h.disjoint⟩
    · rw [call_new hv hids]
      have hone : [row].filterMap (fun row => (verdict row).ids?) = [ids] := by
        simp [hv, Verdict.ids?]
      refine ⟨?_, ?_, ?_⟩
      · intro r hr
        rcases List.mem_append.1 hr with hr | hr
        · exact h.identified r hr
        · rw [List.mem_singleton.1 hr]
          exact ⟨ids, hv⟩
      · rw [List.filterMap_append, hone, List.flatten_append, ← h.ids]
        simp
      · rw [List.filterMap_append, hone, List.pairwise_append]
        refine ⟨h.disjoint, List.pairwise_singleton _ _, ?_⟩
        intro js hjs ks hks i hi hi'
        rw [List.mem_singleton.1 hks] at hi'
        refine hids ⟨i, hi', ?_⟩
        rw [h.ids]
        exact List.mem_flatten.2 ⟨js, hjs, hi⟩

theorem faulty_call (h : roll.faulty = true) : (call verdict roll row).faulty = true := by
  unfold call
  split
  · exact h
  · rfl
  · split_ifs
    · rfl
    · exact h

/-- No two rows taken share an identifier, whatever was listed. -/
theorem sound_callAll (h : roll.Sound verdict) (rows : List ρ) :
    (callAll verdict rows roll).Sound verdict := by
  induction rows generalizing roll with
  | nil => exact h
  | cons row rows ih => exact ih (sound_call h row)

theorem sound_roll (rows : List ρ) : (callAll verdict rows {}).Sound verdict :=
  sound_callAll ⟨by simp, rfl, List.Pairwise.nil⟩ rows

theorem faulty_callAll (h : roll.faulty = true) (rows : List ρ) :
    (callAll verdict rows roll).faulty = true := by
  induction rows generalizing roll with
  | nil => exact h
  | cons row rows ih => exact ih (faulty_call h)

/-- The roll goes on without a fault exactly when the rows are distinct, among themselves
and from those it knows; then every row of ours is taken. -/
theorem faulty_callAll_eq_false_iff (hroll : roll.faulty = false) :
    (callAll verdict rows roll).faulty = false ↔ Distinct verdict rows ∧
      ∀ row ∈ rows, ∀ ids, verdict row = .identified ids → ∀ i ∈ ids, i ∉ roll.ids := by
  induction rows generalizing roll with
  | nil => simp [callAll, hroll, Distinct]
  | cons row rows ih =>
      rw [callAll_cons]
      rcases hv : verdict row with _ | _ | ids
      · rw [call_outside hv, ih hroll]
        simp [Distinct, hv, Verdict.ids?]
      · rw [call_unusable hv, faulty_callAll rfl]
        simp [Distinct, hv]
      · by_cases hids : ∃ i ∈ ids, i ∈ roll.ids
        · rw [call_known hv hids, faulty_callAll rfl]
          obtain ⟨i, hi, hold⟩ := hids
          refine iff_of_false (by simp) fun h => ?_
          exact h.2 row List.mem_cons_self ids hv i hi hold
        · have hnew : (call verdict roll row).faulty = false := by
            rw [call_new hv hids]
            exact hroll
          rw [ih hnew, call_new hv hids]
          have hmem : ∀ js, (∃ r ∈ rows, (verdict r).ids? = some js) ↔
              ∃ r ∈ rows, verdict r = .identified js := by
            intro js
            simp only [Verdict.ids?]
            refine exists_congr fun r => and_congr_right fun _ => ?_
            cases verdict r <;> simp
          simp only [Distinct, List.forall_mem_cons, hv, reduceCtorEq, not_false_eq_true, ne_eq,
            true_and, List.filterMap_cons, Verdict.ids?, List.pairwise_cons,
            Verdict.identified.injEq, forall_eq', List.mem_append, not_or, List.mem_filterMap]
          push Not at hids
          constructor
          · rintro ⟨⟨husable, hdisjoint⟩, hold⟩
            refine ⟨⟨husable, ?_, hdisjoint⟩, hids,
              fun r hr js hjs i hi => (hold r hr js hjs i hi).1⟩
            intro js hjs i hi hi'
            obtain ⟨r, hr, hrjs⟩ := (hmem js).1 hjs
            exact (hold r hr js hrjs i hi').2 hi
          · rintro ⟨⟨husable, hnew, hdisjoint⟩, -, hold⟩
            refine ⟨⟨husable, hdisjoint⟩, fun r hr js hjs i hi => ⟨hold r hr js hjs i hi, ?_⟩⟩
            exact fun hi' => hnew js ((hmem js).2 ⟨r, hr, hjs⟩) hi' hi

theorem taken_callAll_of_not_faulty (h : (callAll verdict rows roll).faulty = false) :
    (callAll verdict rows roll).taken = roll.taken ++ rows.filter (InScope verdict) := by
  induction rows generalizing roll with
  | nil => exact (List.append_nil _).symm
  | cons row rows ih =>
      rw [callAll_cons] at h ⊢
      rw [ih h]
      have hfault : (call verdict roll row).faulty = false :=
        Bool.eq_false_iff.2 fun hf => Bool.eq_false_iff.1 h (faulty_callAll hf rows)
      rcases hv : verdict row with _ | _ | ids
      · have hnot : ¬ InScope verdict row := fun hmine => hmine hv
        rw [call_outside hv, List.filter_cons_of_neg (by simpa using hnot)]
      · rw [call_unusable hv] at hfault
        cases hfault
      · have hmine : InScope verdict row := by simp [InScope, hv]
        by_cases hids : ∃ i ∈ ids, i ∈ roll.ids
        · rw [call_known hv hids] at hfault
          cases hfault
        · rw [call_new hv hids, List.filter_cons_of_pos (by simpa using hmine),
            List.append_assoc, List.singleton_append]

theorem faulty_eq_false_iff (rows : List ρ) :
    (callAll verdict rows {}).faulty = false ↔ Distinct verdict rows := by
  rw [faulty_callAll_eq_false_iff rfl, and_iff_left]
  intro _ _ _ _ _ _
  exact List.not_mem_nil

theorem taken_of_distinct (h : Distinct verdict rows) :
    (callAll verdict rows {}).taken = rows.filter (InScope verdict) := by
  rw [taken_callAll_of_not_faulty ((faulty_eq_false_iff rows).2 h)]
  rfl

end RollCall
