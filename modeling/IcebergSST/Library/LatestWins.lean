import Mathlib.Tactic

/-!
# Registers that keep the latest writing

A register holds a value and the stamp of the event it took last. An event with an older
stamp is ignored altogether; every other event rewrites the value. What the events of a
list leave behind is decided by one with the greatest stamp, and by what was there when
it was taken: the events that are ignored depend on the order.
-/

namespace LatestWins

structure Register (σ τ : Type*) where
  value : σ
  stamp : Option τ

variable {σ ε τ : Type*} [LinearOrder τ] (stamp : ε → τ) (write : σ → ε → σ)

def take (r : Register σ τ) (e : ε) : Register σ τ :=
  if r.stamp.any (stamp e < ·) then r else ⟨write r.value e, some (stamp e)⟩

def takeAll (r : Register σ τ) (es : List ε) : Register σ τ := es.foldl (take stamp write) r

variable {stamp write} {r : Register σ τ} {e : ε} {es : List ε}

theorem take_stale {t : τ} (hr : r.stamp = some t) (h : stamp e < t) :
    take stamp write r e = r := by
  unfold take
  rw [hr, if_pos (by simpa using h)]

theorem take_fresh (h : ∀ t ∈ r.stamp, t ≤ stamp e) :
    take stamp write r e = ⟨write r.value e, some (stamp e)⟩ := by
  unfold take
  apply if_neg
  intro hstale
  obtain ⟨t, ht, hlt⟩ := (Option.any_eq_true _ _).1 hstale
  exact absurd (of_decide_eq_true hlt) (not_lt.2 (h t ht))

@[simp] theorem takeAll_nil : takeAll stamp write r [] = r := rfl

theorem takeAll_cons : takeAll stamp write r (e :: es) =
    takeAll stamp write (take stamp write r e) es := rfl

theorem takeAll_snoc : takeAll stamp write r (es ++ [e]) =
    take stamp write (takeAll stamp write r es) e := by
  unfold takeAll
  rw [List.foldl_append]
  rfl

theorem takeAll_stamp_le {t : τ} (hr : ∀ u ∈ r.stamp, u ≤ t) (hes : ∀ e ∈ es, stamp e ≤ t) :
    ∀ u ∈ (takeAll stamp write r es).stamp, u ≤ t := by
  induction es generalizing r with
  | nil => exact hr
  | cons e es ih =>
      rw [takeAll_cons]
      apply ih _ fun e' he' => hes e' (List.mem_cons_of_mem e he')
      unfold take
      by_cases hstale : r.stamp.any (stamp e < ·)
      · rwa [if_pos hstale]
      · rw [if_neg hstale]
        intro u hu
        rw [← Option.some.inj hu]
        exact hes e List.mem_cons_self

/-- What every write keeps, the events that are ignored keep too. -/
theorem takeAll_value {P : σ → Prop} (hP : P r.value)
    (hkeep : ∀ v, ∀ e ∈ es, P v → P (write v e)) : P (takeAll stamp write r es).value := by
  induction es generalizing r with
  | nil => exact hP
  | cons e es ih =>
      rw [takeAll_cons]
      apply ih _ fun v e' he' => hkeep v e' (List.mem_cons_of_mem e he')
      unfold take
      by_cases hstale : r.stamp.any (stamp e < ·)
      · rwa [if_pos hstale]
      · rw [if_neg hstale]
        exact hkeep _ e List.mem_cons_self hP

/-- What stands in the end was written by the latest event, over a value that the events
before it could have made. -/
theorem takeAll_latest (he : e ∈ es) (hr : ∀ u ∈ r.stamp, u ≤ stamp e)
    (hlatest : ∀ e' ∈ es, stamp e' ≤ stamp e)
    (hunique : ∀ e' ∈ es, stamp e' = stamp e → e' = e) :
    ∃ v, takeAll stamp write r es = ⟨write v e, some (stamp e)⟩ ∧
      ∀ P : σ → Prop, P r.value → (∀ v, ∀ e' ∈ es, P v → P (write v e')) → P v := by
  induction es using List.reverseRecOn with
  | nil => cases he
  | append_singleton es a ih =>
      have hmem : ∀ e' ∈ es, e' ∈ es ++ [a] := fun e' h => List.mem_append_left _ h
      have ha : a ∈ es ++ [a] := List.mem_append_right _ (List.mem_singleton_self a)
      rw [takeAll_snoc]
      by_cases hae : a = e
      · subst hae
        refine ⟨(takeAll stamp write r es).value, ?_, ?_⟩
        · exact take_fresh (takeAll_stamp_le hr fun e' h => hlatest e' (hmem e' h))
        · intro P hP hkeep
          exact takeAll_value hP fun v e' he' => hkeep v e' (hmem e' he')
      · have he' : e ∈ es := by
          rcases List.mem_append.1 he with h | h
          · exact h
          · exact absurd (List.mem_singleton.1 h).symm hae
        obtain ⟨v, hv, hP⟩ := ih he' (fun e' h => hlatest e' (hmem e' h))
          (fun e' h => hunique e' (hmem e' h))
        have hlt : stamp a < stamp e :=
          lt_of_le_of_ne (hlatest a ha) fun heq => hae (hunique a ha heq)
        refine ⟨v, ?_, ?_⟩
        · rw [hv]
          exact take_stale rfl hlt
        · intro P h hkeep
          exact hP P h fun v e' he' => hkeep v e' (hmem e' he')

/-- Once the latest event is taken, only that event is taken again. -/
theorem takeAll_settled {P : σ → Prop} (hr : r.stamp = some (stamp e))
    (hlatest : ∀ e' ∈ es, stamp e' ≤ stamp e) (hunique : ∀ e' ∈ es, stamp e' = stamp e → e' = e)
    (hP : P r.value) (hkeep : ∀ v, P v → P (write v e)) :
    P (takeAll stamp write r es).value := by
  induction es generalizing r with
  | nil => exact hP
  | cons a es ih =>
      rw [takeAll_cons]
      have hlatest' := fun e' h => hlatest e' (List.mem_cons_of_mem a h)
      have hunique' := fun e' h => hunique e' (List.mem_cons_of_mem a h)
      by_cases hae : a = e
      · subst hae
        rw [take_fresh (by rw [hr]; rintro t ⟨⟩; exact le_rfl)]
        exact ih rfl hlatest' hunique' (hkeep _ hP)
      · have hlt : stamp a < stamp e := lt_of_le_of_ne (hlatest a List.mem_cons_self)
          fun heq => hae (hunique a List.mem_cons_self heq)
        rw [take_stale hr hlt]
        exact ih hr hlatest' hunique' hP

end LatestWins
