import IcebergSST.Library.Machine

/-!
# Transactions that lock rows one after another

A session runs one transaction at a time. The transaction locks its rows in the order it
comes to them, waits where another session holds the next one, and gives all of them up
when it ends. Where all transactions take their rows in one order, no sessions wait for each
other in a circle. Two that take two rows in opposite orders can.
-/

namespace LockOrder

variable {ι ρ τ : Type*} [DecidableEq ι] [DecidableEq ρ]

structure Session (ρ : Type*) where
  held : List ρ := []
  rest : List ρ := []
  deriving DecidableEq, Repr

inductive LockAction (ι τ : Type*)
  | start (i : ι) (t : τ)
  | lock (i : ι)
  /-- Commit, rollback or the loss of the connection. -/
  | finish (i : ι)

section
variable [Fintype ι] (locks : τ → List ρ)

def step (w : ι → Session ρ) : LockAction ι τ → Option (ι → Session ρ)
  | .start i t =>
      if w i = {} then some (Function.update w i { rest := locks t }) else none
  | .lock i =>
      match (w i).rest with
      | [] => none
      | r :: rest =>
          if ∃ j, j ≠ i ∧ r ∈ (w j).held then none
          else some (Function.update w i { held := (w i).held ++ [r], rest })
  | .finish i => some (Function.update w i {})

/-- A set of sessions each of which waits for a row that another of them holds. -/
def Deadlocked (w : ι → Session ρ) : Prop :=
  ∃ sessions : Finset ι, sessions.Nonempty ∧ ∀ i ∈ sessions,
    ∃ r rest, (w i).rest = r :: rest ∧ ∃ j ∈ sessions, j ≠ i ∧ r ∈ (w j).held

end

def Session.InOrder (before : ρ → ρ → Prop) (s : Session ρ) : Prop :=
  (s.held ++ s.rest).Pairwise before

variable [Fintype ι] {locks : τ → List ρ} {w w' : ι → Session ρ} {before : ρ → ρ → Prop}

omit [DecidableEq ι] [DecidableEq ρ] [Fintype ι] in
/-- An order breaks every circle: the session that waits for a last row waits for one that
waits for a row after it. -/
theorem Session.InOrder.not_deadlocked (hstrict : IsStrictOrder ρ before)
    (horder : ∀ j, (w j).InOrder before) : ¬ Deadlocked w := by
  rintro ⟨sessions, ⟨i₀, hi₀⟩, hwait⟩
  have : Nonempty ρ := ⟨(hwait i₀ hi₀).choose⟩
  choose! awaited rest hrest holder hholder hne hheld using hwait
  -- the holders that the sessions wait for, by the rows that they wait for themselves
  let Holder := { i // i ∈ sessions ∧ (w i).held ≠ [] }
  have : Finite Holder := (sessions.finite_toSet.subset fun i hi => hi.1).to_subtype
  let later : Holder → Holder → Prop := fun i j => before (awaited j) (awaited i)
  have : IsTrans Holder later := ⟨fun _ _ _ hij hjk => hstrict.trans _ _ _ hjk hij⟩
  have : Std.Irrefl later := ⟨fun i => hstrict.irrefl (awaited i)⟩
  have hwf : WellFounded later := Finite.wellFounded_of_trans_of_irrefl later
  obtain ⟨i, -, hlast⟩ := hwf.has_min Set.univ
    ⟨⟨holder i₀, hholder i₀ hi₀, List.ne_nil_of_mem (hheld i₀ hi₀)⟩, trivial⟩
  have hi := i.2.1
  let j : Holder := ⟨holder i, hholder i hi, List.ne_nil_of_mem (hheld i hi)⟩
  apply hlast j trivial
  have hj := horder j
  rw [Session.InOrder, hrest j j.2.1] at hj
  exact (List.pairwise_append.1 hj).2.2 _ (hheld i hi) _ List.mem_cons_self

/-- A step changes one session: its transaction ends or starts, or one row moves from those
to come to those held. -/
theorem step_cases {a : LockAction ι τ} (h : step locks w a = some w') :
    ∃ i s, w' = Function.update w i s ∧
      (s = {} ∨ (∃ t, a = .start i t ∧ s = { rest := locks t }) ∨
        a = .lock i ∧ s.held ++ s.rest = (w i).held ++ (w i).rest) := by
  cases a with
  | start i t =>
      simp only [step] at h
      split_ifs at h
      exact ⟨i, _, (Option.some.inj h).symm, Or.inr (Or.inl ⟨t, rfl, rfl⟩)⟩
  | lock i =>
      simp only [step] at h
      cases hrest : (w i).rest with
      | nil =>
          rw [hrest] at h
          cases h
      | cons r rest =>
          rw [hrest] at h
          dsimp only at h
          split_ifs at h
          exact ⟨i, _, (Option.some.inj h).symm, Or.inr (Or.inr ⟨rfl, by simp [hrest]⟩)⟩
  | finish i => exact ⟨i, _, (Option.some.inj h).symm, Or.inl rfl⟩

/-- Sessions never deadlock while each transaction that starts takes its rows in order. -/
theorem Reachable.not_deadlocked {guard : (ι → Session ρ) → LockAction ι τ → Prop}
    (hstrict : IsStrictOrder ρ before)
    (hguard : ∀ w i t, guard w (.start i t) → (locks t).Pairwise before)
    (h : Machine.Reachable (step locks) guard (fun w => w = fun _ => ({} : Session ρ)) w) :
    ¬ Deadlocked w := by
  have horder : ∀ j, (w j).InOrder before := by
    apply h.invariant
    · rintro w rfl j
      exact List.Pairwise.nil
    · intro w a w' hw ha hstep j
      obtain ⟨i, s, rfl, hs⟩ := step_cases hstep
      by_cases hij : j = i
      · rw [hij, Function.update_self]
        rcases hs with rfl | ⟨t, rfl, rfl⟩ | ⟨-, hmoved⟩
        · exact List.Pairwise.nil
        · exact hguard w i t ha
        · rw [Session.InOrder, hmoved]
          exact hw i
      · rw [Function.update_of_ne hij]
        exact hw j
  exact Session.InOrder.not_deadlocked hstrict horder

/-- Each comes to a row that the other has locked before, and nothing keeps them apart
until then. -/
def Crosses (t u : List ρ) : Prop :=
  ∃ before x after before' y after', t = before ++ x :: after ∧ u = before' ++ y :: after' ∧
    y ∈ before ∧ x ∈ before' ∧ before.Disjoint before'

omit [DecidableEq ι] [DecidableEq ρ] [Fintype ι] in
theorem Crosses.pair {before : List ρ} {x y : ρ} (hy : y ∈ before) (hx : x ∉ before)
    (after : List ρ) : Crosses (before ++ x :: after) [x, y] :=
  ⟨before, x, after, [x], y, [], rfl, rfl, hy, List.mem_singleton_self x,
    List.disjoint_singleton.2 hx⟩

theorem step_lock {i : ι} {r : ρ} {rest : List ρ} (hrest : (w i).rest = r :: rest)
    (hfree : ∀ j, j ≠ i → r ∉ (w j).held) : step locks w (.lock i) =
      some (Function.update w i { held := (w i).held ++ [r], rest }) := by
  simp only [step, hrest]
  rw [if_neg]
  rintro ⟨j, hj, hr⟩
  exact hfree j hj hr

theorem Reachable.come {guard : (ι → Session ρ) → LockAction ι τ → Prop}
    {init : (ι → Session ρ) → Prop} (hguard : ∀ w i, guard w (.lock i)) {i : ι}
    {rows rest : List ρ} (hw : Machine.Reachable (step locks) guard init w)
    (hrest : (w i).rest = rows ++ rest) (hfree : ∀ r ∈ rows, ∀ j, j ≠ i → r ∉ (w j).held) :
    Machine.Reachable (step locks) guard init
      (Function.update w i { held := (w i).held ++ rows, rest }) := by
  induction rows generalizing w with
  | nil =>
      have heq : Function.update w i { held := (w i).held ++ [], rest } = w := by
        apply Function.update_eq_self_iff.2
        rw [List.append_nil, ← List.nil_append rest, ← hrest]
      rw [heq]
      exact hw
  | cons r rows ih =>
      let w₁ := Function.update w i { held := (w i).held ++ [r], rest := rows ++ rest }
      have hw₁ : Machine.Reachable (step locks) guard init w₁ :=
        hw.step (hguard w i) (step_lock hrest (hfree r List.mem_cons_self))
      have hfree₁ : ∀ r' ∈ rows, ∀ j, j ≠ i → r' ∉ (w₁ j).held := by
        intro r' hr' j hj
        simp only [w₁, Function.update_of_ne hj]
        exact hfree r' (List.mem_cons_of_mem r hr') j hj
      have hlater := ih hw₁ (by simp [w₁]) hfree₁
      simpa [w₁] using hlater

/-- Two sessions that run crossing transactions can come to wait for each other. -/
theorem exists_deadlocked {guard : (ι → Session ρ) → LockAction ι τ → Prop}
    {t u : τ} {i j : ι} (hij : i ≠ j) (ht : ∀ w, guard w (.start i t))
    (hu : ∀ w, guard w (.start j u)) (hlock : ∀ w i, guard w (.lock i))
    (hcross : Crosses (locks t) (locks u)) :
    ∃ w, Machine.Reachable (step locks) guard (fun w => w = fun _ => ({} : Session ρ)) w ∧
      Deadlocked w := by
  obtain ⟨before, x, after, before', y, after', hrows, hrows', hy, hx, hdisjoint⟩ := hcross
  let init : (ι → Session ρ) → Prop := fun w => w = fun _ => ({} : Session ρ)
  let w₁ : ι → Session ρ := Function.update (fun _ => {}) i { rest := locks t }
  let w₂ := Function.update w₁ j { rest := locks u }
  let w₃ := Function.update w₂ i { held := before, rest := x :: after }
  let w₄ := Function.update w₃ j { held := before', rest := y :: after' }
  have hw₁ : Machine.Reachable (step locks) guard init w₁ :=
    Machine.Reachable.step (.start rfl) (ht _) (by simp [step, w₁])
  have hw₂ : Machine.Reachable (step locks) guard init w₂ :=
    hw₁.step (hu w₁) (by simp [step, w₁, w₂, hij.symm])
  have hi : (w₂ i).held = [] ∧ (w₂ i).rest = before ++ x :: after := by
    simp [w₁, w₂, hij, hrows]
  have hw₃ : Machine.Reachable (step locks) guard init w₃ := by
    have hcome := Reachable.come hlock hw₂ hi.2 (by
      intro r _ k hk
      by_cases hkj : k = j <;> simp [w₁, w₂, hkj, hk])
    rw [hi.1, List.nil_append] at hcome
    exact hcome
  have hj : (w₃ j).held = [] ∧ (w₃ j).rest = before' ++ y :: after' := by
    simp [w₂, w₃, hij.symm, hrows']
  have hw₄ : Machine.Reachable (step locks) guard init w₄ := by
    have hcome := Reachable.come hlock hw₃ hj.2 (by
      intro r hr k hk
      by_cases hki : k = i
      · have hno : r ∉ before := fun hr' => hdisjoint hr' hr
        simp [w₃, hki, hno]
      · simp [w₁, w₂, w₃, hki, hk])
    rw [hj.1, List.nil_append] at hcome
    exact hcome
  refine ⟨w₄, hw₄, {i, j}, ⟨i, by simp⟩, ?_⟩
  intro k hk
  rcases Finset.mem_insert.1 hk with rfl | hk
  · exact ⟨x, after, by simp [w₃, w₄, hij], j, by simp, hij.symm, by simp [w₄, hx]⟩
  · obtain rfl := Finset.mem_singleton.1 hk
    exact ⟨y, after', by simp [w₄], i, by simp, hij, by simp [w₃, w₄, hij, hy]⟩

end LockOrder
