import Mathlib.Data.Multiset.DershowitzManna
import Mathlib.Tactic.Common

/-!
# Walks that keep what is left on a stack

A walk takes the item on top of its stack, emits something, and puts what the item leads
to in its place, or ends there. Items that only lead to items of a lower rank make every
walk end, whatever the stack holds. The same walk can be told by recursion on the rank:
an item's own part, then the parts of all it leads to, before what lay below it.
-/

/-- What one turn of a walk emits, and what goes on the stack with the state it leaves;
`none` if the walk ends at this turn. -/
structure WalkTurn (σ α ε : Type*) where
  emitted : List ε
  next : Option (List α × σ)

structure StackWalk (σ α ε : Type*) where
  turn : σ → α → WalkTurn σ α ε
  rank : α → ℕ
  rank_lt : ∀ {s a items s'}, (turn s a).next = some (items, s') → ∀ b ∈ items, rank b < rank a

namespace StackWalk

variable {σ α ε : Type*} (w : StackWalk σ α ε)

/-- Pushing items of a lower rank in the place of one makes a smaller stack. -/
theorem isDershowitzMannaLT_push {a : α} {items stack : List α}
    (h : ∀ b ∈ items, w.rank b < w.rank a) :
    Multiset.IsDershowitzMannaLT (((items ++ stack).map w.rank : List ℕ) : Multiset ℕ)
      (((a :: stack).map w.rank : List ℕ) : Multiset ℕ) := by
  refine ⟨stack.map w.rank, items.map w.rank, {w.rank a}, Multiset.singleton_ne_zero _, ?_, ?_, ?_⟩
  · rw [List.map_append, add_comm, Multiset.coe_add]
  · rw [List.map_cons, add_comm, Multiset.singleton_add, Multiset.cons_coe]
  · intro k hk
    obtain ⟨b, hb, rfl⟩ := List.mem_map.1 (Multiset.mem_coe.1 hk)
    exact ⟨w.rank a, Multiset.mem_singleton_self _, h b hb⟩

/-- All that a walk emits from a stack, and the state it ends in; no state if it ended
with items left. -/
def run (s : σ) : List α → List ε × Option σ
  | [] => ([], some s)
  | a :: stack =>
      match _hnext : (w.turn s a).next with
      | none => ((w.turn s a).emitted, none)
      | some (items, s') =>
          let rest := run s' (items ++ stack)
          ((w.turn s a).emitted ++ rest.1, rest.2)
termination_by stack => ((stack.map w.rank : List ℕ) : Multiset ℕ)
decreasing_by exact w.isDershowitzMannaLT_push (w.rank_lt _hnext)

/-- One part after another, each from the state the last one left. -/
def follow (part : σ → α → List ε × Option σ) : σ → List α → List ε × Option σ
  | s, [] => ([], some s)
  | s, a :: items =>
      match part s a with
      | (emitted, none) => (emitted, none)
      | (emitted, some s') =>
          let rest := follow part s' items
          (emitted ++ rest.1, rest.2)

/-- An item's own part of a walk, down to `levels` ranks below. -/
def visit : ℕ → σ → α → List ε × Option σ
  | 0, s, _ => ([], some s)
  | levels + 1, s, a =>
      match (w.turn s a).next with
      | none => ((w.turn s a).emitted, none)
      | some (items, s') =>
          let rest := follow (visit levels) s' items
          ((w.turn s a).emitted ++ rest.1, rest.2)

variable {w} {s s' : σ} {a : α} {items stack : List α}

@[simp] theorem run_nil : w.run s [] = ([], some s) := by rw [run]

theorem run_of_end (h : (w.turn s a).next = none) :
    w.run s (a :: stack) = ((w.turn s a).emitted, none) := by
  rw [run]
  split
  · rfl
  · simp_all

theorem run_of_push (h : (w.turn s a).next = some (items, s')) :
    w.run s (a :: stack) =
      ((w.turn s a).emitted ++ (w.run s' (items ++ stack)).1, (w.run s' (items ++ stack)).2) := by
  rw [run]
  split
  · simp_all
  · simp_all

theorem follow_append (part : σ → α → List ε × Option σ) (s : σ) (items stack : List α) :
    follow part s (items ++ stack) =
      match follow part s items with
      | (emitted, none) => (emitted, none)
      | (emitted, some s') =>
          (emitted ++ (follow part s' stack).1, (follow part s' stack).2) := by
  induction items generalizing s with
  | nil => simp [follow]
  | cons a items ih =>
      simp only [List.cons_append, follow]
      rcases part s a with ⟨emitted, _ | s'⟩
      · rfl
      · simp only [ih s']
        rcases follow part s' items with ⟨emitted', _ | s''⟩
        · rfl
        · simp

theorem follow_congr {part part' : σ → α → List ε × Option σ}
    (h : ∀ s, ∀ a ∈ items, part s a = part' s a) (s : σ) :
    follow part s items = follow part' s items := by
  induction items generalizing s with
  | nil => rfl
  | cons a items ih =>
      have hrest := ih fun s b hb => h s b (List.mem_cons_of_mem a hb)
      simp only [follow, h s a List.mem_cons_self, hrest]

theorem visit_congr {m n : ℕ} (s : σ) (hm : w.rank a < m) (hn : w.rank a < n) :
    w.visit m s a = w.visit n s a := by
  induction m generalizing n s a with
  | zero => omega
  | succ m ih =>
      obtain ⟨n, rfl⟩ := Nat.exists_eq_succ_of_ne_zero (Nat.ne_zero_of_lt hn)
      simp only [visit]
      rcases hnext : (w.turn s a).next with _ | ⟨items, s'⟩
      · rfl
      · have hparts : follow (w.visit m) s' items = follow (w.visit n) s' items := by
          refine follow_congr (fun s b hb => ?_) s'
          have hlt := w.rank_lt hnext b hb
          exact ih s (by omega) (by omega)
        simp only [hparts]

/-- A walk from a stack is the parts of its items, one after another. -/
theorem run_eq_follow {n : ℕ} (h : ∀ a ∈ stack, w.rank a < n) :
    w.run s stack = follow (w.visit n) s stack := by
  induction s, stack using run.induct w with
  | case1 s => simp [follow]
  | case2 s a stack hend =>
      obtain ⟨n, rfl⟩ := Nat.exists_eq_succ_of_ne_zero
        (Nat.ne_zero_of_lt (h a List.mem_cons_self))
      simp [run_of_end hend, follow, visit, hend]
  | case3 s a stack items s' hnext ih =>
      have ha := h a List.mem_cons_self
      have hstack := fun b hb => h b (List.mem_cons_of_mem a hb)
      have hitems := w.rank_lt hnext
      have hparts : follow (w.visit n) s' items = follow (w.visit (n - 1)) s' items := by
        refine follow_congr (fun s b hb => ?_) s'
        have hlt := hitems b hb
        exact visit_congr s (by omega) (by omega)
      rw [run_of_push hnext, ih ?_, follow_append, hparts]
      · obtain ⟨n, rfl⟩ := Nat.exists_eq_succ_of_ne_zero (Nat.ne_zero_of_lt ha)
        simp only [follow, visit, hnext, Nat.succ_eq_add_one, Nat.add_sub_cancel]
        rcases follow (w.visit n) s' items with ⟨emitted, _ | s''⟩
        · rfl
        · simp
      · intro b hb
        rcases List.mem_append.1 hb with hb | hb
        · exact (hitems b hb).trans ha
        · exact hstack b hb

/-- What the first stack has, with nothing emitted, and every turn keeps until it ends the
walk, the end of the walk has. -/
theorem run_invariant {I : σ → List α → List ε → Prop} {E : List ε → Prop}
    (hend : ∀ s a stack emitted, I s (a :: stack) emitted → (w.turn s a).next = none →
      E (emitted ++ (w.turn s a).emitted))
    (hpush : ∀ s a stack emitted items s', I s (a :: stack) emitted →
      (w.turn s a).next = some (items, s') →
      I s' (items ++ stack) (emitted ++ (w.turn s a).emitted))
    {emitted : List ε} (h : I s stack emitted) :
    (∃ s', (w.run s stack).2 = some s' ∧ I s' [] (emitted ++ (w.run s stack).1)) ∨
      (w.run s stack).2 = none ∧ E (emitted ++ (w.run s stack).1) := by
  induction s, stack using run.induct w generalizing emitted with
  | case1 s => exact Or.inl ⟨s, by simp, by simpa using h⟩
  | case2 s a stack hnext =>
      rw [run_of_end hnext]
      exact Or.inr ⟨rfl, hend s a stack emitted h hnext⟩
  | case3 s a stack items s' hnext ih =>
      have hkept := hpush s a stack emitted items s' h hnext
      simpa only [run_of_push hnext, List.append_assoc] using ih hkept

variable (w)

/-- The state and the stack that one turn leaves; `none` if the walk is over. -/
def next? : σ × List α → Option (σ × List α)
  | (_, []) => none
  | (s, a :: stack) => (w.turn s a).next.map fun p => (p.2, p.1 ++ stack)

def after (s : σ) (stack : List α) : ℕ → Option (σ × List α)
  | 0 => some (s, stack)
  | n + 1 => (after s stack n).bind w.next?

/-- The items a walk takes from its stack, each with the state it is taken in. -/
def turns (s : σ) : List α → List (σ × α)
  | [] => []
  | a :: stack =>
      match _hnext : (w.turn s a).next with
      | none => [(s, a)]
      | some (items, s') => (s, a) :: turns s' (items ++ stack)
termination_by stack => ((stack.map w.rank : List ℕ) : Multiset ℕ)
decreasing_by exact w.isDershowitzMannaLT_push (w.rank_lt _hnext)

variable {w}

@[simp] theorem turns_nil : w.turns s [] = [] := by rw [turns]

theorem turns_of_end (h : (w.turn s a).next = none) : w.turns s (a :: stack) = [(s, a)] := by
  rw [turns]
  split
  · rfl
  · simp_all

theorem turns_of_push (h : (w.turn s a).next = some (items, s')) :
    w.turns s (a :: stack) = (s, a) :: w.turns s' (items ++ stack) := by
  rw [turns]
  split
  · simp_all
  · simp_all

theorem after_succ_of_push (h : (w.turn s a).next = some (items, s')) (n : ℕ) :
    w.after s (a :: stack) (n + 1) = w.after s' (items ++ stack) n := by
  induction n with
  | zero => simp [after, next?, h]
  | succ n ih => rw [after, ih, after]

theorem run_fst_eq_turns (s : σ) (stack : List α) :
    (w.run s stack).1 = (w.turns s stack).flatMap fun t => (w.turn t.1 t.2).emitted := by
  induction s, stack using run.induct w with
  | case1 s => simp
  | case2 s a stack hend => simp [run_of_end hend, turns_of_end hend]
  | case3 s a stack items s' hnext ih => simp [run_of_push hnext, turns_of_push hnext, ih]

/-- Every walk ends. -/
theorem exists_after_eq_none (s : σ) (stack : List α) : ∃ n, w.after s stack n = none := by
  induction s, stack using run.induct w with
  | case1 s => exact ⟨1, rfl⟩
  | case2 s a stack hend => exact ⟨1, by simp [after, next?, hend]⟩
  | case3 s a stack items s' hnext ih =>
      obtain ⟨n, hn⟩ := ih
      exact ⟨n + 1, (after_succ_of_push hnext n).trans hn⟩

/-- What the first stack has and every turn keeps, each turn finds. -/
theorem exists_of_mem_turns {I : σ → List α → Prop}
    (hpush : ∀ s a stack items s', I s (a :: stack) → (w.turn s a).next = some (items, s') →
      I s' (items ++ stack))
    (h : I s stack) {t : σ × α} (ht : t ∈ w.turns s stack) : ∃ rest, I t.1 (t.2 :: rest) := by
  induction s, stack using run.induct w with
  | case1 s => simp at ht
  | case2 s a stack hend =>
      rw [turns_of_end hend, List.mem_singleton] at ht
      exact ht ▸ ⟨stack, h⟩
  | case3 s a stack items s' hnext ih =>
      rw [turns_of_push hnext, List.mem_cons] at ht
      rcases ht with rfl | ht
      · exact ⟨stack, h⟩
      · exact ih (hpush s a stack items s' h hnext) ht

end StackWalk
