import IcebergSST.Library.LockOrder
import IcebergSST.Scans

/-!
# Scan and task rows under lock

Each transaction of the scan lifecycle locks rows of the scan and task tables one after
another. The two submissions take the scan first and then the task; so does a
cancellation, which goes on through the scan's open tasks in whatever order its `select`
returned them. A claim takes the task first, and the scan only after it, when it finds it
queued. Whatever keeps to scan first, and to the order of the keys, deadlocks with nothing
of its kind; whatever does not deadlocks with something that does.
-/

namespace IcebergSST

open LockOrder (Session LockAction Deadlocked Crosses)

inductive LockedRow
  | scan (id : ℕ)
  | task (id : ℕ)
  deriving DecidableEq, Repr

/-- A transaction with what its statements find. An `UPDATE` whose condition has become
false may or may not have locked the row to see that (`touched`). -/
inductive LifecycleTransaction
  /-- `found` is the status of the scan, where the task was still queued. -/
  | claimTask (task scan : ℕ) (found : Option ScanStatus)
  | submitProgress (scan task : ℕ) (touched : Bool)
  | submitResults (scan task : ℕ) (touched : Bool)
  /-- The tasks are in the order in which the `select` returned them. -/
  | cancelScan (scan : ℕ) (tasks : List ℕ)
  | renewLease (task : ℕ)
  | reclaimExpiredLeases (tasks : List ℕ)
  | redispatchStaleTasks (tasks : List ℕ)
  /-- A sweep keeps the scans whose `UPDATE` came too late until the next commit. -/
  | finalizeAndReconcile (late : List ℕ) (scan : ℕ)
  deriving DecidableEq, Repr

namespace LifecycleTransaction

/-- The rows in the order in which the transaction comes to them. -/
def locks : LifecycleTransaction → List LockedRow
  | .claimTask task scan found =>
      .task task :: if found = some .queued then [.scan scan] else []
  | .submitProgress scan task touched => .scan scan :: if touched then [.task task] else []
  | .submitResults scan task touched => .scan scan :: if touched then [.task task] else []
  | .cancelScan scan tasks => .scan scan :: tasks.map .task
  | .renewLease task => [.task task]
  | .reclaimExpiredLeases tasks => tasks.map .task
  | .redispatchStaleTasks tasks => tasks.map .task
  | .finalizeAndReconcile late scan => (late ++ [scan]).map .scan

end LifecycleTransaction

def Idle {ι : Type} (w : ι → Session LockedRow) : Prop := w = fun _ => {}

/-- Scans before tasks, and each table in the order of its primary keys. -/
def LockedRow.Before : LockedRow → LockedRow → Prop
  | .scan i, .scan j => i < j
  | .scan _, .task _ => True
  | .task _, .scan _ => False
  | .task i, .task j => i < j

theorem LockedRow.before_strict : IsStrictOrder LockedRow LockedRow.Before where
  irrefl r := by cases r <;> simp [LockedRow.Before]
  trans a b c hab hbc := by
    cases a <;> cases b <;> cases c <;> simp only [LockedRow.Before] at hab hbc ⊢ <;> omega

namespace LifecycleTransaction

/-- The rule that the comments give: scan first, and rows of one table in one order. -/
def ScanFirst : LifecycleTransaction → Prop
  | .claimTask _ _ found => found ≠ some .queued
  | .cancelScan _ tasks => tasks.Pairwise (· < ·)
  | .reclaimExpiredLeases tasks => tasks.Pairwise (· < ·)
  | .redispatchStaleTasks tasks => tasks.Pairwise (· < ·)
  | .finalizeAndReconcile late scan => (late ++ [scan]).Pairwise (· < ·)
  | _ => True

theorem ScanFirst.pairwise {t : LifecycleTransaction} (h : t.ScanFirst) :
    t.locks.Pairwise LockedRow.Before := by
  cases t with
  | claimTask task scan found => simp [locks, if_neg h]
  | submitProgress scan task touched => cases touched <;> simp [locks, LockedRow.Before]
  | submitResults scan task touched => cases touched <;> simp [locks, LockedRow.Before]
  | cancelScan scan tasks =>
      rw [locks, List.pairwise_cons]
      constructor
      · intro r hr
        obtain ⟨task, -, rfl⟩ := List.mem_map.1 hr
        trivial
      · exact List.pairwise_map.2 h
  | renewLease task => simp [locks]
  | reclaimExpiredLeases tasks => exact List.pairwise_map.2 h
  | redispatchStaleTasks tasks => exact List.pairwise_map.2 h
  | finalizeAndReconcile late scan => exact List.pairwise_map.2 h

theorem exists_descent {ids : List ℕ} (hids : ids.Nodup) (h : ¬ ids.Pairwise (· < ·)) :
    ∃ before b after, ids = before ++ b :: after ∧ ∃ a ∈ before, b < a := by
  rw [List.pairwise_iff_getElem] at h
  push Not at h
  obtain ⟨i, j, hi, hj, hij, hle⟩ := h
  refine ⟨ids.take j, ids[j], ids.drop (j + 1), ?_, ids[i], ?_, ?_⟩
  · rw [← List.drop_eq_getElem_cons hj, List.take_append_drop]
  · exact List.mem_take_iff_getElem.2 ⟨i, by omega, rfl⟩
  · have hne : ids[j] ≠ ids[i] := fun heq => hij.ne' ((hids.getElem_inj_iff).1 heq)
    omega

theorem exists_crosses {row : ℕ → LockedRow} {ids : List ℕ} (first : List LockedRow)
    (hrows : (first ++ ids.map row).Nodup) (h : ¬ ids.Pairwise (· < ·)) :
    ∃ a b, a < b ∧ Crosses (first ++ ids.map row) [row a, row b] := by
  have hids : ids.Nodup := (List.Nodup.of_append_right hrows).of_map row
  obtain ⟨before, a, after, rfl, b, hb, hab⟩ := exists_descent hids h
  refine ⟨a, b, hab, ?_⟩
  rw [List.map_append, List.map_cons, ← List.append_assoc] at hrows ⊢
  refine Crosses.pair ?_ ?_ _
  · exact List.mem_append_right _ (List.mem_map_of_mem hb)
  · exact fun ha => (List.disjoint_of_nodup_append hrows) ha List.mem_cons_self

/-- What breaks the rule crosses something that keeps it. -/
theorem exists_crosses_scanFirst {t : LifecycleTransaction} (hrows : t.locks.Nodup)
    (h : ¬ t.ScanFirst) : ∃ u : LifecycleTransaction, u.ScanFirst ∧ Crosses t.locks u.locks := by
  cases t with
  | claimTask task scan found =>
      have hqueued : found = some .queued := not_not.1 h
      refine ⟨.cancelScan scan [task], List.pairwise_singleton _ _, ?_⟩
      rw [locks, if_pos hqueued]
      exact Crosses.pair (List.mem_singleton_self _) (by simp) []
  | submitProgress | submitResults | renewLease => exact absurd trivial h
  | cancelScan scan tasks =>
      obtain ⟨a, b, hab, hcross⟩ := exists_crosses [.scan scan] hrows h
      exact ⟨.reclaimExpiredLeases [a, b], List.pairwise_pair.2 hab, hcross⟩
  | reclaimExpiredLeases tasks | redispatchStaleTasks tasks =>
      obtain ⟨a, b, hab, hcross⟩ := exists_crosses [] hrows h
      exact ⟨.reclaimExpiredLeases [a, b], List.pairwise_pair.2 hab, hcross⟩
  | finalizeAndReconcile late scan =>
      obtain ⟨a, b, hab, hcross⟩ := exists_crosses [] hrows h
      exact ⟨.finalizeAndReconcile [a] b, List.pairwise_pair.2 hab, hcross⟩

end LifecycleTransaction

section Sessions
variable {ι : Type}

def StartsScanFirst (_ : ι → Session LockedRow) : LockAction ι LifecycleTransaction → Prop
  | .start _ t => t.ScanFirst
  | _ => True

def StartsOnly (t u : LifecycleTransaction) (_ : ι → Session LockedRow) :
    LockAction ι LifecycleTransaction → Prop
  | .start _ v => v = t ∨ v = u
  | _ => True

variable [Fintype ι] [DecidableEq ι]

theorem scanFirst_not_deadlocked {w : ι → Session LockedRow}
    (h : Machine.Reachable (LockOrder.step LifecycleTransaction.locks) StartsScanFirst Idle w) :
    ¬ Deadlocked w :=
  LockOrder.Reachable.not_deadlocked LockedRow.before_strict
    (fun _ _ _ ht => LifecycleTransaction.ScanFirst.pairwise ht) h

theorem exists_deadlocked_pair {t u : LifecycleTransaction} (hcross : Crosses t.locks u.locks)
    {i j : ι} (hij : i ≠ j) : ∃ w : ι → Session LockedRow,
      Machine.Reachable (LockOrder.step LifecycleTransaction.locks) (StartsOnly t u) Idle w ∧
        Deadlocked w :=
  LockOrder.exists_deadlocked hij (fun _ => .inl rfl) (fun _ => .inr rfl) (fun _ _ => trivial)
    hcross

end Sessions

/-- Sessions whose transactions all keep the rule never deadlock. A single transaction that
breaks it does, together with one that keeps it. -/
theorem lifecycle_deadlocks (ι : Type) [Fintype ι] [DecidableEq ι] :
    (∀ w : ι → Session LockedRow,
      Machine.Reachable (LockOrder.step LifecycleTransaction.locks) StartsScanFirst Idle w →
        ¬ Deadlocked w) ∧
      ∀ t : LifecycleTransaction, t.locks.Nodup → ¬ t.ScanFirst →
        ∃ u : LifecycleTransaction, u.ScanFirst ∧ ∀ i j : ι, i ≠ j →
          ∃ w : ι → Session LockedRow,
            Machine.Reachable (LockOrder.step LifecycleTransaction.locks) (StartsOnly t u) Idle w ∧
              Deadlocked w := by
  constructor
  · intro w hw
    exact scanFirst_not_deadlocked hw
  · intro t hrows ht
    obtain ⟨u, hu, hcross⟩ := LifecycleTransaction.exists_crosses_scanFirst hrows ht
    exact ⟨u, hu, fun i j hij => exists_deadlocked_pair hcross hij⟩

/-- A claim waits for the scan that a cancellation holds; with a scan that runs it would not. -/
theorem lifecycle_deadlocks_cancel :
    ¬ Deadlocked (Function.update (Function.update (fun _ : Bool => ({} : Session LockedRow)) true
        { rest := [.scan 1, .task 1] }) false { rest := [.task 1] }) ∧
      ∃ u : LifecycleTransaction, u.ScanFirst ∧ ∃ w : Bool → Session LockedRow,
        Machine.Reachable (LockOrder.step LifecycleTransaction.locks)
          (StartsOnly (.claimTask 1 1 (some .queued)) u) Idle w ∧ Deadlocked w := by
  constructor
  · apply (lifecycle_deadlocks Bool).1
    have hcancel : Machine.Reachable (LockOrder.step LifecycleTransaction.locks) StartsScanFirst
        Idle (Function.update (fun _ : Bool => ({} : Session LockedRow)) true
          { rest := [.scan 1, .task 1] }) :=
      Machine.Reachable.step (.start rfl) (a := .start true (.cancelScan 1 [1]))
        (List.pairwise_singleton _ _) rfl
    have hrunning : (LifecycleTransaction.claimTask 1 1 (some .running)).ScanFirst := by
      simp [LifecycleTransaction.ScanFirst]
    exact hcancel.step (a := .start false (.claimTask 1 1 (some .running))) hrunning rfl
  · obtain ⟨u, hu, hdeadlock⟩ := (lifecycle_deadlocks Bool).2 (.claimTask 1 1 (some .queued))
      (by simp [LifecycleTransaction.locks]) (not_not.2 rfl)
    exact ⟨u, hu, hdeadlock false true Bool.false_ne_true⟩

/-- The first claims the only task of a scan that is still queued, the second cancels it. -/
theorem claimTask_cancelScan_deadlock : ∃ w : Bool → Session LockedRow,
    Machine.Reachable (LockOrder.step LifecycleTransaction.locks)
        (StartsOnly (.claimTask 1 1 (some .queued)) (.cancelScan 1 [1])) Idle w ∧
      Deadlocked w :=
  exists_deadlocked_pair (Crosses.pair (List.mem_singleton_self _) (by simp) [])
    Bool.false_ne_true

end IcebergSST
