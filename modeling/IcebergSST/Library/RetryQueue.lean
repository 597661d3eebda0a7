import Mathlib

/-!
# A queue whose items come back

Items wait for the time they are due. A round serves a page of those that are, the longest
due first; a served item leaves the queue or is due again after the round, and may be
served so many times at most. Between rounds items come and go. A round may be cut off with
part of its page served. If whole rounds never cease and only finitely many items ever come
with a due time before a given one, every item is served and leaves the queue.
-/

namespace RetryQueue

structure Queue (ι : Type*) where
  waiting : Finset ι
  due : ι → ℤ
  attempts : ι → ℕ

inductive Event (ι : Type*)
  /-- What was served, and whether the round was cut off behind it. -/
  | round (now : ℤ) (page : List ι) (cut : Bool)
  | other

variable {ι : Type*} [DecidableEq ι]

structure Round (batch maxAttempts : ℕ) (now : ℤ) (page : List ι) (cut : Bool)
    (q q' : Queue ι) : Prop where
  seen : ∀ i ∈ page, i ∈ q.waiting ∧ q.due i ≤ now
  first : ∀ i ∈ q.waiting, q.due i ≤ now → i ∉ page →
    (∀ j ∈ page, q.due j ≤ q.due i) ∧ (cut = false → page.length = batch)
  subset : q'.waiting ⊆ q.waiting
  kept : ∀ i ∈ q'.waiting, i ∉ page → q'.due i = q.due i ∧ q'.attempts i = q.attempts i
  served : ∀ i ∈ q'.waiting, i ∈ page → now < q'.due i ∧
    q'.attempts i = q.attempts i + 1 ∧ q'.attempts i < maxAttempts

/-- Items come and go, but one that goes on waiting is left alone. -/
def Other (q q' : Queue ι) : Prop :=
  ∀ i ∈ q.waiting, i ∈ q'.waiting → q'.due i = q.due i ∧ q'.attempts i = q.attempts i

def Event.Takes (batch maxAttempts : ℕ) : Event ι → Queue ι → Queue ι → Prop
  | .round now page cut, q, q' => Round batch maxAttempts now page cut q q'
  | .other, q, q' => Other q q'

def Event.page : Event ι → List ι
  | .round _ page _ => page
  | .other => []

structure Run (ι : Type*) [DecidableEq ι] (batch maxAttempts : ℕ) where
  queue : ℕ → Queue ι
  event : ℕ → Event ι
  step : ∀ k, (event k).Takes batch maxAttempts (queue k) (queue (k + 1))

namespace Run
variable {batch maxAttempts : ℕ} (run : Run ι batch maxAttempts)

structure Fair : Prop where
  rounds : ∀ K T, ∃ k ≥ K, ∃ now page, run.event k = .round now page false ∧ T ≤ now
  arrivals : ∀ T, ∃ K, ∀ k ≥ K, ∀ i ∈ (run.queue (k + 1)).waiting,
    i ∉ (run.queue k).waiting → T < (run.queue (k + 1)).due i

/-- An item is served by this step, or is not waiting after it. -/
def Met (k : ℕ) (i : ι) : Prop := i ∈ (run.event k).page ∨ i ∉ (run.queue (k + 1)).waiting

end Run

def ahead (q : Queue ι) (i : ι) : Finset ι := q.waiting.filter fun j => j ≠ i ∧ q.due j ≤ q.due i

section Ahead
variable {batch maxAttempts : ℕ} {now : ℤ} {page : List ι} {cut : Bool} {q q' : Queue ι} {i : ι}

theorem mem_ahead {j : ι} :
    j ∈ ahead q i ↔ j ∈ q.waiting ∧ j ≠ i ∧ q.due j ≤ q.due i := Finset.mem_filter

theorem Round.ahead_subset (h : Round batch maxAttempts now page cut q q')
    (hi : i ∈ q'.waiting) (hpage : i ∉ page) : ahead q' i ⊆ ahead q i := by
  intro j hj
  obtain ⟨hj, hne, hle⟩ := mem_ahead.1 hj
  rw [(h.kept i hi hpage).1] at hle
  refine mem_ahead.2 ⟨h.subset hj, hne, ?_⟩
  by_cases hjpage : j ∈ page
  · -- a served item was due before the round, and is due again after it
    have hlater := (h.served j hj hjpage).1
    have hdue := (h.seen j hjpage).2
    omega
  · rwa [(h.kept j hj hjpage).1] at hle

/-- A whole round that passes over an item takes what was ahead of it. -/
theorem Round.ahead_ssubset (h : Round batch maxAttempts now page false q q') (hbatch : 1 ≤ batch)
    (hi : i ∈ q'.waiting) (hpage : i ∉ page) (hdue : q.due i ≤ now) :
    ahead q' i ⊂ ahead q i := by
  refine (Finset.ssubset_iff_of_subset (h.ahead_subset hi hpage)).2 ?_
  obtain ⟨hfirst, hlength⟩ := h.first i (h.subset hi) hdue hpage
  obtain ⟨j, hj⟩ : ∃ j, j ∈ page := by
    refine List.exists_mem_of_ne_nil _ fun hnil => ?_
    have := hlength rfl
    rw [hnil, List.length_nil] at this
    omega
  have hne : j ≠ i := fun heq => hpage (heq ▸ hj)
  refine ⟨j, mem_ahead.2 ⟨(h.seen j hj).1, hne, hfirst j hj⟩, fun hmem => ?_⟩
  obtain ⟨hj', -, hle⟩ := mem_ahead.1 hmem
  rw [(h.kept i hi hpage).1] at hle
  have hlater := (h.served j hj' hj).1
  omega

theorem Other.ahead_subset (h : Other q q') (hi : i ∈ q.waiting) (hi' : i ∈ q'.waiting)
    (hnew : ∀ j ∈ q'.waiting, j ∉ q.waiting → q.due i < q'.due j) : ahead q' i ⊆ ahead q i := by
  intro j hj
  obtain ⟨hj, hne, hle⟩ := mem_ahead.1 hj
  rw [(h i hi hi').1] at hle
  by_cases hold : j ∈ q.waiting
  · rw [(h j hold hj).1] at hle
    exact mem_ahead.2 ⟨hold, hne, hle⟩
  · have := hnew j hj hold
    omega

end Ahead

namespace Run
variable {batch maxAttempts : ℕ} {run : Run ι batch maxAttempts} {i : ι} {k : ℕ}

theorem kept (hi : i ∈ (run.queue k).waiting) (h : ¬ run.Met k i) :
    i ∈ (run.queue (k + 1)).waiting ∧ (run.queue (k + 1)).due i = (run.queue k).due i ∧
      (run.queue (k + 1)).attempts i = (run.queue k).attempts i := by
  have hpage : i ∉ (run.event k).page := fun hmem => h (.inl hmem)
  have hi' : i ∈ (run.queue (k + 1)).waiting := by
    by_contra hmem
    exact h (.inr hmem)
  refine ⟨hi', ?_⟩
  have hstep := run.step k
  cases hevent : run.event k with
  | round now page cut =>
      rw [hevent] at hstep hpage
      exact hstep.kept i hi' hpage
  | other =>
      rw [hevent] at hstep
      exact hstep i hi hi'

/-- In a fair run every waiting item is served, or is gone before. -/
theorem Fair.met (hfair : run.Fair) (hbatch : 1 ≤ batch) (hi : i ∈ (run.queue k).waiting) :
    ∃ m ≥ k, run.Met m i := by
  by_contra hnever
  push Not at hnever
  obtain ⟨K, hK⟩ := hfair.arrivals ((run.queue k).due i)
  have hstay : ∀ m ≥ k, i ∈ (run.queue m).waiting ∧
      (run.queue m).due i = (run.queue k).due i := by
    intro m hm
    induction m, hm using Nat.le_induction with
    | base => exact ⟨hi, rfl⟩
    | succ m hm ih =>
        obtain ⟨hi', hdue, -⟩ := kept ih.1 (hnever m hm)
        exact ⟨hi', hdue.trans ih.2⟩
  have hpage : ∀ m ≥ k, i ∉ (run.event m).page := fun m hm hmem => hnever m hm (.inl hmem)
  -- no more is ever ahead of the item, and whole rounds that see it take some of that
  have hle : ∀ m ≥ max k K, (ahead (run.queue (m + 1)) i).card ≤ (ahead (run.queue m) i).card := by
    intro m hm
    obtain ⟨hkm, hKm⟩ := max_le_iff.1 hm
    have hstep := run.step m
    have hi' := (hstay (m + 1) (by omega)).1
    refine Finset.card_le_card ?_
    cases hevent : run.event m with
    | round now page cut =>
        rw [hevent] at hstep
        exact hstep.ahead_subset hi' fun hmem => hpage m hkm (by rw [hevent]; exact hmem)
    | other =>
        rw [hevent] at hstep
        refine hstep.ahead_subset (hstay m hkm).1 hi' fun j hj hj' => ?_
        rw [(hstay m hkm).2]
        exact hK m hKm j hj hj'
  have hanti : ∀ m ≥ max k K, ∀ l ≥ m,
      (ahead (run.queue l) i).card ≤ (ahead (run.queue m) i).card := by
    intro m hm l hl
    induction l, hl using Nat.le_induction with
    | base => exact le_rfl
    | succ l hl ih => exact (hle l (hm.trans hl)).trans ih
  have hdrop : ∀ n, ∃ m ≥ max k K,
      (ahead (run.queue m) i).card + n ≤ (ahead (run.queue (max k K)) i).card := by
    intro n
    induction n with
    | zero => exact ⟨max k K, le_rfl, le_rfl⟩
    | succ n ih =>
        obtain ⟨m, hm, hcard⟩ := ih
        obtain ⟨l, hl, now, page, hevent, hnow⟩ := hfair.rounds m ((run.queue k).due i)
        have hkl : k ≤ l := by omega
        have hstep := run.step l
        rw [hevent] at hstep
        have hlt := Finset.card_lt_card (hstep.ahead_ssubset hbatch (hstay (l + 1) (by omega)).1
          (fun hmem => hpage l hkl (by rw [hevent]; exact hmem)) (by rwa [(hstay l hkl).2]))
        have := hanti m hm l hl
        exact ⟨l + 1, by omega, by omega⟩
  obtain ⟨m, -, hcard⟩ := hdrop ((ahead (run.queue (max k K)) i).card + 1)
  omega

/-- An item that is served and stays has one attempt more, and one that is left. -/
theorem attempts_of_served (h : i ∈ (run.event k).page)
    (hi : i ∈ (run.queue (k + 1)).waiting) :
    (run.queue (k + 1)).attempts i = (run.queue k).attempts i + 1 ∧
      (run.queue (k + 1)).attempts i < maxAttempts := by
  have hstep := run.step k
  cases hevent : run.event k with
  | round now page cut =>
      rw [hevent] at h hstep
      exact (hstep.served i hi h).2
  | other =>
      rw [hevent] at h
      cases h

theorem Fair.leaves (hfair : run.Fair) (hbatch : 1 ≤ batch) (i : ι) (k : ℕ) :
    ∃ m ≥ k, i ∉ (run.queue m).waiting := by
  by_contra hstay
  push Not at hstay
  have hle : ∀ m ≥ k, (run.queue m).attempts i ≤ (run.queue (m + 1)).attempts i := by
    intro m hm
    by_cases hpage : i ∈ (run.event m).page
    · have := (attempts_of_served hpage (hstay (m + 1) (by omega))).1
      omega
    · have hnot : ¬ run.Met m i := fun hmet =>
        hmet.elim hpage fun hgone => hgone (hstay (m + 1) (by omega))
      exact (kept (hstay m hm) hnot).2.2.ge
  have hmono : ∀ m ≥ k, ∀ l ≥ m, (run.queue m).attempts i ≤ (run.queue l).attempts i := by
    intro m hm l hl
    induction l, hl using Nat.le_induction with
    | base => exact le_rfl
    | succ l hl ih => exact ih.trans (hle l (hm.trans hl))
  have hserved : ∀ m ≥ k, ∃ l ≥ k, (run.queue m).attempts i < (run.queue l).attempts i ∧
      (run.queue l).attempts i < maxAttempts := by
    intro m hm
    obtain ⟨l, hl, hmet⟩ := hfair.met hbatch (hstay m hm)
    have hpage := hmet.resolve_right fun hgone => hgone (hstay (l + 1) (by omega))
    obtain ⟨hone, hlt⟩ := attempts_of_served hpage (hstay (l + 1) (by omega))
    have := hmono m hm l hl
    exact ⟨l + 1, by omega, by omega, hlt⟩
  have hmany : ∀ n, ∃ m ≥ k, n ≤ (run.queue m).attempts i := by
    intro n
    induction n with
    | zero => exact ⟨k, le_rfl, Nat.zero_le _⟩
    | succ n ih =>
        obtain ⟨m, hm, hn⟩ := ih
        obtain ⟨l, hl, hlt, -⟩ := hserved m hm
        exact ⟨l, hl, by omega⟩
  obtain ⟨m, hm, hn⟩ := hmany maxAttempts
  obtain ⟨l, -, hlt, hmax⟩ := hserved m hm
  omega

end Run

/-- How the rows of a table go through the queue. A row that is still pending after an
attempt is due again later, has been charged for it and has another one left. -/
structure Ladder (ρ ι σ : Type*) (maxAttempts : ℕ) where
  id : ρ → ι
  pending : ρ → Bool
  due : ρ → ℤ
  attempts : ρ → ℕ
  attempt : σ → ℤ → ρ → ρ
  id_attempt : ∀ answer now r, id (attempt answer now r) = id r
  retried : ∀ answer now r, pending (attempt answer now r) →
    now < due (attempt answer now r) ∧ attempts (attempt answer now r) = attempts r + 1 ∧
      attempts (attempt answer now r) < maxAttempts

namespace Ladder
variable {ρ σ : Type*} {maxAttempts : ℕ} (L : Ladder ρ ι σ maxAttempts)

def Keyed (rows : List ρ) : Prop := (rows.map L.id).Nodup

def queue (rows : List ρ) : Queue ι where
  waiting := ((rows.filter L.pending).map L.id).toFinset
  due i := ((rows.find? fun r => L.id r = i).map L.due).getD 0
  attempts i := ((rows.find? fun r => L.id r = i).map L.attempts).getD 0

def isDue (now : ℤ) (r : ρ) : Bool := L.pending r && L.due r ≤ now

/-- The rows as the database comes across them, ordered by their time, and cut. -/
def page (batch : ℕ) (now : ℤ) (rows : List ρ) : List ρ :=
  ((rows.filter (L.isDue now)).mergeSort fun r r' => L.due r ≤ L.due r').take batch

def put (rows : List ρ) (row : ρ) : List ρ :=
  rows.map fun r => if L.id r = L.id row then row else r

def serve (answer : ρ → σ) (now : ℤ) (rows : List ρ) (page : List ρ) : List ρ :=
  page.foldl (fun rows r => L.put rows (L.attempt (answer r) now r)) rows

/-- What other transactions do: pending rows come, and go, but one that stays pending keeps
its time and its attempts. -/
structure Meanwhile (rows rows' : List ρ) : Prop where
  keyed : L.Keyed rows'
  kept : ∀ r ∈ rows, L.pending r → ∀ r' ∈ rows', L.pending r' → L.id r' = L.id r →
    L.due r' = L.due r ∧ L.attempts r' = L.attempts r

variable {L} {rows : List ρ}

theorem find?_of_mem (h : L.Keyed rows) {r : ρ} (hr : r ∈ rows) :
    rows.find? (fun r' => L.id r' = L.id r) = some r := by
  induction rows with
  | nil => cases hr
  | cons r' rows ih =>
      obtain ⟨hnot, hrest⟩ := List.nodup_cons.1 (show (L.id r' :: rows.map L.id).Nodup from h)
      rcases List.mem_cons.1 hr with rfl | hr
      · simp
      · have hne : L.id r' ≠ L.id r := fun heq => hnot (heq ▸ List.mem_map_of_mem hr)
        rw [List.find?_cons_of_neg (by simpa using hne)]
        exact ih hrest hr

theorem eq_of_id (h : L.Keyed rows) {r r' : ρ} (hr : r ∈ rows) (hr' : r' ∈ rows)
    (heq : L.id r = L.id r') : r = r' := by
  have hfind := find?_of_mem h hr'
  rw [← heq, find?_of_mem h hr] at hfind
  exact Option.some.inj hfind

theorem mem_waiting {i : ι} :
    i ∈ (L.queue rows).waiting ↔ ∃ r ∈ rows, L.pending r ∧ L.id r = i := by
  simp [queue, and_assoc]

theorem queue_of_mem (h : L.Keyed rows) {r : ρ} (hr : r ∈ rows) :
    (L.queue rows).due (L.id r) = L.due r ∧ (L.queue rows).attempts (L.id r) = L.attempts r := by
  simp [queue, find?_of_mem h hr]

theorem keyed_put (h : L.Keyed rows) (row : ρ) : L.Keyed (L.put rows row) := by
  have hids : (L.put rows row).map L.id = rows.map L.id := by
    rw [put, List.map_map]
    refine List.map_congr_left fun r _ => ?_
    by_cases heq : L.id r = L.id row <;> simp [heq]
  rwa [Keyed, hids]

theorem serve_eq (h : L.Keyed rows) {answer : ρ → σ} {now : ℤ} {page : List ρ}
    (hpage : L.Keyed page) (hsub : ∀ r ∈ page, r ∈ rows) :
    L.serve answer now rows page =
      rows.map fun r => if L.id r ∈ page.map L.id then L.attempt (answer r) now r else r := by
  induction page generalizing rows with
  | nil => simp [serve]
  | cons r page ih =>
      obtain ⟨hnot, hrest⟩ := List.nodup_cons.1 (show (L.id r :: page.map L.id).Nodup from hpage)
      have hr := hsub r List.mem_cons_self
      have hsub' : ∀ r' ∈ page, r' ∈ L.put rows (L.attempt (answer r) now r) := by
        intro r' hr'
        refine List.mem_map.2 ⟨r', hsub r' (List.mem_cons_of_mem _ hr'), if_neg fun heq => ?_⟩
        rw [L.id_attempt] at heq
        exact hnot (heq ▸ List.mem_map_of_mem hr')
      have hserve : L.serve answer now rows (r :: page) =
          L.serve answer now (L.put rows (L.attempt (answer r) now r)) page := rfl
      rw [hserve, ih (keyed_put h _) hrest hsub', put, List.map_map]
      refine List.map_congr_left fun r' hr' => ?_
      simp only [Function.comp_apply, L.id_attempt, List.map_cons, List.mem_cons]
      by_cases heq : L.id r' = L.id r
      · obtain rfl := eq_of_id h hr' hr heq
        simp [L.id_attempt, hnot]
      · simp [heq]

theorem keyed_serve (h : L.Keyed rows) (answer : ρ → σ) (now : ℤ) (page : List ρ) :
    L.Keyed (L.serve answer now rows page) := by
  induction page generalizing rows with
  | nil => exact h
  | cons r page ih => exact ih (keyed_put h _)

omit [DecidableEq ι] in
theorem mem_page {batch : ℕ} {now : ℤ} {r : ρ} (hr : r ∈ L.page batch now rows) :
    r ∈ rows ∧ L.pending r ∧ L.due r ≤ now := by
  have hmem := (List.mergeSort_perm _ _).mem_iff.1 (List.mem_of_mem_take hr)
  obtain ⟨hr, hdue⟩ := List.mem_filter.1 hmem
  simp only [isDue, Bool.and_eq_true, decide_eq_true_eq] at hdue
  exact ⟨hr, hdue⟩

omit [DecidableEq ι] in
theorem keyed_page (h : L.Keyed rows) (batch : ℕ) (now : ℤ) : L.Keyed (L.page batch now rows) := by
  refine List.Nodup.sublist ((List.take_sublist _ _).map L.id) ?_
  refine ((List.mergeSort_perm _ _).map L.id).nodup_iff.2 ?_
  exact List.Nodup.sublist (List.filter_sublist.map L.id) h

omit [DecidableEq ι] in
/-- Behind a row that was not served there is none that was. -/
theorem due_le_of_not_served {batch n : ℕ} {now : ℤ} {r r' : ρ} (hr : r ∈ rows)
    (hdue : L.isDue now r) (hserved : r ∉ (L.page batch now rows).take n)
    (hr' : r' ∈ (L.page batch now rows).take n) : L.due r' ≤ L.due r := by
  have hmem : r ∈ (rows.filter (L.isDue now)).mergeSort fun r r' => L.due r ≤ L.due r' :=
    (List.mergeSort_perm _ _).mem_iff.2 (List.mem_filter.2 ⟨hr, hdue⟩)
  have hsorted : ((rows.filter (L.isDue now)).mergeSort fun r r' => L.due r ≤ L.due r').Pairwise
      fun r r' => L.due r ≤ L.due r' := by
    have hle : ((rows.filter (L.isDue now)).mergeSort fun r r' => L.due r ≤ L.due r').Pairwise
        fun r r' => decide (L.due r ≤ L.due r') = true :=
      List.pairwise_mergeSort (by simpa using fun a b c => le_trans)
        (by simpa using fun a b => le_total _ _) _
    simpa using hle
  unfold page at hserved hr'
  rw [List.take_take] at hserved hr'
  rw [← List.take_append_drop (min n batch)
    ((rows.filter (L.isDue now)).mergeSort fun r r' => L.due r ≤ L.due r')] at hmem hsorted
  have hdrop := (List.mem_append.1 hmem).resolve_left hserved
  exact (List.pairwise_append.1 hsorted).2.2 r' hr' r hdrop

/-- The first so many rows of the page, served. The database comes across the rows in an
order of its own. -/
theorem round_serve (h : L.Keyed rows) {scan : List ρ} (hscan : scan.Perm rows) (answer : ρ → σ)
    (batch : ℕ) (now : ℤ) (n : ℕ) :
    Round batch maxAttempts now (((L.page batch now scan).take n).map L.id)
      (decide (n < (L.page batch now scan).length)) (L.queue rows)
      (L.queue (L.serve answer now rows ((L.page batch now scan).take n))) := by
  have hkeyed : L.Keyed scan := ((hscan.map L.id).nodup_iff).2 h
  have hpage : L.Keyed ((L.page batch now scan).take n) :=
    List.Nodup.sublist ((List.take_sublist _ _).map L.id) (keyed_page hkeyed batch now)
  have hmem : ∀ r ∈ (L.page batch now scan).take n, r ∈ rows ∧ L.pending r ∧ L.due r ≤ now := by
    intro r hr
    obtain ⟨hr, hdue⟩ := mem_page (List.mem_of_mem_take hr)
    exact ⟨hscan.mem_iff.1 hr, hdue⟩
  have hserve : L.serve answer now rows ((L.page batch now scan).take n) = rows.map _ :=
    serve_eq h hpage fun r hr => (hmem r hr).1
  have hkeyed' := keyed_serve h answer now ((L.page batch now scan).take n)
  -- what stands for an id after the round
  have hafter : ∀ i ∈ (L.queue (L.serve answer now rows ((L.page batch now scan).take n))).waiting,
      ∃ r ∈ rows, L.id r = i ∧ ∃ r' : ρ, L.pending r' ∧
        r' = (if i ∈ ((L.page batch now scan).take n).map L.id
          then L.attempt (answer r) now r else r) ∧
        (L.queue (L.serve answer now rows ((L.page batch now scan).take n))).due i = L.due r' ∧
        (L.queue (L.serve answer now rows ((L.page batch now scan).take n))).attempts i =
          L.attempts r' := by
    intro i hi
    obtain ⟨r', hr', hpending, rfl⟩ := mem_waiting.1 hi
    obtain ⟨hdue, hattempts⟩ := queue_of_mem hkeyed' hr'
    rw [hserve] at hr'
    obtain ⟨r, hr, rfl⟩ := List.mem_map.1 hr'
    have hid : L.id r = L.id (if L.id r ∈ ((L.page batch now scan).take n).map L.id
        then L.attempt (answer r) now r else r) := by
      split_ifs <;> simp [L.id_attempt]
    exact ⟨r, hr, hid, _, hpending, by rw [← hid], hdue, hattempts⟩
  have hpending : ∀ r ∈ rows, L.id r ∈ ((L.page batch now scan).take n).map L.id →
      r ∈ (L.page batch now scan).take n := by
    intro r hr hid
    obtain ⟨r', hr', heq⟩ := List.mem_map.1 hid
    rwa [eq_of_id h hr (hmem r' hr').1 heq.symm]
  constructor
  · intro i hi
    obtain ⟨r, hr, rfl⟩ := List.mem_map.1 hi
    obtain ⟨hrows, hp, hdue⟩ := hmem r hr
    rw [(queue_of_mem h hrows).1]
    exact ⟨mem_waiting.2 ⟨r, hrows, hp, rfl⟩, hdue⟩
  · intro i hi hdue hnot
    obtain ⟨r, hr, hp, rfl⟩ := mem_waiting.1 hi
    rw [(queue_of_mem h hr).1] at hdue
    have hisDue : L.isDue now r := by simp [isDue, hp, hdue]
    have hnot' : r ∉ (L.page batch now scan).take n := fun hmem =>
      hnot (List.mem_map_of_mem hmem)
    refine ⟨fun j hj => ?_, fun hcut => ?_⟩
    · obtain ⟨r', hr', rfl⟩ := List.mem_map.1 hj
      rw [(queue_of_mem h (hmem r' hr').1).1, (queue_of_mem h hr).1]
      exact due_le_of_not_served (hscan.mem_iff.2 hr) hisDue hnot' hr'
    · have hlength := of_decide_eq_false hcut
      rw [List.take_of_length_le (by omega)] at hnot' ⊢
      rw [List.length_map]
      unfold page at hnot' ⊢
      rw [List.length_take, min_eq_left]
      by_contra hlt
      rw [List.take_of_length_le (by omega)] at hnot'
      exact hnot' ((List.mergeSort_perm _ _).mem_iff.2
        (List.mem_filter.2 ⟨hscan.mem_iff.2 hr, hisDue⟩))
  · intro i hi
    obtain ⟨r, hr, rfl, r', hp, rfl, -⟩ := hafter i hi
    refine mem_waiting.2 ⟨r, hr, ?_, rfl⟩
    split_ifs at hp with hserved
    · exact (hmem r (hpending r hr hserved)).2.1
    · exact hp
  · intro i hi hnot
    obtain ⟨r, hr, rfl, r', -, rfl, hdue, hattempts⟩ := hafter i hi
    rw [hdue, hattempts, if_neg hnot, (queue_of_mem h hr).1, (queue_of_mem h hr).2]
    exact ⟨rfl, rfl⟩
  · intro i hi hserved
    obtain ⟨r, hr, rfl, r', hp, rfl, hdue, hattempts⟩ := hafter i hi
    rw [if_pos hserved] at hp hdue hattempts
    rw [hdue, hattempts, (queue_of_mem h hr).2]
    exact L.retried _ _ _ hp

theorem Meanwhile.other {rows' : List ρ} (h : L.Keyed rows) (hm : L.Meanwhile rows rows') :
    Other (L.queue rows) (L.queue rows') := by
  intro i hi hi'
  obtain ⟨r, hr, hp, rfl⟩ := mem_waiting.1 hi
  obtain ⟨r', hr', hp', hid⟩ := mem_waiting.1 hi'
  have hq := queue_of_mem hm.keyed hr'
  rw [hid] at hq
  rw [hq.1, hq.2, (queue_of_mem h hr).1, (queue_of_mem h hr).2]
  exact hm.kept r hr hp r' hr' hp' hid

end Ladder

/-- What happens to the table: a round of which so many rows are committed, or something
else. -/
inductive Beat (ρ σ : Type*)
  | round (now : ℤ) (scan : List ρ) (answer : ρ → σ) (committed : ℕ)
  | other

namespace Ladder
variable {ρ σ : Type*} {maxAttempts : ℕ} (L : Ladder ρ ι σ maxAttempts) (batch : ℕ)

def Takes : Beat ρ σ → List ρ → List ρ → Prop
  | .round now scan answer committed, rows, rows' => scan.Perm rows ∧
      rows' = L.serve answer now rows ((L.page batch now scan).take committed)
  | .other, rows, rows' => L.Meanwhile rows rows'

structure TableRun where
  rows : ℕ → List ρ
  beat : ℕ → Beat ρ σ
  keyed : L.Keyed (rows 0)
  step : ∀ k, L.Takes batch (beat k) (rows k) (rows (k + 1))

variable {L} {batch}

theorem TableRun.keyed_rows (t : TableRun L batch) (k : ℕ) : L.Keyed (t.rows k) := by
  induction k with
  | zero => exact t.keyed
  | succ k ih =>
      have hstep := t.step k
      cases hbeat : t.beat k with
      | round now scan answer committed =>
          rw [hbeat] at hstep
          rw [hstep.2]
          exact keyed_serve ih _ _ _
      | other =>
          rw [hbeat] at hstep
          exact hstep.keyed

def Beat.event (L : Ladder ρ ι σ maxAttempts) (batch : ℕ) : Beat ρ σ → Event ι
  | .round now scan _ committed =>
      .round now (((L.page batch now scan).take committed).map L.id)
        (decide (committed < (L.page batch now scan).length))
  | .other => .other

def TableRun.run (t : TableRun L batch) : Run ι batch maxAttempts where
  queue k := L.queue (t.rows k)
  event k := Beat.event L batch (t.beat k)
  step k := by
    have hstep := t.step k
    cases hbeat : t.beat k with
    | round now scan answer committed =>
        rw [hbeat] at hstep
        rw [hstep.2]
        exact round_serve (t.keyed_rows k) hstep.1 answer batch now committed
    | other =>
        rw [hbeat] at hstep
        exact hstep.other (t.keyed_rows k)

/-- Whole rounds never cease, and only finitely many rows ever come, or come back, with a
time before a given one. -/
structure TableRun.Fair (t : TableRun L batch) : Prop where
  rounds : ∀ K T, ∃ k ≥ K, ∃ now scan answer committed,
    t.beat k = .round now scan answer committed ∧
      (L.page batch now scan).length ≤ committed ∧ T ≤ now
  arrivals : ∀ T, ∃ K, ∀ k ≥ K, ∀ r' ∈ t.rows (k + 1), L.pending r' →
    (∀ r ∈ t.rows k, L.pending r → L.id r ≠ L.id r') → T < L.due r'

/-- In a fair run no row stays pending for ever. -/
theorem TableRun.Fair.settles {t : TableRun L batch} (h : t.Fair) (hbatch : 1 ≤ batch) (i : ι)
    (k : ℕ) : ∃ m ≥ k, ∀ r ∈ t.rows m, L.id r = i → L.pending r = false := by
  have hfair : t.run.Fair := by
    refine ⟨fun K T => ?_, fun T => ?_⟩
    · obtain ⟨l, hl, now, scan, answer, committed, hbeat, hwhole, hnow⟩ := h.rounds K T
      refine ⟨l, hl, now, ((L.page batch now scan).take committed).map L.id, ?_, hnow⟩
      have hcut : decide (committed < (L.page batch now scan).length) = false :=
        decide_eq_false (by omega)
      change Beat.event L batch (t.beat l) = _
      rw [hbeat, Beat.event, hcut]
    · obtain ⟨K, hK⟩ := h.arrivals T
      refine ⟨K, fun l hl i hi hnot => ?_⟩
      obtain ⟨r', hr', hp', rfl⟩ := mem_waiting.1 hi
      change T < (L.queue (t.rows (l + 1))).due (L.id r')
      rw [(queue_of_mem (t.keyed_rows (l + 1)) hr').1]
      exact hK l hl r' hr' hp' fun r hr hp heq => hnot (mem_waiting.2 ⟨r, hr, hp, heq⟩)
  obtain ⟨m, hm, hnot⟩ := hfair.leaves hbatch i k
  refine ⟨m, hm, fun r hr hid => ?_⟩
  by_contra hp
  exact hnot (mem_waiting.2 ⟨r, hr, by simpa using hp, hid⟩)

end Ladder
end RetryQueue
