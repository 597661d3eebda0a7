import Mathlib.Data.Finset.Card
import Mathlib.Data.List.Sort

/-!
# Walks that continue after the last key

A walk reads rows in batches, in the order of their keys, and each read starts after the last
key of the one before it. Rows may come, go and change between two reads. However they do,
no key is read twice, the keys come in order, and a key that was there at every read is read.
-/

namespace KeysetWalk

variable {ρ κ γ τ ι : Type*} [LinearOrder κ] {key : ρ → κ}

def After (start : Option κ) (k : κ) : Prop := ∀ s ∈ start, s < k

instance (start : Option κ) (k : κ) : Decidable (After start k) :=
  inferInstanceAs (Decidable (∀ s ∈ start, s < k))

theorem After.mono {start : Option κ} {j k : κ} (h : After start j) (hle : j ≤ k) :
    After start k :=
  fun s hs => (h s hs).trans_le hle

theorem not_after_some {s k : κ} : ¬ After (some s) k ↔ k ≤ s := by
  simp [After]

theorem After.le_of_not {start : Option κ} {j k : κ} (h : After start k) (hj : ¬ After start j) :
    j < k := by
  by_contra! hle
  exact hj (h.mono hle)

/-- One read: the first rows after a place, and the last key when there may be more. -/
structure Read (key : ρ → κ) (rows : List ρ) (start : Option κ) (batch : List ρ)
    (next : Option κ) : Prop where
  sorted : batch.Pairwise fun a b => key a < key b
  mem : ∀ a ∈ batch, a ∈ rows ∧ After start (key a)
  complete : ∀ a ∈ rows, After start (key a) → (∀ k ∈ next, key a ≤ k) → a ∈ batch
  last : ∀ k ∈ next, (∃ a ∈ batch, key a = k) ∧ ∀ a ∈ batch, key a ≤ k

/-- The front of the sorted rows after a place is a read, if it is all of them wherever the
walk would stop. -/
theorem Read.of_take {rows sorted : List ρ} {start next : Option κ} {n : ℕ}
    (hsorted : sorted.Pairwise fun a b => key a < key b)
    (hmem : ∀ a, a ∈ sorted ↔ a ∈ rows ∧ After start (key a))
    (hstop : next = none → sorted.length ≤ n)
    (hnext : ∀ k ∈ next, ∃ a ∈ (sorted.take n).getLast?, key a = k) :
    Read key rows start (sorted.take n) next := by
  have hsplit : (sorted.take n ++ sorted.drop n).Pairwise fun a b => key a < key b := by
    rwa [List.take_append_drop]
  obtain ⟨hfront, _, hacross⟩ := List.pairwise_append.1 hsplit
  constructor
  · exact hfront
  · exact fun a ha => (hmem a).1 (List.mem_of_mem_take ha)
  · intro a ha hafter hle
    have hsome : a ∈ sorted.take n ++ sorted.drop n := by
      rw [List.take_append_drop]
      exact (hmem a).2 ⟨ha, hafter⟩
    rcases List.mem_append.1 hsome with hmem | hmem
    · exact hmem
    · exfalso
      cases next with
      | none =>
          rw [List.drop_eq_nil_of_le (hstop rfl)] at hmem
          cases hmem
      | some k =>
          obtain ⟨b, hb, rfl⟩ := hnext k rfl
          have hlast : b ∈ sorted.take n := List.mem_of_getLast? hb
          exact absurd (hle _ rfl) (hacross b hlast a hmem).not_ge
  · intro k hk
    obtain ⟨b, hb, rfl⟩ := hnext k hk
    obtain ⟨front, hfrontEq⟩ := List.getLast?_eq_some_iff.1 hb
    refine ⟨⟨b, List.mem_of_getLast? hb, rfl⟩, ?_⟩
    intro a ha
    rw [hfrontEq] at ha hfront
    rcases List.mem_append.1 ha with ha | ha
    · exact ((List.pairwise_append.1 hfront).2.2 a ha b List.mem_cons_self).le
    · rw [List.mem_singleton.1 ha]

theorem Read.after_last {rows batch : List ρ} {start : Option κ} {k : κ}
    (h : Read key rows start batch (some k)) : After start k := by
  obtain ⟨⟨a, ha, rfl⟩, _⟩ := h.last k rfl
  exact (h.mem a ha).2

theorem Read.last_mem {rows batch : List ρ} {start : Option κ} {k : κ}
    (h : Read key rows start batch (some k)) : ∃ a ∈ rows, key a = k := by
  obtain ⟨⟨a, ha, hkey⟩, _⟩ := h.last k rfl
  exact ⟨a, (h.mem a ha).1, hkey⟩

/-- Every one of the first reads saw the key. -/
def Throughout (key : ρ → κ) (rows : ℕ → List ρ) (n : ℕ) (k : κ) : Prop :=
  ∀ m < n, ∃ a ∈ rows m, key a = k

/-- What is returned after some reads, of a walk that has come this far. -/
structure Progress (key : ρ → κ) (rows : ℕ → List ρ) (n : ℕ) (returned : List ρ)
    (start : Option κ) : Prop where
  sorted : returned.Pairwise fun a b => key a < key b
  mem : ∀ a ∈ returned, ∃ m < n, a ∈ rows m
  behind : ∀ a ∈ returned, ¬ After start (key a)
  complete : ∀ k, Throughout key rows n k → ¬ After start k → ∃ a ∈ returned, key a = k

/-- What is returned by a walk that has ended. -/
structure Complete (key : ρ → κ) (rows : ℕ → List ρ) (n : ℕ) (returned : List ρ) : Prop where
  sorted : returned.Pairwise fun a b => key a < key b
  mem : ∀ a ∈ returned, ∃ m < n, a ∈ rows m
  complete : ∀ k, Throughout key rows n k → ∃ a ∈ returned, key a = k

variable {rows : ℕ → List ρ} {n : ℕ} {returned batch : List ρ} {start : Option κ}

omit [LinearOrder κ] in
theorem Throughout.of_succ {k : κ} (h : Throughout key rows (n + 1) k) :
    Throughout key rows n k :=
  fun m hm => h m (hm.trans n.lt_succ_self)

theorem progress_zero : Progress key rows 0 [] none := by
  constructor
  · exact List.Pairwise.nil
  · exact fun a ha => absurd ha List.not_mem_nil
  · exact fun a ha => absurd ha List.not_mem_nil
  · exact fun k _ hk => absurd (fun s hs => by cases hs) hk

section

variable (h : Progress key rows n returned start)

include h

theorem Progress.sorted_append {next : Option κ} (hread : Read key (rows n) start batch next) :
    (returned ++ batch).Pairwise fun a b => key a < key b := by
  refine List.pairwise_append.2 ⟨h.sorted, hread.sorted, ?_⟩
  exact fun a ha b hb => (hread.mem b hb).2.le_of_not (h.behind a ha)

theorem Progress.mem_append {next : Option κ} (hread : Read key (rows n) start batch next) :
    ∀ a ∈ returned ++ batch, ∃ m < n + 1, a ∈ rows m := by
  intro a ha
  rcases List.mem_append.1 ha with ha | ha
  · obtain ⟨m, hm, hmem⟩ := h.mem a ha
    exact ⟨m, hm.trans n.lt_succ_self, hmem⟩
  · exact ⟨n, n.lt_succ_self, (hread.mem a ha).1⟩

theorem Progress.complete_append {next : Option κ} (hread : Read key (rows n) start batch next)
    {k : κ} (hk : Throughout key rows (n + 1) k) (hle : ∀ s ∈ next, k ≤ s) :
    ∃ a ∈ returned ++ batch, key a = k := by
  by_cases hafter : After start k
  · obtain ⟨a, ha, rfl⟩ := hk n n.lt_succ_self
    exact ⟨a, List.mem_append_right _ (hread.complete a ha hafter hle), rfl⟩
  · obtain ⟨a, ha, hkey⟩ := h.complete k hk.of_succ hafter
    exact ⟨a, List.mem_append_left _ ha, hkey⟩

theorem Progress.step {k : κ} (hread : Read key (rows n) start batch (some k)) :
    Progress key rows (n + 1) (returned ++ batch) (some k) := by
  constructor
  · exact h.sorted_append hread
  · exact h.mem_append hread
  · intro a ha
    rw [not_after_some]
    rcases List.mem_append.1 ha with ha | ha
    · exact (hread.after_last.le_of_not (h.behind a ha)).le
    · exact (hread.last k rfl).2 a ha
  · intro j hj hle
    refine h.complete_append hread hj fun s hs => ?_
    cases hs
    exact not_after_some.1 hle

theorem Progress.finish (hread : Read key (rows n) start batch none) :
    Complete key rows (n + 1) (returned ++ batch) where
  sorted := h.sorted_append hread
  mem := h.mem_append hread
  complete _ hk := h.complete_append hread hk fun _ hs => by cases hs

end

theorem Complete.succ (h : Complete key rows n returned) : Complete key rows (n + 1) returned where
  sorted := h.sorted
  mem a ha := by
    obtain ⟨m, hm, hmem⟩ := h.mem a ha
    exact ⟨m, hm.trans n.lt_succ_self, hmem⟩
  complete k hk := h.complete k hk.of_succ

theorem count_key [BEq κ] [LawfulBEq κ] {k : κ}
    (hsorted : returned.Pairwise fun a b => key a < key b)
    (hmem : ∃ a ∈ returned, key a = k) : (returned.map key).count k = 1 := by
  have hnodup : (returned.map key).Nodup :=
    List.pairwise_map.2 (hsorted.imp fun hlt => hlt.ne)
  exact List.count_eq_one_of_mem hnodup (List.mem_map.2 hmem)

/-- Over rows that stay as they are, an ended walk has returned them all. -/
theorem Complete.eq_of_constant {all sorted : List ρ} (h : Complete key rows n returned)
    (hrows : ∀ m, rows m = all) (hmem : ∀ a, a ∈ sorted ↔ a ∈ all)
    (hsorted : sorted.Pairwise fun a b => key a < key b) : returned = sorted := by
  have hkeys : (sorted.map key).Nodup := List.pairwise_map.2 (hsorted.imp fun hlt => hlt.ne)
  have hkeys' : (returned.map key).Nodup :=
    List.pairwise_map.2 (h.sorted.imp fun hlt => hlt.ne)
  have hsub : ∀ a ∈ returned, a ∈ sorted := by
    intro a ha
    obtain ⟨m, _, ham⟩ := h.mem a ha
    rw [hrows m] at ham
    exact (hmem a).2 ham
  have hsup : ∀ a ∈ sorted, a ∈ returned := by
    intro a ha
    have hthrough : Throughout key rows n (key a) := by
      intro m _
      rw [hrows m]
      exact ⟨a, (hmem a).1 ha, rfl⟩
    obtain ⟨b, hb, hkey⟩ := h.complete _ hthrough
    rwa [← List.inj_on_of_nodup_map hkeys (hsub b hb) ha hkey]
  have hperm : returned.Perm sorted :=
    (List.perm_ext_iff_of_nodup (List.Nodup.of_map key hkeys') (List.Nodup.of_map key hkeys)).2
      fun a => ⟨hsub a, hsup a⟩
  exact hperm.eq_of_pairwise (fun a b _ _ hlt hgt => absurd hlt hgt.asymm) h.sorted hsorted

/-- Where a walk stands, unless it has ended, and what it has returned. -/
structure Walk (γ ι : Type*) where
  standing : Option γ
  returned : List ι

def Walk.step (turn : γ → τ → List ι × Option γ) (w : Walk γ ι) (t : τ) : Walk γ ι :=
  match w.standing with
  | none => w
  | some c => ⟨(turn c t).2, w.returned ++ (turn c t).1⟩

/-- A walk from its start, with what each turn finds. -/
def walk (turn : γ → τ → List ι × Option γ) (start : γ) (found : ℕ → τ) : ℕ → Walk γ ι
  | 0 => ⟨some start, []⟩
  | n + 1 => (walk turn start found n).step turn (found n)

/-- The turns of a walk are reads that go on after their last row, if at all: `Stands` says
which key a walk continues after. -/
structure ByKey (key : ρ → κ) (rows : τ → List ρ) (render : ρ → ι) (stand : ρ → γ)
    (turn : γ → τ → List ι × Option γ) (Stands : γ → Option κ → Prop) (start : γ) : Prop where
  starts : Stands start none
  stands : ∀ a, Stands (stand a) (some (key a))
  turns : ∀ c t s, Stands c s → ∃ batch last, Read key (rows t) s batch (Option.map key last) ∧
    turn c t = (batch.map render, Option.map stand last)

variable {rows : τ → List ρ} {render : ρ → ι} {stand : ρ → γ}
  {turn : γ → τ → List ι × Option γ} {Stands : γ → Option κ → Prop} {start : γ}

theorem walk_succ_of_ended {found : ℕ → τ} (h : (walk turn start found n).standing = none) :
    walk turn start found (n + 1) = walk turn start found n := by
  rw [walk, Walk.step, h]

theorem walk_succ_of_going {found : ℕ → τ} {c : γ}
    (h : (walk turn start found n).standing = some c) :
    walk turn start found (n + 1) = ⟨(turn c (found n)).2,
      (walk turn start found n).returned ++ (turn c (found n)).1⟩ := by
  rw [walk, Walk.step, h]

/-- A walk is under way with some progress, or it has ended and returned all it had to. -/
theorem ByKey.invariant (h : ByKey key rows render stand turn Stands start) (found : ℕ → τ)
    (n : ℕ) :
    ∃ returned, (walk turn start found n).returned = returned.map render ∧
      (∀ c ∈ (walk turn start found n).standing,
        ∃ s, Stands c s ∧ Progress key (fun m => rows (found m)) n returned s) ∧
      ((walk turn start found n).standing = none →
        Complete key (fun m => rows (found m)) n returned) := by
  induction n with
  | zero =>
      refine ⟨[], rfl, fun c hc => ?_, fun hnone => by cases hnone⟩
      cases hc
      exact ⟨none, h.starts, progress_zero⟩
  | succ n ih =>
      obtain ⟨returned, hreturned, hgoing, hended⟩ := ih
      cases hstanding : (walk turn start found n).standing with
      | none =>
          rw [walk_succ_of_ended hstanding]
          refine ⟨returned, hreturned, fun c hc => ?_, fun _ => (hended hstanding).succ⟩
          rw [hstanding] at hc
          cases hc
      | some c =>
          obtain ⟨s, hstands, hprogress⟩ := hgoing c hstanding
          obtain ⟨batch, last, hread, hturn⟩ := h.turns c (found n) s hstands
          rw [walk_succ_of_going hstanding, hturn]
          refine ⟨returned ++ batch, ?_, fun c' hc' => ?_, fun hnone => ?_⟩
          · rw [hreturned, List.map_append]
          · obtain ⟨a, rfl, rfl⟩ := Option.map_eq_some_iff.1 hc'
            exact ⟨some (key a), h.stands a, hprogress.step hread⟩
          · obtain rfl := Option.map_eq_none_iff.1 hnone
            exact hprogress.finish hread

theorem Read.card_lt {all : List ρ} {s : Option κ} {k : κ} {batch : List ρ} {keys : Finset κ}
    (h : Read key all s batch (some k)) (hkeys : ∀ a ∈ all, key a ∈ keys) :
    (keys.filter (After (some k))).card < (keys.filter (After s)).card := by
  obtain ⟨a, ha, hkey⟩ := h.last_mem
  have hk : k ∈ keys := hkey ▸ hkeys a ha
  apply Finset.card_lt_card
  refine Finset.ssubset_iff_subset_ne.2 ⟨?_, fun heq => ?_⟩
  · intro j hj
    obtain ⟨hj, hlt⟩ := Finset.mem_filter.1 hj
    exact Finset.mem_filter.2 ⟨hj, h.after_last.mono (hlt k rfl).le⟩
  · have hmem : k ∈ keys.filter (After (some k)) := by
      rw [heq]
      exact Finset.mem_filter.2 ⟨hk, h.after_last⟩
    exact lt_irrefl k ((Finset.mem_filter.1 hmem).2 k rfl)

/-- A walk that only ever finds the keys of a finite set ends within a turn for each of them and
one more. -/
theorem ByKey.exists_ended (h : ByKey key rows render stand turn Stands start) {found : ℕ → τ}
    {keys : Finset κ} (hkeys : ∀ n, ∀ a ∈ rows (found n), key a ∈ keys) :
    ∃ n ≤ keys.card + 1, (walk turn start found n).standing = none := by
  -- a walk that is still going has left a key behind at each turn
  have hleft : ∀ n, ∀ c ∈ (walk turn start found n).standing,
      ∃ s, Stands c s ∧ n + (keys.filter (After s)).card ≤ keys.card := by
    intro n
    induction n with
    | zero =>
        intro c hc
        cases hc
        refine ⟨none, h.starts, ?_⟩
        rw [Nat.zero_add]
        exact Finset.card_filter_le _ _
    | succ n ih =>
        intro c' hc'
        cases hstanding : (walk turn start found n).standing with
        | none =>
            rw [walk_succ_of_ended hstanding, hstanding] at hc'
            cases hc'
        | some c =>
            obtain ⟨s, hstands, hcard⟩ := ih c hstanding
            obtain ⟨batch, last, hread, hturn⟩ := h.turns c (found n) s hstands
            rw [walk_succ_of_going hstanding, hturn] at hc'
            obtain ⟨a, rfl, rfl⟩ := Option.map_eq_some_iff.1 hc'
            refine ⟨some (key a), h.stands a, ?_⟩
            have hlt := hread.card_lt (hkeys n)
            omega
  refine ⟨keys.card + 1, le_rfl, ?_⟩
  rw [Option.eq_none_iff_forall_not_mem]
  intro c hc
  obtain ⟨s, _, hcard⟩ := hleft _ c hc
  omega

end KeysetWalk
