import Mathlib.Data.Finset.Card
import Mathlib.Tactic

/-!
# Walking a graph with a queue

Rows carry keys, and what a row leads to depends on its key. A walk visits the row at the
front of its queue and asks for the rows it leads to; those with a key that was not seen
before go to the back of the queue. The walk may stop at a row. No key is visited twice,
whatever cycles the answers hold, and a walk that nothing stops visits every key that can
be reached.
-/

namespace Worklist

variable {α κ : Type*} [DecidableEq κ] (key : α → κ) (next : κ → List α) (stops : α → Bool)

structure Pending (α κ : Type*) where
  queue : List α
  seen : List κ

def Pending.offer (p : Pending α κ) (a : α) : Pending α κ :=
  if key a ∈ p.seen then p else ⟨p.queue ++ [a], key a :: p.seen⟩

def Pending.offerAll (p : Pending α κ) (rows : List α) : Pending α κ :=
  rows.foldl (Pending.offer key) p

inductive Ending
  | finished
  | stopped
  /-- Rows are left, and no turns. -/
  | unfinished
  deriving DecidableEq, Repr

/-- At most so many turns of a walk: the rows it visits, in order, and how it ends. -/
def walk : ℕ → Pending α κ → List α × Ending
  | _, ⟨[], _⟩ => ([], .finished)
  | 0, _ => ([], .unfinished)
  | turns + 1, ⟨a :: queue, seen⟩ =>
      if stops a then ([a], .stopped)
      else
        let rest := walk turns (Pending.offerAll key ⟨queue, seen⟩ (next (key a)))
        (a :: rest.1, rest.2)

inductive Reachable (roots : List α) : κ → Prop
  | root {a : α} : a ∈ roots → Reachable roots (key a)
  | step {k : κ} {a : α} : Reachable roots k → a ∈ next k → Reachable roots (key a)

/-- A row of the roots or of an answer to a key that can be reached. -/
def Listed (roots : List α) (a : α) : Prop :=
  a ∈ roots ∨ ∃ k, Reachable key next roots k ∧ a ∈ next k

variable {key next stops} {roots : List α} {p : Pending α κ} {a : α} {rows done : List α}

omit [DecidableEq κ] in
theorem Listed.reachable (h : Listed key next roots a) : Reachable key next roots (key a) := by
  rcases h with h | ⟨k, hk, h⟩
  · exact .root h
  · exact .step hk h

structure Valid (key : α → κ) (next : κ → List α) (roots done : List α) (p : Pending α κ) :
    Prop where
  nodup : ((done ++ p.queue).map key).Nodup
  seen : ∀ k, k ∈ p.seen ↔ k ∈ (done ++ p.queue).map key
  listed : ∀ a ∈ done ++ p.queue, Listed key next roots a

theorem Valid.offer (h : Valid key next roots done p) (ha : Listed key next roots a) :
    Valid key next roots done (p.offer key a) ∧ key a ∈ (p.offer key a).seen ∧
      ∀ k ∈ p.seen, k ∈ (p.offer key a).seen := by
  unfold Pending.offer
  split_ifs with hseen
  · exact ⟨h, hseen, fun k hk => hk⟩
  · refine ⟨⟨?_, ?_, ?_⟩, List.mem_cons_self, fun k hk => List.mem_cons_of_mem _ hk⟩
    · rw [← List.append_assoc, List.map_append, List.nodup_append]
      refine ⟨h.nodup, List.nodup_singleton _, ?_⟩
      intro k hk k' hk' heq
      rw [List.map_singleton, List.mem_singleton] at hk'
      exact hseen ((h.seen _).2 (hk' ▸ heq ▸ hk))
    · intro k
      have hk := h.seen k
      simp only [List.mem_cons, ← List.append_assoc, List.map_append, List.mem_append,
        List.map_cons, List.map_nil, List.not_mem_nil, or_false] at hk ⊢
      rw [hk, or_comm]
    · intro b hb
      rw [← List.append_assoc] at hb
      rcases List.mem_append.1 hb with hb | hb
      · exact h.listed b hb
      · exact List.mem_singleton.1 hb ▸ ha

theorem Valid.offerAll (h : Valid key next roots done p)
    (hrows : ∀ a ∈ rows, Listed key next roots a) :
    Valid key next roots done (p.offerAll key rows) ∧
      (∀ a ∈ rows, key a ∈ (p.offerAll key rows).seen) ∧
      ∀ k ∈ p.seen, k ∈ (p.offerAll key rows).seen := by
  induction rows generalizing p with
  | nil => exact ⟨h, fun a ha => absurd ha List.not_mem_nil, fun k hk => hk⟩
  | cons a rows ih =>
      obtain ⟨hvalid, ha, hold⟩ := h.offer (hrows a List.mem_cons_self)
      obtain ⟨hvalid', hall, hold'⟩ := ih hvalid fun b hb => hrows b (List.mem_cons_of_mem _ hb)
      refine ⟨hvalid', ?_, fun k hk => hold' k (hold k hk)⟩
      intro b hb
      rcases List.mem_cons.1 hb with rfl | hb
      · exact hold' _ ha
      · exact hall b hb

theorem Valid.turn {queue : List α} {seen : List κ}
    (h : Valid key next roots done ⟨a :: queue, seen⟩) :
    Valid key next roots (done ++ [a])
        (Pending.offerAll key ⟨queue, seen⟩ (next (key a))) ∧
      (∀ b ∈ next (key a),
        key b ∈ (Pending.offerAll key ⟨queue, seen⟩ (next (key a))).seen) ∧
      ∀ k ∈ seen, k ∈ (Pending.offerAll key ⟨queue, seen⟩ (next (key a))).seen := by
  have hshift : Valid key next roots (done ++ [a]) ⟨queue, seen⟩ := by
    have hassoc : done ++ [a] ++ queue = done ++ a :: queue := by simp
    exact ⟨hassoc ▸ h.nodup, hassoc ▸ h.seen, hassoc ▸ h.listed⟩
  have ha : Listed key next roots a :=
    h.listed a (List.mem_append_right _ List.mem_cons_self)
  exact hshift.offerAll fun b hb => Or.inr ⟨key a, ha.reachable, hb⟩

/-- Whatever a walk visits was listed, and no key twice. -/
theorem Valid.walk (h : Valid key next roots done p) (turns : ℕ) :
    ((done ++ (walk key next stops turns p).1).map key).Nodup ∧
      ∀ a ∈ (walk key next stops turns p).1, Listed key next roots a := by
  induction turns generalizing done p with
  | zero =>
      obtain ⟨_ | ⟨a, queue⟩, seen⟩ := p <;>
        simpa [Worklist.walk] using (List.nodup_append.1 (List.map_append ▸ h.nodup)).1
  | succ turns ih =>
      obtain ⟨_ | ⟨a, queue⟩, seen⟩ := p
      · simpa [Worklist.walk] using h.nodup
      · have ha := h.listed a (List.mem_append_right _ List.mem_cons_self)
        unfold Worklist.walk
        split_ifs with hstop
        · have hsub : (done ++ [a]).Sublist (done ++ a :: queue) :=
            (List.singleton_sublist.2 List.mem_cons_self).append_left done
          exact ⟨h.nodup.sublist (hsub.map key), fun b hb => List.mem_singleton.1 hb ▸ ha⟩
        · obtain ⟨hnodup, hlisted⟩ := ih h.turn.1
          refine ⟨by simpa using hnodup, ?_⟩
          intro b hb
          rcases List.mem_cons.1 hb with rfl | hb
          · exact ha
          · exact hlisted b hb

/-- A walk that comes to its end has visited every key it had seen, and what those lead
to. -/
theorem Valid.closed (h : Valid key next roots done p) {turns : ℕ}
    (hend : (Worklist.walk key next stops turns p).2 = .finished)
    (hdone : ∀ a ∈ done, ∀ b ∈ next (key a), key b ∈ p.seen) :
    (∀ k ∈ p.seen, k ∈ (done ++ (Worklist.walk key next stops turns p).1).map key) ∧
      ∀ a ∈ done ++ (Worklist.walk key next stops turns p).1, ∀ b ∈ next (key a),
        key b ∈ (done ++ (Worklist.walk key next stops turns p).1).map key := by
  induction turns generalizing done p with
  | zero =>
      obtain ⟨_ | ⟨a, queue⟩, seen⟩ := p
      · have hseen := h.seen
        simp only [List.append_nil] at hseen
        simp only [Worklist.walk, List.append_nil]
        exact ⟨fun k hk => (hseen k).1 hk, fun a ha b hb => (hseen _).1 (hdone a ha b hb)⟩
      · cases hend
  | succ turns ih =>
      obtain ⟨_ | ⟨a, queue⟩, seen⟩ := p
      · have hseen := h.seen
        simp only [List.append_nil] at hseen
        simp only [Worklist.walk, List.append_nil]
        exact ⟨fun k hk => (hseen k).1 hk, fun a ha b hb => (hseen _).1 (hdone a ha b hb)⟩
      · unfold Worklist.walk at hend ⊢
        by_cases hstop : stops a
        · rw [if_pos hstop] at hend
          cases hend
        · rw [if_neg hstop] at hend ⊢
          obtain ⟨hvalid, hrows, hold⟩ := h.turn
          have hdone' : ∀ x ∈ done ++ [a], ∀ b ∈ next (key x),
              key b ∈ (Pending.offerAll key ⟨queue, seen⟩ (next (key a))).seen := by
            intro x hx b hb
            rcases List.mem_append.1 hx with hx | hx
            · exact hold _ (hdone x hx b hb)
            · rw [List.mem_singleton.1 hx] at hb
              exact hrows b hb
          obtain ⟨hseen, hclosed⟩ := ih hvalid hend hdone'
          simp only [List.append_assoc, List.singleton_append] at hseen hclosed ⊢
          exact ⟨fun k hk => hseen k (hold k hk), hclosed⟩

/-- Every turn brings one more of finitely many keys behind the walk. -/
theorem Valid.not_unfinished (h : Valid key next roots done p) {keys : Finset κ} {turns : ℕ}
    (hkeys : ∀ a, Listed key next roots a → key a ∈ keys)
    (hturns : keys.card ≤ turns + done.length) :
    (Worklist.walk key next stops turns p).2 ≠ .unfinished := by
  induction turns generalizing done p with
  | zero =>
      obtain ⟨_ | ⟨a, queue⟩, seen⟩ := p
      · exact fun heq => by cases heq
      · -- the walk has as many different keys behind it as there are, and one ahead
        exfalso
        have hsub : ((done ++ a :: queue).map key).toFinset ⊆ keys := by
          intro k hk
          obtain ⟨b, hb, rfl⟩ := List.mem_map.1 (List.mem_toFinset.1 hk)
          exact hkeys b (h.listed b hb)
        have hcard := Finset.card_le_card hsub
        rw [List.toFinset_card_of_nodup h.nodup] at hcard
        simp only [List.length_map, List.length_append, List.length_cons] at hcard
        omega
  | succ turns ih =>
      obtain ⟨_ | ⟨a, queue⟩, seen⟩ := p
      · exact fun heq => by cases heq
      · unfold Worklist.walk
        split_ifs with hstop
        · exact fun heq => by cases heq
        · apply ih h.turn.1
          rw [List.length_append, List.length_singleton]
          omega

theorem walk_stopped {turns : ℕ} (h : (walk key next stops turns p).2 = .stopped) :
    ∃ visited a, (walk key next stops turns p).1 = visited ++ [a] ∧ stops a = true ∧
      ∀ b ∈ visited, stops b = false := by
  induction turns generalizing p with
  | zero => obtain ⟨_ | ⟨a, queue⟩, seen⟩ := p <;> cases h
  | succ turns ih =>
      obtain ⟨_ | ⟨a, queue⟩, seen⟩ := p
      · cases h
      · unfold walk at h ⊢
        by_cases hstop : stops a
        · rw [if_pos hstop]
          exact ⟨[], a, rfl, hstop, fun b hb => absurd hb List.not_mem_nil⟩
        · rw [if_neg hstop] at h ⊢
          obtain ⟨visited, b, hvisited, hb, hrest⟩ := ih h
          refine ⟨a :: visited, b, by simp [hvisited], hb, ?_⟩
          intro x hx
          rcases List.mem_cons.1 hx with rfl | hx
          · exact Bool.eq_false_iff.2 hstop
          · exact hrest x hx

theorem walk_finished {turns : ℕ} (h : (walk key next stops turns p).2 = .finished) :
    ∀ a ∈ (walk key next stops turns p).1, stops a = false := by
  induction turns generalizing p with
  | zero =>
      obtain ⟨_ | ⟨a, queue⟩, seen⟩ := p
      · exact fun a ha => absurd ha List.not_mem_nil
      · cases h
  | succ turns ih =>
      obtain ⟨_ | ⟨a, queue⟩, seen⟩ := p
      · exact fun a ha => absurd ha List.not_mem_nil
      · unfold walk at h ⊢
        by_cases hstop : stops a
        · rw [if_pos hstop] at h
          cases h
        · rw [if_neg hstop] at h ⊢
          intro b hb
          rcases List.mem_cons.1 hb with rfl | hb
          · exact Bool.eq_false_iff.2 hstop
          · exact ih h b hb

def start (key : α → κ) (roots : List α) : Pending α κ := Pending.offerAll key ⟨[], []⟩ roots

theorem valid_start (key : α → κ) (next : κ → List α) (roots : List α) :
    Valid key next roots [] (start key roots) ∧ ∀ a ∈ roots, key a ∈ (start key roots).seen := by
  have hnil : Valid key next roots [] (⟨[], []⟩ : Pending α κ) :=
    ⟨List.nodup_nil, fun k => Iff.rfl, fun a ha => absurd ha List.not_mem_nil⟩
  obtain ⟨hvalid, hroots, -⟩ := hnil.offerAll fun a ha => Or.inl ha
  exact ⟨hvalid, hroots⟩

theorem nodup_walk (turns : ℕ) :
    ((walk key next stops turns (start key roots)).1.map key).Nodup := by
  simpa using ((valid_start key next roots).1.walk turns).1

theorem listed_of_mem_walk {turns : ℕ} (h : a ∈ (walk key next stops turns (start key roots)).1) :
    Listed key next roots a :=
  ((valid_start key next roots).1.walk turns).2 a h

/-- What a walk visits that nothing stops: the keys that can be reached, and no
others. -/
theorem mem_walk_iff {turns : ℕ} (h : (walk key next stops turns (start key roots)).2 = .finished)
    {k : κ} : k ∈ (walk key next stops turns (start key roots)).1.map key ↔
      Reachable key next roots k := by
  obtain ⟨hvalid, hroots⟩ := valid_start key next roots
  obtain ⟨hseen, hclosed⟩ := hvalid.closed h fun a ha => absurd ha List.not_mem_nil
  simp only [List.nil_append] at hseen hclosed
  constructor
  · intro hk
    obtain ⟨a, ha, rfl⟩ := List.mem_map.1 hk
    exact (listed_of_mem_walk ha).reachable
  · intro hk
    induction hk with
    | root ha => exact hseen _ (hroots _ ha)
    | step _ ha ih =>
        obtain ⟨b, hb, rfl⟩ := List.mem_map.1 ih
        exact hclosed b hb _ ha

theorem walk_ne_unfinished {keys : Finset κ} {turns : ℕ}
    (hkeys : ∀ a, Listed key next roots a → key a ∈ keys) (hturns : keys.card ≤ turns) :
    (walk key next stops turns (start key roots)).2 ≠ .unfinished :=
  (valid_start key next roots).1.not_unfinished hkeys hturns

end Worklist
