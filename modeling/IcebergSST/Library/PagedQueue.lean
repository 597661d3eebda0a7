import Mathlib.Data.Finset.Card
import Mathlib.Data.List.Sort
import Mathlib.Tactic

/-!
# A queue that is served page by page

Items wait with a key. A round looks at the items whose key lies before its horizon and
serves the first of them in the order of their keys, as many as it likes but at least
one. Whatever the horizons, items leave in the order of their keys and only once, and
an item that every round can see is served after as many rounds as there are items.
-/

namespace PagedQueue

variable {α τ : Type*} [DecidableEq α] [LinearOrder τ] (key : α → τ)

/-- One page over the waiting items. -/
structure Round (horizon : τ) (waiting : Finset α) (page : List α) : Prop where
  nodup : page.Nodup
  sorted : page.Pairwise fun a b => key a ≤ key b
  seen : ∀ a ∈ page, a ∈ waiting ∧ key a < horizon
  first : ∀ a ∈ waiting, key a < horizon → a ∉ page → page ≠ [] ∧ ∀ b ∈ page, key b ≤ key a

def Rounds : Finset α → List (τ × List α) → Prop
  | _, [] => True
  | waiting, (horizon, page) :: rounds =>
      Round key horizon waiting page ∧ Rounds (waiting \ page.toFinset) rounds

def served (rounds : List (τ × List α)) : List α := rounds.flatMap Prod.snd

variable {key} {waiting : Finset α} {rounds : List (τ × List α)} {horizon : τ} {page : List α}
  {a b : α}

theorem Rounds.waiting_of_served (h : Rounds key waiting rounds) (ha : a ∈ served rounds) :
    a ∈ waiting := by
  induction rounds generalizing waiting with
  | nil => cases ha
  | cons round rounds ih =>
      obtain ⟨hround, hrest⟩ := h
      rcases List.mem_append.1 ha with ha | ha
      · exact (hround.seen a ha).1
      · exact (Finset.mem_sdiff.1 (ih hrest ha)).1

/-- Every item was served by a round that could see it. -/
theorem Rounds.seen (h : Rounds key waiting rounds) (ha : a ∈ served rounds) :
    ∃ round ∈ rounds, key a < round.1 := by
  induction rounds generalizing waiting with
  | nil => cases ha
  | cons round rounds ih =>
      obtain ⟨hround, hrest⟩ := h
      rcases List.mem_append.1 ha with ha | ha
      · exact ⟨round, List.mem_cons_self, (hround.seen a ha).2⟩
      · obtain ⟨r, hr, hlt⟩ := ih hrest ha
        exact ⟨r, List.mem_cons_of_mem _ hr, hlt⟩

theorem Rounds.nodup (h : Rounds key waiting rounds) : (served rounds).Nodup := by
  induction rounds generalizing waiting with
  | nil => exact List.nodup_nil
  | cons round rounds ih =>
      obtain ⟨hround, hrest⟩ := h
      apply List.nodup_append'.2
      refine ⟨hround.nodup, ih hrest, ?_⟩
      intro a ha ha'
      have hleft := Finset.mem_sdiff.1 (hrest.waiting_of_served ha')
      exact hleft.2 (List.mem_toFinset.2 ha)

theorem Rounds.sorted (h : Rounds key waiting rounds) :
    (served rounds).Pairwise fun a b => key a ≤ key b := by
  induction rounds generalizing waiting with
  | nil => exact List.Pairwise.nil
  | cons round rounds ih =>
      obtain ⟨hround, hrest⟩ := h
      apply List.pairwise_append.2
      refine ⟨hround.sorted, ih hrest, ?_⟩
      intro a ha b hb
      have hleft := Finset.mem_sdiff.1 (hrest.waiting_of_served hb)
      by_cases hb' : key b < round.1
      · exact (hround.first b hleft.1 hb' (fun hmem => hleft.2 (List.mem_toFinset.2 hmem))).2 a ha
      · exact (hround.seen a ha).2.le.trans (not_lt.1 hb')

/-- An item that every round can see is served after as many rounds as items wait. -/
theorem Rounds.complete (h : Rounds key waiting rounds) (ha : a ∈ waiting)
    (hseen : ∀ round ∈ rounds, key a < round.1) (hcard : waiting.card ≤ rounds.length) :
    a ∈ served rounds := by
  induction rounds generalizing waiting with
  | nil =>
      rw [List.length_nil, Nat.le_zero, Finset.card_eq_zero] at hcard
      rw [hcard] at ha
      cases ha
  | cons round rounds ih =>
      obtain ⟨hround, hrest⟩ := h
      apply List.mem_append.2
      by_cases hpage : a ∈ round.2
      · exact Or.inl hpage
      · right
        have hnonempty := (hround.first a ha (hseen round List.mem_cons_self) hpage).1
        obtain ⟨b, hb⟩ := List.exists_mem_of_ne_nil _ hnonempty
        apply ih hrest
        · exact Finset.mem_sdiff.2 ⟨ha, fun hmem => hpage (List.mem_toFinset.1 hmem)⟩
        · exact fun r hr => hseen r (List.mem_cons_of_mem _ hr)
        · -- the page took at least the item `b`
          have hlt : (waiting \ round.2.toFinset).card < waiting.card := by
            apply Finset.card_lt_card
            apply Finset.sdiff_ssubset
            · exact fun c hc => (hround.seen c (List.mem_toFinset.1 hc)).1
            · exact ⟨b, List.mem_toFinset.2 hb⟩
          rw [List.length_cons] at hcard
          omega

omit [DecidableEq α] in
theorem Round.of_mergeSort {items : List α} {limit : ℕ} (hlimit : 1 ≤ limit) (hnodup : items.Nodup)
    (hitems : ∀ a, a ∈ items ↔ a ∈ waiting ∧ key a < horizon) :
    Round key horizon waiting ((items.mergeSort fun a b => key a ≤ key b).take limit) := by
  have hperm := List.mergeSort_perm items fun a b => decide (key a ≤ key b)
  have hsorted : (items.mergeSort fun a b => key a ≤ key b).Pairwise fun a b => key a ≤ key b := by
    have hle : (items.mergeSort fun a b => key a ≤ key b).Pairwise
        fun a b => decide (key a ≤ key b) = true :=
      List.pairwise_mergeSort (by simpa using fun a b c => le_trans)
        (by simpa using fun a b => le_total _ _) items
    simpa using hle
  constructor
  · exact (hperm.nodup_iff.2 hnodup).sublist (List.take_sublist _ _)
  · exact hsorted.sublist (List.take_sublist _ _)
  · intro a ha
    exact (hitems a).1 (hperm.mem_iff.1 (List.mem_of_mem_take ha))
  · intro a ha hkey hpage
    have hmem : a ∈ items.mergeSort fun a b => key a ≤ key b :=
      hperm.mem_iff.2 ((hitems a).2 ⟨ha, hkey⟩)
    rw [← List.take_append_drop limit (items.mergeSort fun a b => key a ≤ key b)] at hmem hsorted
    have hdrop := (List.mem_append.1 hmem).resolve_left hpage
    refine ⟨?_, fun b hb => (List.pairwise_append.1 hsorted).2.2 b hb a hdrop⟩
    intro hnil
    rw [List.take_eq_nil_iff] at hnil
    rcases hnil with hnil | hnil
    · omega
    · simp [hnil] at hdrop

end PagedQueue
