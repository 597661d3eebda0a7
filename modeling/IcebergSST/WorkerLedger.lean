import IcebergSST.ExactlyOnce
import IcebergSST.Requests

/-!
# What an attempt knows of its batches

An attempt's own state, whatever the API makes of its requests: the ledger it advanced
accounts for a prefix of its history, the batch in flight carries the next number, and
what it reports at the end is what the ledger leaves out.
-/

namespace IcebergSST

variable {κ β χ ρ : Type}

/-- Any moment will do. -/
abbrev anyMoment (_ : χ) (_ : Events κ β χ ρ) : Prop := True

/-- The batches the ledger advanced past, with the batcher's own counter. -/
def Batcher.Kept (lease : Lease κ β χ) (h : Events κ β χ ρ) (b : Batcher κ χ)
    (acknowledged : List (ProgressSubmission κ χ)) : Prop :=
  ∃ ledger h₀, Delivery anyMoment lease h b b.sequence ledger ledger h₀ ∧
    ledger.map Batch.payload = acknowledged

structure Worker.Sound (r : Worker κ β χ ρ) : Prop where
  traces : r.fetch.Traces r.lease r.history
  kept : ∀ b, r.fetch.batcher = some b → b.Kept r.lease r.history r.acknowledged
  idle : r.fetch.batcher = none → r.acknowledged = []
  reports : ∀ body, r.activity = .reporting body → ∃ exit, r.fetch.report r.lease exit = some body
  unfinished : ∀ unit call, r.activity = .delivering unit call →
    r.fetch.exit = none ∧ r.fetch.batcher.isSome

section Kept
variable {lease : Lease κ β χ} {h : Events κ β χ ρ} {b : Batcher κ χ}
  {acknowledged : List (ProgressSubmission κ χ)}

theorem Batcher.Kept.inFlight (hk : b.Kept lease h acknowledged) {batch : Batch κ χ}
    (hb : b.inFlight = some batch) : batch.payload.sequence = b.sequence + 1 := by
  obtain ⟨_, _, hd, _⟩ := hk
  exact (hd.inFlight batch hb).1

theorem Batcher.Kept.rearm (hk : b.Kept lease h acknowledged) (deadline : ℚ) :
    Batcher.Kept lease h { b with deadline } acknowledged := by
  obtain ⟨ledger, h₀, hd, hack⟩ := hk
  exact ⟨ledger, h₀, ⟨hd.link, hd.sent, hd.past, hd.pending, hd.inFlight⟩, hack⟩

theorem Batcher.Kept.load (hk : b.Kept lease h acknowledged) {checkpoint : χ}
    (hpub : ConnectorEvent.checkpointAt checkpoint ∈ h) :
    (Fetch.load lease b checkpoint (candidatesOf h)).Kept lease h acknowledged := by
  unfold Fetch.load
  cases hflight : b.inFlight with
  | some batch => exact hk
  | none =>
      cases hpending : b.pending with
      | none => exact hk
      | some pending =>
          obtain ⟨ledger, h₀, hd, hack⟩ := hk
          have hc := Batcher.composed_compose (b := b) (G := anyMoment)
            (hd.pending pending hpending) hpub trivial
          have hd' := hd.compose hflight rfl hc
          rw [hpending] at hd'
          exact ⟨ledger, h₀, hd', hack⟩

/-- An answer at or above the offered number moves the batch into the ledger. -/
theorem Batcher.Kept.acknowledge (hk : b.Kept lease h acknowledged) {batch : Batch κ χ}
    (hflight : b.inFlight = some batch) (reported : ℕ) :
    (b.acknowledge batch reported).Kept lease h
      (if reported < batch.payload.sequence then acknowledged
        else acknowledged ++ [batch.payload]) := by
  obtain ⟨ledger, h₀, hd, hack⟩ := hk
  unfold Batcher.acknowledge
  by_cases hlt : reported < batch.payload.sequence
  · rw [if_pos hlt, if_pos hlt]
    exact ⟨ledger, h₀, ⟨Or.inl ⟨rfl, rfl⟩, hd.sent, hd.past, hd.pending, fun _ hb => (by cases hb)⟩,
      hack⟩
  · rw [if_neg hlt, if_neg hlt]
    obtain ⟨_, h₁, hp, hp', hc⟩ := hd.inFlight batch hflight
    refine ⟨ledger ++ [batch], h₁, ⟨Or.inl ⟨rfl, rfl⟩, hd.sent.snoc hp hc, hp', ?_, ?_⟩, ?_⟩
    · intro _ hb
      cases hb
    · intro _ hb
      cases hb
    · rw [List.map_append, hack, List.map_singleton]

end Kept

namespace Worker
variable {r : Worker κ β χ ρ}

theorem sound_start (lease : Lease κ β χ) (now : ℚ) :
    Sound { lease, fetch := (.start lease now : Fetch κ β χ ρ) } where
  traces := Fetch.traces_start lease now
  kept := by
    intro b hb
    unfold Fetch.start at hb
    dsimp only at hb
    split_ifs at hb
    obtain rfl := Option.some.inj hb
    exact ⟨[], [], ⟨Or.inl ⟨rfl, rfl⟩, .nil, List.nil_prefix, fun _ h => (by cases h),
      fun _ h => (by cases h)⟩, rfl⟩
  idle := fun _ => rfl
  reports := fun _ h => (by cases h)
  unfinished := fun _ _ h => (by cases h)

theorem Sound.inspect (hs : r.Sound) (hexit : r.fetch.exit = none) (u : ContentUnit κ β) :
    (r.move (.yield u) (r.fetch.inspect u)).Sound := by
  rcases hs.traces.inspect hexit u with ⟨hnone, ht, hb⟩ | ⟨hleft, ht, hb⟩
  · simp only [move, hnone, if_true]
    refine ⟨ht, ?_, ?_, fun _ h => (by cases h), fun _ _ h => (by cases h)⟩
    · intro b' hb'
      change (r.fetch.inspect u).batcher = some b' at hb'
      rw [hb] at hb'
      obtain ⟨b, hb₀, rfl⟩ := Option.map_eq_some_iff.1 hb'
      obtain ⟨ledger, h₀, hd, hack⟩ := hs.kept b hb₀
      have hdesc : Boundary.Describes r.lease (cut (r.history ++ [.yield u]))
          ⟨(candidatesOf (r.history ++ [.yield u])).length,
            (r.fetch.inspect u).outcome.asCoverage, countsOf (r.history ++ [.yield u])⟩ := by
        rw [cut_append_unit]
        exact ⟨rfl, ⟨_, ht.coverage, rfl⟩, rfl⟩
      exact ⟨ledger, h₀, hd.boundary (List.prefix_append _ _) hdesc, hack⟩
    · intro hnone'
      change (r.fetch.inspect u).batcher = none at hnone'
      rw [hb] at hnone'
      exact hs.idle (Option.map_eq_none_iff.1 hnone')
  · simp only [move, hleft, if_false]
    exact ⟨ht, fun b' hb' => hs.kept b' (hb ▸ hb'), fun hnone' => hs.idle (hb ▸ hnone'),
      fun _ h => (by cases h), fun _ _ h => (by cases h)⟩

theorem Sound.pass (hs : r.Sound) (hexit : r.fetch.exit = none) (e : ConnectorEvent κ β χ ρ)
    (t : Tick) : (r.move e (r.fetch.pass e t)).Sound := by
  cases he : e.IsUnit with
  | false =>
      have hpass : r.fetch.pass e t = { r.fetch with outcome := e.note r.fetch.outcome } := by
        unfold Fetch.pass
        cases e <;> first | rfl | cases he
      have ht := hs.traces.note hexit he
      rw [hpass, move, if_pos hexit]
      refine ⟨ht, ?_, hs.idle, fun _ h => (by cases h), fun _ _ h => (by cases h)⟩
      intro b hb
      obtain ⟨ledger, h₀, hd, hack⟩ := hs.kept b hb
      exact ⟨ledger, h₀,
        hd.extend (List.prefix_append _ _) (cut_append_of_not_isUnit _ he), hack⟩
  | true =>
      cases e with
      | yield u =>
          by_cases hcancel : t.cancelled
          · simp only [Fetch.pass, hcancel, if_true, move, reduceCtorEq, if_false]
            exact ⟨⟨hs.traces.coverage, hs.traces.candidates, fun h => (by cases h),
              hs.traces.published⟩, hs.kept, hs.idle, fun _ h => (by cases h),
              fun _ _ h => (by cases h)⟩
          · simp only [Fetch.pass, hcancel, if_false, Bool.false_eq_true]
            exact hs.inspect hexit u
      | _ => cases he

/-- Back from `deliver` with a batcher that is as good. -/
theorem Sound.resume (hs : r.Sound) (hexit : r.fetch.exit = none) {b : Batcher κ χ}
    {acknowledged : List (ProgressSubmission κ χ)}
    (hk : b.Kept r.lease r.history acknowledged) (rearmed : ℚ) (u : ContentUnit κ β) :
    ({ r with acknowledged }.resume b rearmed u).Sound := by
  let armed : Worker κ β χ ρ :=
    { r with
      acknowledged
      activity := .looping
      fetch := { r.fetch with
        batcher := some { b with deadline := rearmed + checkpointBatchSeconds } } }
  have harmed : armed.Sound := by
    refine ⟨⟨hs.traces.coverage, hs.traces.candidates, hs.traces.counts, hs.traces.published⟩,
      ?_, fun h => (by cases h), fun _ h => (by cases h), fun _ _ h => (by cases h)⟩
    intro b' hb'
    obtain rfl := Option.some.inj hb'
    exact hk.rearm _
  exact harmed.inspect hexit u

variable [DecidableEq χ]

theorem Sound.step (hs : r.Sound) {a : WorkerAction κ β χ ρ} {r' : Worker κ β χ ρ}
    (h : r.step a = some r') : r'.Sound := by
  cases a with
  | connector e t =>
      obtain ⟨-, hexit, rfl | ⟨unit, b, published, hb, hpublished, rfl⟩⟩ := Worker.step_connector h
      · exact hs.pass hexit e t
      · have hload := (hs.kept b hb).load (hs.traces.published published hpublished)
        rw [← hs.traces.candidates] at hload
        refine ⟨⟨hs.traces.coverage, hs.traces.candidates, hs.traces.counts,
          hs.traces.published⟩, ?_, fun h => (by cases h), fun _ h => (by cases h),
          fun _ _ _ => ⟨hexit, rfl⟩⟩
        intro b' hb'
        obtain rfl := Option.some.inj hb'
        exact hload
  | giveUp rearmed =>
      obtain ⟨unit, call, b, hact, hb, rfl⟩ := Worker.step_giveUp h
      exact hs.resume (hs.unfinished _ _ hact).1 (hs.kept b hb) rearmed unit
  | report exit =>
      obtain ⟨-, body, hbody, rfl⟩ := Worker.step_report h
      refine ⟨hs.traces, hs.kept, hs.idle, fun body' h' => ?_, fun _ _ h => (by cases h)⟩
      obtain rfl := Activity.reporting.inj h'
      exact ⟨_, hbody⟩
  | die =>
      obtain rfl := Option.some.inj h
      exact ⟨hs.traces, hs.kept, hs.idle, fun _ h => (by cases h), fun _ _ h => (by cases h)⟩

omit [DecidableEq χ]

theorem Sound.call (hs : r.Sound) (k : ℕ) : (r.call k).Sound := by
  unfold Worker.call
  split
  · rename_i unit call hact
    exact ⟨hs.traces, hs.kept, hs.idle, fun _ h => (by cases h),
      fun _ _ _ => hs.unfinished _ _ hact⟩
  · exact hs

theorem Sound.receive (hs : r.Sound) {answer : Except Refusal ℕ} {rearmed : ℚ}
    {r' : Worker κ β χ ρ} (h : r.receive answer rearmed = some r') : r'.Sound := by
  unfold Worker.receive at h
  split at h
  · rename_i unit call b hact hb
    have hexit := (hs.unfinished _ _ hact).1
    split at h
    · rename_i batch reported hflight
      obtain rfl := Option.some.inj h
      exact hs.resume hexit ((hs.kept b hb).acknowledge hflight reported) rearmed unit
    · obtain rfl := Option.some.inj h
      exact hs.resume hexit (hs.kept b hb) rearmed unit
  · cases h

/-- What an attempt leaves out of its report is in the batches its ledger advanced past. -/
theorem Sound.report (hs : r.Sound) {exit : Exit} {body : ResultsSubmission κ ρ}
    (hbody : r.fetch.report r.lease exit = some body) :
    r.acknowledged.flatMap ProgressSubmission.findings ++ body.findings =
      r.lease.kept r.fetch.candidates := by
  obtain ⟨_, hfindings⟩ := Fetch.report_checkpointSequence hbody
  cases hb : r.fetch.batcher with
  | none =>
      rw [hs.idle hb, hfindings, Fetch.sentCandidates, hb]
      rfl
  | some b =>
      obtain ⟨ledger, h₀, hd, hack⟩ := hs.kept b hb
      have hl := hd.sent
      obtain ⟨t, ht⟩ := hd.past
      have hsent : b.sentCandidates = (candidatesOf h₀).length := hl.candidates_le
      have hdrop : r.fetch.candidates.drop b.sentCandidates = candidatesOf t := by
        rw [hs.traces.candidates, ← ht, candidatesOf_append, hsent, List.drop_left]
      rw [← hack, hl.kept, hfindings, Fetch.sentCandidates, hb]
      change r.lease.kept _ ++ List.filter _ (r.fetch.candidates.drop b.sentCandidates) = _
      rw [hdrop, hs.traces.candidates, ← ht, candidatesOf_append, Lease.kept, Lease.kept,
        List.filter_append]

theorem inspect_batcher (f : Fetch κ β χ ρ) (u : ContentUnit κ β) {b' : Batcher κ χ}
    (h : (f.inspect u).batcher = some b') : ∃ b, f.batcher = some b ∧ b'.sequence = b.sequence ∧
      b'.inFlight = b.inFlight := by
  have hcases : (f.inspect u).batcher = f.batcher ∨ ∃ candidates coverage counts,
      (f.inspect u).batcher = f.batcher.map (·.boundary candidates coverage counts) := by
    unfold Fetch.inspect
    dsimp only
    split
    · exact Or.inl rfl
    · exact Or.inr ⟨_, _, _, rfl⟩
  rcases hcases with hsame | ⟨candidates, coverage, counts, hmap⟩
  · exact ⟨b', hsame ▸ h, rfl, rfl⟩
  · rw [hmap] at h
    obtain ⟨b, hb, rfl⟩ := Option.map_eq_some_iff.1 h
    exact ⟨b, hb, rfl, rfl⟩

theorem load_batcher (lease : Lease κ β χ) (b : Batcher κ χ) (checkpoint : χ)
    (candidates : List κ) :
    (Fetch.load lease b checkpoint candidates).sequence = b.sequence ∧
      ((Fetch.load lease b checkpoint candidates).inFlight = b.inFlight ∨ b.inFlight = none) := by
  unfold Fetch.load
  split
  · rename_i hfree _
    exact ⟨rfl, Or.inr hfree⟩
  · exact ⟨rfl, Or.inl rfl⟩

variable {r' : Worker κ β χ ρ} {b' : Batcher κ χ}

/-- No step of its own moves an attempt's counter or replaces a batch in flight. -/
theorem step_batcher [DecidableEq χ] {a : WorkerAction κ β χ ρ} (h : r.step a = some r')
    (hb : r'.fetch.batcher = some b') : ∃ b, r.fetch.batcher = some b ∧
      b'.sequence = b.sequence ∧ (b'.inFlight = b.inFlight ∨ b.inFlight = none) := by
  cases a with
  | connector e t =>
      obtain ⟨-, -, rfl | ⟨unit, b, published, hbatcher, -, rfl⟩⟩ := step_connector h
      · change (r.fetch.pass e t).batcher = some b' at hb
        cases e with
        | yield u =>
            simp only [Fetch.pass] at hb
            split_ifs at hb
            · exact ⟨b', hb, rfl, Or.inl rfl⟩
            · obtain ⟨b, hb, hseq, hflight⟩ := inspect_batcher _ _ hb
              exact ⟨b, hb, hseq, Or.inl hflight⟩
        | _ => exact ⟨b', hb, rfl, Or.inl rfl⟩
      · obtain rfl := Option.some.inj hb
        exact ⟨b, hbatcher, load_batcher _ _ _ _⟩
  | giveUp rearmed =>
      obtain ⟨unit, call, b, -, hbatcher, rfl⟩ := step_giveUp h
      obtain ⟨b₀, hb₀, hseq, hflight⟩ := inspect_batcher _ _ hb
      obtain rfl := Option.some.inj hb₀
      exact ⟨b, hbatcher, hseq, Or.inl hflight⟩
  | report exit =>
      obtain ⟨-, body, -, rfl⟩ := step_report h
      exact ⟨b', hb, rfl, Or.inl rfl⟩
  | die =>
      obtain rfl := Option.some.inj h
      exact ⟨b', hb, rfl, Or.inl rfl⟩

theorem inspect_isSome (f : Fetch κ β χ ρ) (u : ContentUnit κ β) :
    (f.inspect u).batcher.isSome = f.batcher.isSome := by
  unfold Fetch.inspect
  dsimp only
  split
  · rfl
  · exact Option.isSome_map

/-- A step of an attempt's own keeps its batcher and its ledger, and waits for no call. -/
theorem step_frame [DecidableEq χ] {a : WorkerAction κ β χ ρ} (h : r.step a = some r') :
    r'.fetch.batcher.isSome = r.fetch.batcher.isSome ∧ r'.acknowledged = r.acknowledged ∧
      ∀ unit k, r'.activity ≠ .delivering unit (some k) := by
  cases a with
  | connector e t =>
      obtain ⟨-, -, rfl | ⟨unit, b, published, hbatcher, -, rfl⟩⟩ := step_connector h
      · refine ⟨?_, rfl, fun _ _ h => (by cases h)⟩
        change (r.fetch.pass e t).batcher.isSome = _
        cases e with
        | yield u =>
            simp only [Fetch.pass]
            split_ifs
            · rfl
            · exact inspect_isSome _ u
        | _ => rfl
      · exact ⟨by rw [hbatcher]; rfl, rfl, fun _ _ h => (by cases h)⟩
  | giveUp rearmed =>
      obtain ⟨unit, call, b, -, hbatcher, rfl⟩ := step_giveUp h
      refine ⟨?_, rfl, fun _ _ h => (by cases h)⟩
      rw [hbatcher]
      exact inspect_isSome _ _
  | report exit =>
      obtain ⟨-, body, -, rfl⟩ := step_report h
      exact ⟨rfl, rfl, fun _ _ h => (by cases h)⟩
  | die =>
      obtain rfl := Option.some.inj h
      exact ⟨rfl, rfl, fun _ _ h => (by cases h)⟩

theorem call_fetch (k : ℕ) : (r.call k).fetch = r.fetch := by
  unfold Worker.call
  split <;> rfl

theorem receive_frame {answer : Except Refusal ℕ} {rearmed : ℚ}
    (h : r.receive answer rearmed = some r') :
    r'.fetch.batcher.isSome ∧ ∀ unit k, r'.activity ≠ .delivering unit (some k) := by
  unfold Worker.receive at h
  split at h
  · split at h
    · obtain rfl := Option.some.inj h
      exact ⟨inspect_isSome _ _, fun _ _ h => (by cases h)⟩
    · obtain rfl := Option.some.inj h
      exact ⟨inspect_isSome _ _, fun _ _ h => (by cases h)⟩
  · cases h

theorem receive_batcher {answer : Except Refusal ℕ} {rearmed : ℚ}
    (h : r.receive answer rearmed = some r') (hb : r'.fetch.batcher = some b') :
    ∃ b, r.fetch.batcher = some b ∧
      ((b'.sequence = b.sequence ∧ b'.inFlight = b.inFlight ∧ r'.acknowledged = r.acknowledged) ∨
      ∃ batch n, b.inFlight = some batch ∧ answer = .ok n ∧ b'.inFlight = none ∧
        ((n < batch.payload.sequence ∧ b'.sequence = b.sequence ∧
            r'.acknowledged = r.acknowledged) ∨
          (batch.payload.sequence ≤ n ∧ b'.sequence = n ∧
            r'.acknowledged = r.acknowledged ++ [batch.payload]))) := by
  unfold Worker.receive at h
  split at h
  · rename_i unit call b hact hbatcher
    refine ⟨b, hbatcher, ?_⟩
    split at h
    · rename_i batch n hflight
      obtain rfl := Option.some.inj h
      obtain ⟨b₀, hb₀, hseq, hfree⟩ := inspect_batcher _ _ hb
      obtain rfl := Option.some.inj hb₀
      refine Or.inr ⟨batch, n, hflight, rfl, ?_⟩
      change b'.sequence = (b.acknowledge batch n).sequence at hseq
      change b'.inFlight = (b.acknowledge batch n).inFlight at hfree
      unfold Batcher.acknowledge at hseq hfree
      by_cases hlt : n < batch.payload.sequence
      · rw [if_pos hlt] at hseq hfree
        exact ⟨hfree, Or.inl ⟨hlt, hseq, if_pos hlt⟩⟩
      · rw [if_neg hlt] at hseq hfree
        exact ⟨hfree, Or.inr ⟨by omega, hseq, if_neg hlt⟩⟩
    · obtain rfl := Option.some.inj h
      obtain ⟨b₀, hb₀, hseq, hfree⟩ := inspect_batcher _ _ hb
      obtain rfl := Option.some.inj hb₀
      exact Or.inl ⟨hseq, hfree, rfl⟩
  · cases h

end Worker

end IcebergSST
